import Ucimf.Display.Session
import Mathlib.Data.List.Nodup
import Mathlib.Data.List.Pairwise

/-!
# Moving visible windows

`set_position` with the focus on moves the windows one at a time. The result is that of
the refresh bracket exactly when no window lands on the old rectangle of a window that is
moved after it: where that happens the later window wipes out the earlier one, which has
itself saved the later window's old image.
-/

namespace Ucimf.Display

open Outcome Compositing Transition

variable {ι Px : Type}

theorem pairwise_of_split {α : Type} {R : α → α → Prop} {l : List α}
    (h : ∀ as e bs f cs, l = as ++ e :: (bs ++ f :: cs) → R e f) : l.Pairwise R := by
  induction l with
  | nil => exact .nil
  | cons e l ih =>
    refine List.pairwise_cons.mpr ⟨fun f hf => ?_, ih fun as e' bs f cs split => ?_⟩
    · obtain ⟨bs, cs, rfl⟩ := List.append_of_mem hf
      exact h [] e bs f cs rfl
    · exact h (e :: as) e' bs f cs (by rw [split]; rfl)

/-- Two buffers that a standing window may have been given agree on its rectangle. -/
theorem Window.Standing.unique {W : Window Px} {d d' : GraphDev Px} {f g : Point → Px}
    (h : W.Standing d f) (h' : W.Standing d' g) {p : Point} (hp : p ∈ W.rect) : f p = g p := by
  have same : W.saved f = W.saved g := Option.some.inj (h.bg.symm.trans h'.bg)
  have bounds := mem_box.mp hp
  have entry := congrArg
    (fun buf => buf[offset W.width (p.1 - W.posX) (p.2 - W.posY)]?) same
  simp only [Window.saved] at entry
  rw [getElem?_tile _ (by omega) (by omega) (by omega) (by omega),
    getElem?_tile _ (by omega) (by omega) (by omega) (by omega)] at entry
  simpa [crop] using Option.some.inj entry

theorem Window.Standing.held {v : View Px} {below : Point → Px}
    (h : v.win.Standing v.dev below)
    (unmeasured : v.win.gp.pseudo = true → v.win.width = 0 ∧ v.win.height = 0) :
    Held (v.win.rect.piecewise below v.dev.pixel)
      (some (crop v.dev.pixel v.win.posX v.win.posY)) v where
  opened := h.opened
  unmeasured := unmeasured
  above _ :=
    { fits := h.fits
      bg := h.bg.trans (congrArg some (Window.saved_congr fun p hp =>
        (Set.piecewise_eq_of_mem _ _ _ hp).symm))
      outside := fun p hp => (Set.piecewise_eq_of_notMem _ _ _ hp).symm
      inside := by
        rintro I ⟨⟩ p -
        rw [place_crop] }
  below hid := absurd (hid.symm.trans h.shown) Bool.false_ne_true

namespace Desk

/-- One cursor move on both paths: they return, show the same framebuffer and
restore the same picture. -/
def MoveAgrees [LinearOrder ι] (s : Desk ι Px) (x y : Int) : Prop :=
  ∃ direct bracketed direct' bracketed',
    s.ucimfCursorPosition x y = .ok direct ∧
    (s.ucimfRefreshBegin >>= fun s => s.ucimfCursorPosition x y >>= ucimfRefreshEnd) =
      .ok bracketed ∧
    direct.setFocus false = .ok direct' ∧ bracketed.setFocus false = .ok bracketed' ∧
    direct.dev.pixel = bracketed.dev.pixel ∧ direct'.dev.pixel = bracketed'.dev.pixel

/-- The focus is on; the attached windows are rendered, visible and side by side, before
the move and after it. -/
structure Movable (term : Point → Px) (image : ι → Option (Point → Px)) (s : Desk ι Px)
    (x y : Int) : Prop where
  overlaid : Overlaid term image s
  keys : s.attached.Nodup
  focus : s.cwm.focus = true
  visible : ∀ u, (s.win u).visible = true ↔ u ∈ s.attached
  rendered : ∀ u ∈ s.attached, ∃ I, image u = some I
  apart : s.cwm.cwmmap.Pairwise fun e f => Disjoint (s.win e.1).rect (s.win f.1).rect
  apart' : s.cwm.cwmmap.Pairwise fun e f =>
    Disjoint (s.placement x y e).rect (s.placement x y f).rect
  fits' : ∀ e ∈ s.cwm.cwmmap, (s.placement x y e).Fits s.dev

theorem disjoint_of_pairwise {F : ι × Shift → Frame} {entries : List (ι × Shift)}
    (apart : entries.Pairwise fun e f => Disjoint (F e).rect (F f).rect) {e f : ι × Shift}
    (he : e ∈ entries) (hf : f ∈ entries) (differ : e.1 ≠ f.1) :
    Disjoint (F e).rect (F f).rect := by
  have symmetric : Std.Symm fun e f : ι × Shift => Disjoint (F e).rect (F f).rect :=
    ⟨fun _ _ apart => apart.symm⟩
  exact apart.forall he hf fun same => differ (congrArg Prod.fst same)

/-- No window lands on the old rectangle of a window moved after it, except where both
show the terminal's colour. -/
def NoCrossing (term : Point → Px) (image : ι → Option (Point → Px)) (s : Desk ι Px)
    (x y : Int) : Prop :=
  s.cwm.cwmmap.Pairwise fun e f =>
    Compatible term (image e.1) (s.placement x y e) (image f.1) (s.win f.1).frame

/-- Where both paths lead when all goes well. -/
structure Arrived (term : Point → Px) (image : ι → Option (Point → Px)) (s : Desk ι Px)
    (x y : Int) (t : Desk ι Px) : Prop where
  overlaid : Overlaid term image t
  focus : t.cwm.focus = true
  map : t.cwm.cwmmap = s.cwm.cwmmap
  visible : ∀ u, (t.win u).visible = true ↔ u ∈ s.attached
  frames : ∀ e ∈ s.cwm.cwmmap, (t.win e.1).frame = s.placement x y e

theorem Arrived.pixel_eq {term : Point → Px} {image : ι → Option (Point → Px)}
    {s t t' : Desk ι Px} {x y : Int} (h : Movable term image s x y)
    (arrived : Arrived term image s x y t) (arrived' : Arrived term image s x y t') :
    t.dev.pixel = t'.dev.pixel := by
  refine arrived.overlaid.pixel_eq arrived'.overlaid
    (fun u => (arrived.visible u).trans (arrived'.visible u).symm) (fun u shown => ?_)
    fun u shown => h.rendered u ((arrived.visible u).mp shown)
  obtain ⟨e, he, rfl⟩ := List.mem_map.mp ((arrived.visible u).mp shown)
  rw [arrived.frames e he, arrived'.frames e he]

variable [LinearOrder ι]

section Paths
variable {term : Point → Px} {image : ι → Option (Point → Px)} {s : Desk ι Px} {x y : Int}

theorem Arrived.unfocused {t : Desk ι Px} (h : Arrived term image s x y t) :
    ∃ t', t.setFocus false = .ok t' ∧ t'.dev.pixel = term := by
  obtain ⟨t', returned, overlaid, -, -, visible⟩ := h.overlaid.setFocus_false
  refine ⟨t', returned, overlaid.pixel_of_hidden fun u => ?_⟩
  refine Bool.eq_false_iff.mpr fun shown => ?_
  obtain ⟨before, spared⟩ := (visible u).mp shown
  refine spared ⟨h.focus, ?_⟩
  rw [h.map]
  exact (h.visible u).mp before

theorem Movable.direct (h : Movable term image s x y) (free : s.NoCrossing term image x y) :
    ∃ t, s.ucimfCursorPosition x y = .ok t ∧ Arrived term image s x y t := by
  have roomy : s.Roomy term image x y :=
    { steps := free.imp fun compatible _ _ => compatible
      final := h.apart'.imp fun apart _ _ => .of_disjoint apart
      others := fun _ _ _ u hu shown => absurd ((h.visible u).mp shown) hu }
  have moving : Ends (fun _ => False) (s.setPosition x y) _ := h.overlaid.setPosition h.keys x y
    (.inl fun e he _ => h.fits' e he) roomy
  obtain ⟨t, returned, overlaid, touched, visible, frames⟩ := moving.exists_ok fun _ _ => id
  refine ⟨t, returned, overlaid, ?_, ?_, fun u => ?_, frames⟩
  · rw [touched.cwm]
    exact h.focus
  · rw [touched.cwm]
    rfl
  · rw [visible u]
    exact h.visible u

theorem Movable.bracketed (h : Movable term image s x y) :
    ∃ t, (s.ucimfRefreshBegin >>= fun s => s.ucimfCursorPosition x y >>= ucimfRefreshEnd) =
      .ok t ∧ Arrived term image s x y t := by
  obtain ⟨s₁, begins, cleared, touched, paused, frames⟩ := h.overlaid.refreshBegin
    fun u shown => ⟨h.focus, (h.visible u).mp shown⟩
  have map₁ : s₁.cwm.cwmmap = s.cwm.cwmmap := by
    rw [touched.cwm]
    rfl
  have attached₁ : s₁.attached = s.attached := congrArg (List.map Prod.fst) map₁
  obtain ⟨s₂, moves, cleared', touched', frames'⟩ :=
    cleared.setPosition (attached₁ ▸ h.keys) x y
  have map₂ : s₂.cwm.cwmmap = s.cwm.cwmmap := by
    rw [touched'.cwm]
    exact map₁
  have attached₂ : s₂.attached = s.attached := congrArg (List.map Prod.fst) map₂
  have placed : ∀ e ∈ s.cwm.cwmmap, (s₂.win e.1).frame = s.placement x y e := by
    intro e he
    obtain ⟨-, -, width, height⟩ := Frame.mk.inj (frames e.1)
    have cwm : s₁.cwm = { s.cwm with focus := s.focusAfter false } := touched.cwm
    rw [frames' e (map₁ ▸ he)]
    simp only [placement, landing, withCursor, cwm, width, height, frames e.1]
    rfl
  have xres : s₂.dev.xres = s.dev.xres := touched'.xres.trans touched.xres
  have yres : s₂.dev.yres = s.dev.yres := touched'.yres.trans touched.yres
  have tiled : s₂.Tiled := by
    refine ⟨fun u hu w hw differ => ?_, fun u hu => ?_⟩
    · rw [attached₂] at hu hw
      obtain ⟨e, he, rfl⟩ := List.mem_map.mp hu
      obtain ⟨f, hf, rfl⟩ := List.mem_map.mp hw
      rw [Window.rect_eq, Window.rect_eq, placed e he, placed f hf]
      exact disjoint_of_pairwise h.apart' he hf differ
    · rw [attached₂] at hu
      obtain ⟨e, he, rfl⟩ := List.mem_map.mp hu
      rw [Window.fits_iff, placed e he]
      exact (h.fits' e he).on_screen xres yres
  have previous : s₂.prevFocus = true := touched'.prevFocus.trans (touched.prevFocus.trans h.focus)
  obtain ⟨t, ends, overlaid, cwm, frames'', visible⟩ := cleared'.refreshEnd tiled
    (paused.of_same (attached₂.trans attached₁.symm) (by rw [touched'.cwm]; rfl)
      touched'.prevFocus)
  refine ⟨t, ?_, overlaid, ?_, ?_, fun u => ?_, fun e he => ?_⟩
  · rw [begins, ok_bind, ucimfCursorPosition, moves]
    exact ends
  · rw [cwm, previous]
  · rw [cwm]
    exact map₂
  · rw [visible u, previous, attached₂]
    simp
  · rw [frames'' e.1, placed e he]

end Paths

/-! ### The loop seen at one point -/

section Standing
variable {s : Desk ι Px}

/-- An attached window that stands over `below` and has room where it goes. -/
structure Poised (s : Desk ι Px) (below : Point → Px) (e : ι × Shift) : Prop where
  standing : (s.win e.1).Standing s.dev below
  unmeasured : (s.win e.1).gp.pseudo = true → (s.win e.1).width = 0 ∧ (s.win e.1).height = 0
  fits : (s.landing e).Fits s.dev

omit [LinearOrder ι] in
theorem Touches.landing {t : Desk ι Px} {keys : List ι} (touched : s.Touches keys t)
    {e : ι × Shift} (fresh : e.1 ∉ keys) : t.landing e = s.landing e := by
  simp only [Desk.landing, touched.others e.1 fresh, touched.cwm]

omit [LinearOrder ι] in
theorem Poised.of_touches {t : Desk ι Px} {keys : List ι} {below : Point → Px} {e : ι × Shift}
    (h : s.Poised below e) (touched : s.Touches keys t) (fresh : e.1 ∉ keys) :
    t.Poised below e where
  standing := by
    rw [touched.others e.1 fresh]
    exact h.standing.on_screen touched.xres touched.yres
  unmeasured := by
    rw [touched.others e.1 fresh]
    exact h.unmeasured
  fits := by
    rw [touched.landing fresh]
    exact h.fits.on_screen touched.xres touched.yres

/-- `Shift::update` on a standing window: what was below comes back, and the window saves
what it lands on. -/
theorem Poised.update {e : ι × Shift} {below : Point → Px} (h : s.Poised below e) :
    ∃ t, s.on e.1 (e.2.update s.cwm) = .ok t ∧ s.Touches [e.1] t ∧
      (t.win e.1).frame = s.landing e ∧
      (t.win e.1).Standing t.dev ((s.win e.1).rect.piecewise below s.dev.pixel) ∧
      ∀ p ∉ (s.landing e).rect,
        t.dev.pixel p = (s.win e.1).rect.piecewise below s.dev.pixel p := by
  have held := Window.Standing.held (v := s.view e.1) h.standing h.unmeasured
  obtain ⟨v, returned, held', shown, alike⟩ := held.xy_of_fits _ _ fun _ => h.fits
  have visible : v.win.visible = true := shown.trans h.standing.shown
  have above := held'.above visible
  have frame : v.win.frame = s.landing e := alike.frame
  refine ⟨s.put e.1 v, on_ok returned, touches_put alike.wm alike.xres alike.yres, ?_, ?_, ?_⟩
  · rw [put_win_self, frame]
  · rw [put_win_self]
    exact ⟨held'.opened, visible, above.bg, above.fits⟩
  · intro p hp
    exact above.outside p (by rwa [Window.rect_eq, frame])

theorem updateAll_append (s : Desk ι Px) (as bs : List (ι × Shift)) :
    s.updateAll (as ++ bs) = s.updateAll as >>= fun t => t.updateAll bs := by
  induction as generalizing s with
  | nil => rfl
  | cons e as ih =>
    simp only [Desk.updateAll_def, List.cons_append, List.foldlM_cons] at ih ⊢
    cases first : s.on e.1 (e.2.update s.cwm) with
    | error fault => rfl
    | ok t => exact ih t

theorem updateAll_cons {s t : Desk ι Px} {e : ι × Shift} (entries : List (ι × Shift))
    (first : s.on e.1 (e.2.update s.cwm) = .ok t) :
    s.updateAll (e :: entries) = t.updateAll entries := by
  rw [Desk.updateAll_def, List.foldlM_cons, first]
  rfl

/-- The loop over poised windows leaves alone every point that none of them covers. -/
theorem updateAll_poised {entries : List (ι × Shift)} (below : ι → Point → Px)
    (keys : (entries.map Prod.fst).Nodup) (poised : ∀ e ∈ entries, s.Poised (below e.1) e) :
    ∃ (t : Desk ι Px) (below' : ι → Point → Px), s.updateAll entries = .ok t ∧
      s.Touches (entries.map Prod.fst) t ∧
      (∀ e ∈ entries, (t.win e.1).frame = s.landing e) ∧
      (∀ e ∈ entries, (t.win e.1).Standing t.dev (below' e.1)) ∧
      ∀ p, (∀ e ∈ entries, p ∉ (s.win e.1).rect ∧ p ∉ (s.landing e).rect) →
        t.dev.pixel p = s.dev.pixel p := by
  induction entries generalizing s with
  | nil => exact ⟨s, below, rfl, .refl s _, by simp, by simp, fun _ _ => rfl⟩
  | cons e entries ih =>
    obtain ⟨fresh, keys⟩ := List.nodup_cons.mp keys
    have apart : ∀ f ∈ entries, f.1 ∉ [e.1] := fun f hf same =>
      fresh (List.mem_singleton.mp same ▸ List.mem_map_of_mem hf)
    obtain ⟨s₁, first, touched, frame, standing, moved⟩ := (poised e (by simp)).update
    obtain ⟨t, below', rest, touched', frames, standing', still⟩ := ih keys fun f hf =>
      (poised f (List.mem_cons_of_mem _ hf)).of_touches touched (apart f hf)
    have self : t.win e.1 = s₁.win e.1 := touched'.others e.1 fresh
    refine ⟨t, Function.update below' e.1 ((s.win e.1).rect.piecewise (below e.1) s.dev.pixel),
      ?_, touched.trans touched', ?_, ?_, fun p free => ?_⟩
    · rw [updateAll_cons entries first, rest]
    · intro f hf
      rcases List.mem_cons.mp hf with rfl | hf
      · rw [self, frame]
      · rw [frames f hf, touched.landing (apart f hf)]
    · intro f hf
      rcases List.mem_cons.mp hf with rfl | hf
      · rw [self, Function.update_self]
        exact standing.on_screen touched'.xres touched'.yres
      · rw [Function.update_of_ne (List.mem_singleton.not.mp (apart f hf))]
        exact standing' f hf
    · obtain ⟨old, new⟩ := free e (by simp)
      rw [still p fun f hf => ?_, moved p new, Set.piecewise_eq_of_notMem _ _ _ old]
      rw [touched.others f.1 (apart f hf), touched.landing (apart f hf)]
      exact free f (List.mem_cons_of_mem _ hf)

omit [LinearOrder ι] in
theorem ne_of_nodup {as bs : List (ι × Shift)} {e : ι × Shift}
    (keys : ((as ++ e :: bs).map Prod.fst).Nodup) : ∀ g ∈ as ++ bs, g.1 ≠ e.1 := by
  rw [List.map_append, List.map_cons, List.nodup_middle, ← List.map_append] at keys
  intro g hg same
  exact (List.nodup_cons.mp keys).1 (same ▸ List.mem_map_of_mem hg)

omit [LinearOrder ι] in
theorem notMem_map_of_ne {entries : List (ι × Shift)} {w : ι} (differ : ∀ g ∈ entries, g.1 ≠ w) :
    w ∉ entries.map Prod.fst := by
  intro mem
  obtain ⟨g, hg, same⟩ := List.mem_map.mp mem
  exact differ g hg same

omit [LinearOrder ι] in
theorem nodup_after {as bs : List (ι × Shift)} {e : ι × Shift}
    (keys : ((as ++ e :: bs).map Prod.fst).Nodup) : (bs.map Prod.fst).Nodup := by
  rw [List.map_append, List.map_cons] at keys
  exact (List.nodup_cons.mp keys.of_append_right).2

omit [LinearOrder ι] in
theorem notMem_before {as bs : List (ι × Shift)} {e : ι × Shift}
    (keys : ((as ++ e :: bs).map Prod.fst).Nodup) {g : ι × Shift} (hg : g ∈ bs) :
    g.1 ∉ (as ++ [e]).map Prod.fst := by
  rw [List.append_cons, List.map_append] at keys
  exact fun mem => (List.nodup_append.mp keys).2.2 g.1 mem g.1 (List.mem_map_of_mem hg) rfl

/-- The loop up to a window and past it. At a point that no earlier window covers, the window
gives back what was below it and saves what is there then; the later windows are as before. -/
theorem updateAll_pass {as bs : List (ι × Shift)} {e : ι × Shift} (below : ι → Point → Px)
    (keys : ((as ++ e :: bs).map Prod.fst).Nodup)
    (poised : ∀ g ∈ as ++ e :: bs, s.Poised (below g.1) g) :
    ∃ (t : Desk ι Px) (saved : Point → Px), s.updateAll (as ++ e :: bs) = t.updateAll bs ∧
      (t.win e.1).Standing t.dev saved ∧
      (∀ g ∈ bs, t.Poised (below g.1) g ∧ t.win g.1 = s.win g.1 ∧ t.landing g = s.landing g) ∧
      ∀ p, (∀ g ∈ as, p ∉ (s.win g.1).rect ∧ p ∉ (s.landing g).rect) →
        saved p = (s.win e.1).rect.piecewise (below e.1) s.dev.pixel p ∧
          (p ∉ (s.landing e).rect →
            t.dev.pixel p = (s.win e.1).rect.piecewise (below e.1) s.dev.pixel p) := by
  have fresh : e.1 ∉ as.map Prod.fst := notMem_map_of_ne fun g hg =>
    ne_of_nodup keys g (List.mem_append_left _ hg)
  have front := ((List.sublist_append_left as (e :: bs)).map Prod.fst).nodup keys
  obtain ⟨s₁, -, loop, touched, -, -, still⟩ := updateAll_poised below front
    fun g hg => poised g (List.mem_append_left _ hg)
  have here := (poised e (by simp)).of_touches touched fresh
  obtain ⟨t, move, touched', -, standing, moved⟩ := here.update
  have both : s.Touches ((as ++ [e]).map Prod.fst) t := by simpa using touched.trans touched'
  refine ⟨t, _, ?_, standing, fun g hg => ?_, fun p free => ?_⟩
  · rw [updateAll_append, loop, ok_bind, updateAll_cons _ move]
  · have later := notMem_before keys hg
    exact ⟨(poised g (by simp [hg])).of_touches both later, both.others g.1 later,
      both.landing later⟩
  · have same : (s₁.win e.1).rect.piecewise (below e.1) s₁.dev.pixel p =
        (s.win e.1).rect.piecewise (below e.1) s.dev.pixel p := by
      rw [touched.others e.1 fresh]
      by_cases inside : p ∈ (s.win e.1).rect
      · rw [Set.piecewise_eq_of_mem _ _ _ inside, Set.piecewise_eq_of_mem _ _ _ inside]
      · rw [Set.piecewise_eq_of_notMem _ _ _ inside, Set.piecewise_eq_of_notMem _ _ _ inside,
          still p free]
    rw [← same]
    exact ⟨rfl, fun off => moved p (by rwa [touched.landing fresh])⟩

/-- At a point that one window leaves and no other meets, what was below that window shows. -/
theorem updateAll_uncovered {as bs : List (ι × Shift)} {e : ι × Shift} (below : ι → Point → Px)
    (keys : ((as ++ e :: bs).map Prod.fst).Nodup)
    (poised : ∀ g ∈ as ++ e :: bs, s.Poised (below g.1) g) {p : Point}
    (old : p ∈ (s.win e.1).rect) (off : p ∉ (s.landing e).rect)
    (free : ∀ g ∈ as ++ bs, p ∉ (s.win g.1).rect ∧ p ∉ (s.landing g).rect) :
    ∃ t, s.updateAll (as ++ e :: bs) = .ok t ∧ t.dev.pixel p = below e.1 p := by
  obtain ⟨s₁, _, loop, -, later, seen⟩ := updateAll_pass below keys poised
  obtain ⟨t, -, rest, -, -, -, still⟩ := updateAll_poised below (nodup_after keys)
    fun g hg => (later g hg).1
  refine ⟨t, loop.trans rest, ?_⟩
  rw [still p fun g hg => ?_, (seen p fun g hg => free g (List.mem_append_left _ hg)).2 off,
    Set.piecewise_eq_of_mem _ _ _ old]
  obtain ⟨-, win, landing⟩ := later g hg
  rw [win, landing]
  exact free g (List.mem_append_right _ hg)

/-- A point where the first window of a split lands on the old rectangle of the second one:
the first is wiped out and has saved the second one's old image. -/
theorem updateAll_crossing {as bs cs : List (ι × Shift)} {e f : ι × Shift}
    (below : ι → Point → Px) (keys : ((as ++ e :: (bs ++ f :: cs)).map Prod.fst).Nodup)
    (poised : ∀ g ∈ as ++ e :: (bs ++ f :: cs), s.Poised (below g.1) g) {p : Point}
    (old : p ∈ (s.win f.1).rect)
    (aside : ∀ g ∈ as ++ e :: (bs ++ f :: cs), g.1 ≠ f.1 → p ∉ (s.win g.1).rect)
    (aside' : ∀ g ∈ as ++ e :: (bs ++ f :: cs), g.1 ≠ e.1 → p ∉ (s.landing g).rect) :
    ∃ t saved, s.updateAll (as ++ e :: (bs ++ f :: cs)) = .ok t ∧
      t.dev.pixel p = below f.1 p ∧ (t.win e.1).Standing t.dev saved ∧
      saved p = s.dev.pixel p := by
  have not_e := ne_of_nodup keys
  have not_f : ∀ g ∈ (as ++ e :: bs) ++ cs, g.1 ≠ f.1 := ne_of_nodup (by simpa using keys)
  have differ : e.1 ≠ f.1 := not_f e (by simp)
  have free : ∀ g, g ∈ as ∨ g ∈ bs ∨ g ∈ cs → p ∉ (s.win g.1).rect ∧ p ∉ (s.landing g).rect := by
    intro g hg
    have mem : g ∈ as ++ e :: (bs ++ f :: cs) := by
      rcases hg with hg | hg | hg <;> simp [hg]
    refine ⟨aside g mem (not_f g ?_), aside' g mem (not_e g ?_)⟩ <;>
      rcases hg with hg | hg | hg <;> simp [hg]
  obtain ⟨s₁, saved, loop, standing, later, seen⟩ := updateAll_pass below keys poised
  obtain ⟨-, win, landing⟩ := later f (by simp)
  have off : p ∉ (s₁.landing f).rect := landing ▸ aside' f (by simp) differ.symm
  obtain ⟨t, rest, shown⟩ := updateAll_uncovered below (nodup_after keys)
    (fun g hg => (later g hg).1) (win ▸ old) off fun g hg => by
      have mem := List.mem_append.mp hg
      obtain ⟨-, win, landing⟩ := later g (by rcases mem with hg | hg <;> simp [hg])
      rw [win, landing]
      exact free g (.inr mem)
  refine ⟨t, saved, loop.trans rest, shown, ?_, ?_⟩
  · obtain ⟨t', -, rest', touched, -, -, -⟩ := updateAll_poised below (nodup_after keys)
      fun g hg => (later g hg).1
    obtain rfl := Except.ok.inj (rest.symm.trans rest')
    have still := touched.others e.1 (notMem_map_of_ne fun g hg => not_e g (by simp [hg]))
    rw [still]
    exact standing.on_screen touched.xres touched.yres
  · rw [(seen p fun g hg => free g (.inl hg)).1,
      Set.piecewise_eq_of_notMem _ _ _ (aside e (by simp) differ)]

end Standing

section Agreement
variable {term : Point → Px} {image : ι → Option (Point → Px)} {s : Desk ι Px} {x y : Int}

/-- At a crossing the direct move shows the terminal's colour, and the focus taken away
leaves the old image of the second window. -/
theorem Movable.crossed (h : Movable term image s x y)
    (moved : x ≠ s.cwm.cursorX ∨ y ≠ s.cwm.cursorY) {as bs cs : List (ι × Shift)}
    {e f : ι × Shift} (split : s.cwm.cwmmap = as ++ e :: (bs ++ f :: cs)) {p : Point}
    (new : p ∈ (s.placement x y e).rect) (old : p ∈ (s.win f.1).rect) :
    ∃ t t', s.ucimfCursorPosition x y = .ok t ∧ t.setFocus false = .ok t' ∧
      t.dev.pixel p = term p ∧ t'.dev.pixel p = s.dev.pixel p := by
  have place : ∀ g, s.placement x y g = (s.withCursor x y).landing g := fun g => if_pos moved
  have inMap : ∀ g ∈ as ++ e :: (bs ++ f :: cs), g ∈ s.cwm.cwmmap := fun g hg => split ▸ hg
  have poised : ∀ g ∈ as ++ e :: (bs ++ f :: cs), (s.withCursor x y).Poised term g := by
    intro g hg
    have shown := (h.visible g.1).mpr (List.mem_map_of_mem (inMap g hg))
    exact ⟨h.overlaid.standing g.1 shown, h.overlaid.unmeasured g.1,
      place g ▸ h.fits' g (inMap g hg)⟩
  have keys : ((as ++ e :: (bs ++ f :: cs)).map Prod.fst).Nodup := split ▸ h.keys
  have aside : ∀ g ∈ as ++ e :: (bs ++ f :: cs), g.1 ≠ f.1 → p ∉ (s.win g.1).rect := by
    intro g hg other
    have apart := disjoint_of_pairwise (F := fun e => (s.win e.1).frame) h.apart
      (inMap f (by simp)) (inMap g hg) other.symm
    exact Set.disjoint_left.mp apart old
  have aside' : ∀ g ∈ as ++ e :: (bs ++ f :: cs), g.1 ≠ e.1 →
      p ∉ ((s.withCursor x y).landing g).rect := by
    intro g hg other
    have apart := disjoint_of_pairwise h.apart' (inMap e (by simp)) (inMap g hg) other.symm
    rw [← place g]
    exact Set.disjoint_left.mp apart new
  obtain ⟨t, saved, returned, wiped, standing, stale⟩ :=
    updateAll_crossing (fun _ => term) keys poised old aside aside'
  obtain ⟨t₀, below', returned₀, touched, frames, standings, -⟩ :=
    updateAll_poised (fun _ => term) keys poised
  obtain rfl := Except.ok.inj (returned.symm.trans returned₀)
  have direct : s.ucimfCursorPosition x y = .ok t := by
    rw [ucimfCursorPosition, Desk.setPosition_def, if_pos moved, split]
    exact returned
  have map : t.cwm.cwmmap = s.cwm.cwmmap := by
    rw [touched.cwm]
    rfl
  have focus : t.cwm.focus = true := by
    rw [touched.cwm]
    exact h.focus
  have home : p ∈ (t.win e.1).rect := by
    rw [Window.rect_eq, frames e (by simp), ← place e]
    exact new
  have apart : (as ++ e :: (bs ++ f :: cs)).Pairwise fun g k =>
      Disjoint (t.win g.1).rect (t.win k.1).rect := by
    have here : ∀ g ∈ as ++ e :: (bs ++ f :: cs), (t.win g.1).rect = (s.placement x y g).rect :=
      fun g hg => by rw [Window.rect_eq, frames g hg, place g]
    refine (split ▸ h.apart').imp_of_mem fun {g k} hg hk apart => ?_
    rw [here g hg, here k hk]
    exact apart
  obtain ⟨t', lowering, uncovered⟩ := hideAll_uncovers (s := t.withFocus false) below' keys
    standings apart (e := e) (by simp) home
  have unfocused : t.setFocus false = .ok t' := by
    rw [Desk.setFocus_def, focus, map, split, if_pos (by simp), if_neg Bool.false_ne_true]
    exact lowering
  refine ⟨t, t', direct, unfocused, wiped, uncovered.trans ?_⟩
  exact ((standings e (by simp)).unique standing home).trans stale

/-- A direct cursor move agrees with the bracketed one, before and after the focus is taken
away, exactly when no window crosses the old place of a later one. -/
theorem move_agrees_iff (h : Movable term image s x y) :
    s.MoveAgrees x y ↔ s.NoCrossing term image x y := by
  obtain ⟨b, bracketed, arrived⟩ := h.bracketed
  obtain ⟨b', unfocused, bare⟩ := arrived.unfocused
  constructor
  · rintro ⟨d, b₀, d', b₀', direct, bracketed₀, unfocused', unfocused₀, same, same'⟩
    obtain rfl := Except.ok.inj (bracketed.symm.trans bracketed₀)
    obtain rfl := Except.ok.inj (unfocused.symm.trans unfocused₀)
    by_cases moved : x ≠ s.cwm.cursorX ∨ y ≠ s.cwm.cursorY
    · refine pairwise_of_split fun as e bs f cs split p new old => ?_
      obtain ⟨t, t', direct₀, unfocused₁, wiped, stale⟩ := h.crossed moved split new old
      obtain rfl := Except.ok.inj (direct.symm.trans direct₀)
      obtain rfl := Except.ok.inj (unfocused'.symm.trans unfocused₁)
      have he : e ∈ s.cwm.cwmmap := by rw [split]; simp
      have hf : f ∈ s.cwm.cwmmap := by rw [split]; simp
      obtain ⟨I, hI⟩ := h.rendered e.1 (List.mem_map_of_mem he)
      obtain ⟨J, hJ⟩ := h.rendered f.1 (List.mem_map_of_mem hf)
      have posX : (b.win e.1).posX = (s.placement x y e).posX :=
        congrArg Frame.posX (arrived.frames e he)
      have posY : (b.win e.1).posY = (s.placement x y e).posY :=
        congrArg Frame.posY (arrived.frames e he)
      have home : p ∈ (b.win e.1).rect := by
        rw [Window.rect_eq, arrived.frames e he]
        exact new
      have shown := arrived.overlaid.shows e.1 ((arrived.visible e.1).mpr (List.mem_map_of_mem he))
        I hI p home
      have shown' := h.overlaid.shows f.1 ((h.visible f.1).mpr (List.mem_map_of_mem hf)) J hJ p old
      refine ⟨⟨I, hI, ?_⟩, ⟨J, hJ, ?_⟩⟩
      · rw [← wiped, same, shown, posX, posY]
      · calc place J (s.win f.1).posX (s.win f.1).posY p = s.dev.pixel p := shown'.symm
          _ = d'.dev.pixel p := stale.symm
          _ = term p := by rw [same', bare]
    · have still : ∀ g, s.placement x y g = (s.win g.1).frame := fun g => if_neg moved
      refine h.apart.imp fun {e f} apart => ?_
      rw [still e]
      exact .of_disjoint apart
  · intro free
    obtain ⟨d, direct, arrived'⟩ := h.direct free
    obtain ⟨d', unfocused', bare'⟩ := arrived'.unfocused
    exact ⟨d, b, d', b', direct, bracketed, unfocused', unfocused, arrived'.pixel_eq h arrived,
      bare'.trans bare.symm⟩

end Agreement

/-! ### Two windows, one below the other -/

theorem furnished_movable {x y : Int} {F G : Frame}
    (low : Scene.furnished.desk.placement x y (false, .preeditShift 0 1) = F)
    (high : Scene.furnished.desk.placement x y (true, .statusShift 0 2) = G)
    (apart : Disjoint F.rect G.rect) (fits : F.Fits Scene.furnished.desk.dev)
    (fits' : G.Fits Scene.furnished.desk.dev) :
    Movable Scene.furnished.term Scene.furnished.image Scene.furnished.desk x y := by
  obtain ⟨ops, run⟩ := Scene.furnished_run
  have map : Scene.furnished.desk.cwm.cwmmap =
      [(false, .preeditShift 0 1), (true, .statusShift 0 2)] := by decide
  have drawn : ∀ u, (Scene.furnished.image u).isSome = true := by decide
  have here : (Scene.furnished.desk.win false).frame = ⟨0, 1, 1, 0⟩ := by decide
  have here' : (Scene.furnished.desk.win true).frame = ⟨0, 2, 1, 0⟩ := by decide
  refine ⟨(Scene.sound_run run).overlaid, by decide, by decide, by decide,
    fun u _ => Option.isSome_iff_exists.mp (drawn u), ?_, ?_, ?_⟩
  · rw [map, List.pairwise_pair, Window.rect_eq, Window.rect_eq, here, here']
    exact Scene.disjoint_rows (by decide)
  · rw [map, List.pairwise_pair, low, high]
    exact apart
  · rw [map]
    simp only [List.forall_mem_cons, low, high]
    exact ⟨fits, fits', by simp⟩

/-- One line down, the first window lands on the second and is wiped out. -/
theorem move_disagrees : ∃ (s : Desk Bool Nat) (term : Point → Nat)
    (image : Bool → Option (Point → Nat)),
    Movable term image s 0 1 ∧ ¬ s.MoveAgrees 0 1 := by
  let s := Scene.furnished.desk
  refine ⟨s, _, _, furnished_movable (F := ⟨0, 2, 1, 0⟩) (G := ⟨0, 3, 1, 0⟩) (by decide) (by decide)
    (Scene.disjoint_rows (by decide)) (by decide) (by decide), ?_⟩
  rintro ⟨d, b, -, -, direct, bracketed, -, -, same, -⟩
  have wiped : (s.ucimfCursorPosition 0 1).toOption.map (fun d => d.dev.pixel (0, 2)) = some 0 := by
    decide
  have shown : (s.ucimfRefreshBegin >>= fun s =>
      s.ucimfCursorPosition 0 1 >>= ucimfRefreshEnd).toOption.map
      (fun d => d.dev.pixel (0, 2)) = some 7 := by decide
  rw [direct] at wiped
  rw [bracketed] at shown
  have zero : d.dev.pixel (0, 2) = 0 := Option.some.inj wiped
  have seven : b.dev.pixel (0, 2) = 7 := Option.some.inj shown
  rw [same, seven] at zero
  cases zero

/-- Five columns to the right no window lands on another. -/
theorem move_agrees_aside : (Scene.furnished.desk : Desk Bool Nat).MoveAgrees 5 0 := by
  have movable := furnished_movable (x := 5) (y := 0) (F := ⟨5, 1, 1, 0⟩) (G := ⟨5, 2, 1, 0⟩)
    (by decide) (by decide) (Scene.disjoint_rows (by decide)) (by decide) (by decide)
  refine (move_agrees_iff movable).mpr ?_
  have map : Scene.furnished.desk.cwm.cwmmap =
      [(false, .preeditShift 0 1), (true, .statusShift 0 2)] := by decide
  have goal : Scene.furnished.desk.placement 5 0 (false, .preeditShift 0 1) = ⟨5, 1, 1, 0⟩ := by
    decide
  have here : (Scene.furnished.desk.win true).frame = ⟨0, 2, 1, 0⟩ := by decide
  rw [NoCrossing, map, List.pairwise_pair, goal, here]
  exact .of_disjoint (Scene.disjoint_rows (by decide))

end Desk

end Ucimf.Display
