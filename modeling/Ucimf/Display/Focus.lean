import Ucimf.Display.Desk
import Ucimf.Support.Layers
import Ucimf.Support.Run

/-!
# Focus on and off again

`set_focus( true )` paints the windows as layers in the order of the map, and each saves
what it covers. `set_focus( false )` puts these undercoats back in the same order, not in
the reverse one, so the picture comes back exactly under the condition of `restores_iff`.
-/

namespace Ucimf.Display

open Compositing Transition

variable {ι Px : Type}

/-- A hidden window with the image `I` in its foreground buffer. -/
structure Window.Stowed (W : Window Px) (d : GraphDev Px) (I : Point → Px) : Prop where
  opened : W.gp.gdev = true
  hid : W.visible = false
  bg : W.gp.bufBg = none
  fg : W.gp.bufFg = some (tile I W.width W.height)
  fits : W.Fits d

instance [DecidableEq Px] (W : Window Px) (d : GraphDev Px) (I : Point → Px) :
    Decidable (W.Stowed d I) :=
  decidable_of_iff (W.gp.gdev = true ∧ W.visible = false ∧ W.gp.bufBg = none ∧
      W.gp.bufFg = some (tile I W.width W.height) ∧ W.Fits d)
    ⟨fun ⟨opened, hid, bg, fg, fits⟩ => ⟨opened, hid, bg, fg, fits⟩,
      fun h => ⟨h.opened, h.hid, h.bg, h.fg, h.fits⟩⟩

/-- A visible window that saved its rectangle of the picture `below`. -/
structure Window.Standing (W : Window Px) (d : GraphDev Px) (below : Point → Px) : Prop where
  opened : W.gp.gdev = true
  shown : W.visible = true
  bg : W.gp.bufBg = some (W.saved below)
  fits : W.Fits d

namespace Desk

/-- What a window shows once it is raised. -/
def layer (s : Desk ι Px) (image : ι → Point → Px) (entry : ι × Shift) : Layer Point Px where
  region := (s.win entry.1).rect
  image := place (image entry.1) (s.win entry.1).posX (s.win entry.1).posY

/-- What a raised window puts back. -/
def backing (s : Desk ι Px) (below : ι → Point → Px) (entry : ι × Shift) :
    Layer Point Px where
  region := (s.win entry.1).rect
  image := below entry.1

/-- Any number of attached, rendered and hidden windows on screen. -/
structure Stowed (s : Desk ι Px) (image : ι → Point → Px) : Prop where
  keys : (s.cwm.cwmmap.map Prod.fst).Nodup
  each : ∀ e ∈ s.cwm.cwmmap, (s.win e.1).Stowed s.dev (image e.1)

/-- At each point under two windows or more, the last but one in the order of the map
shows the colour the framebuffer has there. -/
def LastButOneBlends (s : Desk ι Px) (image : ι → Point → Px) : Prop :=
  ∀ as u bs v cs, s.cwm.cwmmap = as ++ u :: (bs ++ v :: cs) →
    ∀ p ∈ (s.win u.1).rect, p ∈ (s.win v.1).rect →
      (∀ b ∈ bs, p ∉ (s.win b.1).rect) → (∀ c ∈ cs, p ∉ (s.win c.1).rect) →
        place (image u.1) (s.win u.1).posX (s.win u.1).posY p = s.dev.pixel p

theorem lastButOneBlends_of_apart {s : Desk ι Px} {image : ι → Point → Px}
    (apart : s.cwm.cwmmap.Pairwise fun u v => Disjoint (s.win u.1).rect (s.win v.1).rect) :
    s.LastButOneBlends image := by
  intro as u bs v cs split p hu hv _ _
  rw [split] at apart
  have later := (List.pairwise_cons.mp (List.pairwise_append.mp apart).2.1).1
  exact absurd hv (Set.disjoint_left.mp (later v (by simp)) hu)

theorem lastButOneBlends_iff (s : Desk ι Px) (image : ι → Point → Px) :
    s.LastButOneBlends image ↔
      composite (composite s.dev.pixel (s.cwm.cwmmap.map (s.layer image)))
        (undercoats s.dev.pixel (s.cwm.cwmmap.map (s.layer image))) = s.dev.pixel := by
  rw [restores_iff]
  constructor
  · intro blends as l bs m cs split p hl hm hbs hcs
    obtain ⟨as, _, whole, rfl, fromU⟩ := List.map_eq_append_iff.mp split
    obtain ⟨u, _, rfl, rfl, afterU⟩ := List.map_eq_cons_iff.mp fromU
    obtain ⟨bs, _, rfl, rfl, fromV⟩ := List.map_eq_append_iff.mp afterU
    obtain ⟨v, cs, rfl, rfl, rfl⟩ := List.map_eq_cons_iff.mp fromV
    exact blends as u bs v cs whole p hl hm (fun b hb => hbs _ (List.mem_map_of_mem hb))
      fun c hc => hcs _ (List.mem_map_of_mem hc)
  · intro blends as u bs v cs split p hu hv hbs hcs
    refine blends (as.map (s.layer image)) (s.layer image u) (bs.map (s.layer image))
      (s.layer image v) (cs.map (s.layer image)) (by rw [split]; simp) p hu hv ?_ ?_
    · intro l hl
      obtain ⟨b, hb, rfl⟩ := List.mem_map.mp hl
      exact hbs b hb
    · intro l hl
      obtain ⟨c, hc, rfl⟩ := List.mem_map.mp hl
      exact hcs c hc

variable [LinearOrder ι]

theorem stamp_pixel (W : Window Px) (I : Point → Px) (d : GraphDev Px) :
    (W.stamp I d).pixel = (Layer.mk W.rect (place I W.posX W.posY)).over d.pixel :=
  Layer.piecewise_eq_over _ _ _

theorem showAll_eq (image : ι → Point → Px) {entries : List (ι × Shift)} {s : Desk ι Px}
    (keys : (entries.map Prod.fst).Nodup)
    (stowed : ∀ e ∈ entries, (s.win e.1).Stowed s.dev (image e.1)) :
    ∃ s' below, s.showAll entries = .ok s' ∧ s'.cwm = s.cwm ∧
      s'.dev = { s.dev with pixel := composite s.dev.pixel (entries.map (s.layer image)) } ∧
      (∀ u ∉ entries.map Prod.fst, s'.win u = s.win u) ∧
      (∀ e ∈ entries, (s'.win e.1).Standing s'.dev (below e.1)) ∧
      entries.map (s'.backing below) =
        undercoats s.dev.pixel (entries.map (s.layer image)) := by
  induction entries generalizing s with
  | nil => exact ⟨s, fun _ => s.dev.pixel, rfl, rfl, rfl, fun _ _ => rfl, by simp, rfl⟩
  | cons e entries ih =>
    obtain ⟨fresh, keys⟩ := List.nodup_cons.mp keys
    have front := stowed e (by simp)
    have raising := show_eq (v := s.view e.1) front.hid front.opened front.fits _ front.fg
    let s₁ := s.put e.1 ⟨(s.win e.1).stamp (image e.1) s.dev, (s.win e.1).raised s.dev.pixel⟩
    have first : s.on e.1 Window.show = .ok s₁ := on_ok raising
    have pixel : s₁.dev.pixel = (s.layer image e).over s.dev.pixel := stamp_pixel _ _ _
    have kept : ∀ u ≠ e.1, s₁.win u = s.win u := fun u other => put_win_of_ne s e.1 _ other
    have apart : ∀ m ∈ entries, m.1 ≠ e.1 := fun m hm same =>
      fresh (same ▸ List.mem_map_of_mem hm)
    have layers : entries.map (s₁.layer image) = entries.map (s.layer image) :=
      List.map_congr_left fun m hm => by simp only [layer, kept m.1 (apart m hm)]
    have rest : ∀ m ∈ entries, (s₁.win m.1).Stowed s₁.dev (image m.1) := fun m hm => by
      rw [kept m.1 (apart m hm)]
      have old := stowed m (List.mem_cons_of_mem _ hm)
      exact ⟨old.opened, old.hid, old.bg, old.fg, old.fits⟩
    obtain ⟨s', below, loop, cwm, dev, others, standing, coats⟩ := ih keys rest
    rw [pixel, layers] at dev coats
    have self : s'.win e.1 = (s.win e.1).raised s.dev.pixel := by
      rw [others e.1 fresh]
      exact put_win_self s e.1 _
    have below_of_ne : ∀ m ∈ entries, Function.update below e.1 s.dev.pixel m.1 = below m.1 :=
      fun m hm => Function.update_of_ne (apart m hm) _ _
    refine ⟨s', Function.update below e.1 s.dev.pixel, ?_, cwm, dev, ?_, ?_, ?_⟩
    · rw [showAll_def, List.foldlM_cons, first]
      exact loop
    · intro u hu
      obtain ⟨other, hu⟩ := not_or.mp (List.mem_cons.not.mp hu)
      rw [others u hu, kept u other]
    · rintro m hm
      rcases List.mem_cons.mp hm with rfl | hm
      · rw [self, Function.update_self, dev]
        exact ⟨front.opened, rfl, rfl, front.fits⟩
      · rw [below_of_ne m hm]
        exact standing m hm
    · rw [List.map_cons, List.map_cons, undercoats, ← coats]
      refine congrArg₂ List.cons ?_ (List.map_congr_left fun m hm => ?_)
      · rw [backing, self, Function.update_self]
        rfl
      · rw [backing, below_of_ne m hm]
        rfl

theorem hideAll_eq (below : ι → Point → Px) {entries : List (ι × Shift)} {s : Desk ι Px}
    (keys : (entries.map Prod.fst).Nodup)
    (standing : ∀ e ∈ entries, (s.win e.1).Standing s.dev (below e.1)) :
    ∃ s', s.hideAll entries = .ok s' ∧
      s'.dev.pixel = composite s.dev.pixel (entries.map (s.backing below)) := by
  induction entries generalizing s with
  | nil => exact ⟨s, rfl, rfl⟩
  | cons e entries ih =>
    obtain ⟨fresh, keys⟩ := List.nodup_cons.mp keys
    have front := standing e (by simp)
    have lowering := hide_eq (v := s.view e.1) front.shown front.opened front.fits _ front.bg
    let s₁ := s.put e.1 ⟨(s.win e.1).stamp (crop (below e.1) (s.win e.1).posX (s.win e.1).posY)
      s.dev, (s.win e.1).lowered s.dev.pixel⟩
    have first : s.on e.1 Window.hide = .ok s₁ := on_ok lowering
    have pixel : s₁.dev.pixel = (s.backing below e).over s.dev.pixel := by
      have stamped := stamp_pixel (s.win e.1)
        (crop (below e.1) (s.win e.1).posX (s.win e.1).posY) s.dev
      rwa [place_crop] at stamped
    have kept : ∀ m ∈ entries, s₁.win m.1 = s.win m.1 := fun m hm =>
      put_win_of_ne s e.1 _ fun same => fresh (same ▸ List.mem_map_of_mem hm)
    have layers : entries.map (s₁.backing below) = entries.map (s.backing below) :=
      List.map_congr_left fun m hm => by simp only [backing, kept m hm]
    have rest : ∀ m ∈ entries, (s₁.win m.1).Standing s₁.dev (below m.1) := fun m hm => by
      rw [kept m hm]
      have old := standing m (List.mem_cons_of_mem _ hm)
      exact ⟨old.opened, old.shown, old.bg, old.fits⟩
    obtain ⟨s', loop, final⟩ := ih keys rest
    rw [pixel, layers] at final
    refine ⟨s', ?_, final⟩
    rw [hideAll_def, List.foldlM_cons, first]
    exact loop

/-- Where the windows stand apart, each uncovers what lies below it. -/
theorem hideAll_uncovers (below : ι → Point → Px) {entries : List (ι × Shift)} {s : Desk ι Px}
    (keys : (entries.map Prod.fst).Nodup)
    (standing : ∀ e ∈ entries, (s.win e.1).Standing s.dev (below e.1))
    (apart : entries.Pairwise fun e f => Disjoint (s.win e.1).rect (s.win f.1).rect)
    {e : ι × Shift} (he : e ∈ entries) {p : Point} (inside : p ∈ (s.win e.1).rect) :
    ∃ s', s.hideAll entries = .ok s' ∧ s'.dev.pixel p = below e.1 p := by
  obtain ⟨s', lowered, pixel⟩ := hideAll_eq below keys standing
  have regions : (entries.map (s.backing below)).Pairwise
      fun l m => Disjoint l.region m.region := List.pairwise_map.mpr apart
  refine ⟨s', lowered, ?_⟩
  rw [pixel]
  exact composite_of_apart _ regions (List.mem_map_of_mem he) inside

theorem hideAll_of_hidden {entries : List (ι × Shift)} {s : Desk ι Px}
    (hidden : ∀ e ∈ entries, (s.win e.1).visible = false) : s.hideAll entries = .ok s := by
  induction entries with
  | nil => rfl
  | cons e entries ih =>
    have first : s.on e.1 Window.hide = .ok s := by
      rw [on_ok (hide_of_hidden (v := s.view e.1) (hidden e (by simp))), put_view]
    rw [hideAll_def, List.foldlM_cons, first]
    exact ih fun m hm => hidden m (List.mem_cons_of_mem _ hm)

def FocusRestores (s : Desk ι Px) : Prop :=
  ∃ s', (s.setFocus true >>= fun s => s.setFocus false) = .ok s' ∧ s'.dev.pixel = s.dev.pixel

theorem Stowed.setFocus_twice {s : Desk ι Px} {image : ι → Point → Px}
    (h : s.Stowed image) (unfocused : s.cwm.focus = false) :
    ∃ s', (s.setFocus true >>= fun s => s.setFocus false) = .ok s' ∧
      s'.dev.pixel = composite (composite s.dev.pixel (s.cwm.cwmmap.map (s.layer image)))
        (undercoats s.dev.pixel (s.cwm.cwmmap.map (s.layer image))) := by
  by_cases empty : s.cwm.cwmmap = []
  · refine ⟨s, ?_, by rw [empty]; rfl⟩
    simp [setFocus_def, empty]
  · obtain ⟨up, below, loop, cwm, dev, -, standing, coats⟩ :=
      showAll_eq (s := s.withFocus true) image h.keys h.each
    have on : s.setFocus true = .ok up := by
      rw [setFocus_def, if_pos ⟨by simp [unfocused], empty⟩, if_pos rfl]
      exact loop
    have map : up.cwm.cwmmap = s.cwm.cwmmap := by rw [cwm]; rfl
    obtain ⟨down, loop', pixel⟩ := hideAll_eq (s := up.withFocus false) below h.keys
      standing
    have off : up.setFocus false = .ok down := by
      have focused : up.cwm.focus = true := by rw [cwm]; rfl
      rw [setFocus_def, map, if_pos ⟨by simp [focused], empty⟩, if_neg Bool.false_ne_true]
      exact loop'
    refine ⟨down, by rw [on]; exact off, ?_⟩
    have backings : s.cwm.cwmmap.map ((up.withFocus false).backing below) =
        undercoats s.dev.pixel (s.cwm.cwmmap.map (s.layer image)) := coats
    rw [pixel, backings]
    exact congrArg (fun d => composite d.pixel _) dev

/-- Focus on and off restores the framebuffer exactly when the focus was on already (and
nothing happens) or the last but one window blends wherever windows overlap. -/
theorem focus_restores_iff {s : Desk ι Px} {image : ι → Point → Px} (h : s.Stowed image) :
    s.FocusRestores ↔ s.cwm.focus = true ∨ s.LastButOneBlends image := by
  cases focus : s.cwm.focus with
  | true =>
    have on : s.setFocus true = .ok s := by simp [setFocus_def, focus]
    have off : ∃ s', s.setFocus false = .ok s' ∧ s'.dev.pixel = s.dev.pixel := by
      rw [setFocus_def]
      split
      · have hidden : ∀ e ∈ s.cwm.cwmmap, (s.win e.1).visible = false := fun e he =>
          (h.each e he).hid
        exact ⟨_, hideAll_of_hidden (s := s.withFocus false) hidden, rfl⟩
      · exact ⟨s, rfl, rfl⟩
    simp only [FocusRestores, on, true_or, iff_true]
    exact off
  | false =>
    obtain ⟨s', returned, pixel⟩ := h.setFocus_twice focus
    rw [lastButOneBlends_iff, ← pixel]
    constructor
    · rintro ⟨t, returned', same⟩
      obtain rfl := Except.ok.inj (returned.symm.trans returned')
      exact .inr same
    · rintro (contra | same)
      · cases contra
      · exact ⟨s', returned, same⟩

/-- Two windows of two pixels each, rendered after they are attached. -/
def pair (sh sh' : Shift) : Option (Desk Bool Nat) :=
  replay (fun s op => (s.exec op).toOption) (start ⟨40, 40, fun _ => 0⟩)
    [.attachWindow false sh, .attachWindow true sh',
      .render false [(0, 0, ⟨1, 0, [(0, 0, 7), (1, 0, 7)]⟩)],
      .render true [(0, 0, ⟨1, 0, [(0, 0, 8), (1, 0, 8)]⟩)]]

/-- Two windows at the same place leave the first one's image behind. -/
theorem focus_leaves_trace : ∃ s : Desk Bool Nat,
    pair (.preeditShift 0 1) (.statusShift 0 1) = some s ∧
      s.Stowed (fun b _ => if b then 8 else 7) ∧ ¬ s.FocusRestores := by
  let s := (pair (.preeditShift 0 1) (.statusShift 0 1)).get (by decide)
  refine ⟨s, (Option.some_get _).symm, ⟨by decide, by decide⟩, ?_⟩
  rintro ⟨s', returned, same⟩
  have trace : (s.setFocus true >>= fun s => s.setFocus false).toOption.map
      (fun s => s.dev.pixel (0, 1)) = some 7 := by decide
  have base : s.dev.pixel (0, 1) = 0 := by decide
  rw [returned] at trace
  have left : s'.dev.pixel (0, 1) = 7 := Option.some.inj trace
  rw [same, base] at left
  cases left

/-- Two windows one below the other restore the framebuffer. -/
theorem focus_restores_pair : ∃ s : Desk Bool Nat,
    pair (.preeditShift 0 1) (.statusShift 0 2) = some s ∧ s.FocusRestores := by
  let s := (pair (.preeditShift 0 1) (.statusShift 0 2)).get (by decide)
  have stowed : s.Stowed (fun b _ => if b then 8 else 7) := ⟨by decide, by decide⟩
  have low : (s.win false).frame = ⟨0, 1, 1, 0⟩ := by decide
  have high : (s.win true).frame = ⟨0, 2, 1, 0⟩ := by decide
  have map : s.cwm.cwmmap = [(false, .preeditShift 0 1), (true, .statusShift 0 2)] := by decide
  have apart : Disjoint (s.win false).rect (s.win true).rect := by
    rw [Window.rect_eq, Window.rect_eq, low, high, Set.disjoint_left]
    simp only [Frame.rect, mem_box]
    omega
  refine ⟨s, (Option.some_get _).symm, (focus_restores_iff stowed).mpr (.inr ?_)⟩
  exact lastButOneBlends_of_apart (by rw [map]; simpa using apart)

end Desk

end Ucimf.Display
