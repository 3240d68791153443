import Ucimf.Display.Focus

/-!
# Many windows over the terminal's picture

`Overlaid` is the invariant of the desk: the framebuffer is the terminal's picture
overlaid by the visible windows, and each of them saved the terminal's picture under its
rectangle. Windows that are visible together may overlap only where both of them show the
terminal's own colour (`Compatible`). A method of one window keeps the invariant when
the window ends up compatible with the others (`Overlaid.put`), and the loops of the
manager keep it window by window.
-/

namespace Ucimf.Display

open Outcome

variable {ι Px : Type}

/-- An image at the place `F` that shows the terminal's colour at `p`. -/
def Blends (term : Point → Px) (I : Option (Point → Px)) (F : Frame) (p : Point) : Prop :=
  ∃ J, I = some J ∧ place J F.posX F.posY p = term p

/-- Two images that blend wherever their rectangles meet. -/
def Compatible (term : Point → Px) (I : Option (Point → Px)) (F : Frame)
    (J : Option (Point → Px)) (G : Frame) : Prop :=
  ∀ p ∈ F.rect, p ∈ G.rect → Blends term I F p ∧ Blends term J G p

def Frame.Fits (F : Frame) (d : GraphDev Px) : Prop :=
  d.InRange F.posX F.posY (F.posX + F.width) (F.posY + F.height)

instance (F : Frame) (d : GraphDev Px) : Decidable (F.Fits d) :=
  inferInstanceAs (Decidable (d.InRange _ _ _ _))

theorem Window.fits_iff (W : Window Px) (d : GraphDev Px) : W.Fits d ↔ W.frame.Fits d := Iff.rfl

theorem Frame.Fits.on_screen {F : Frame} {d d' : GraphDev Px} (h : F.Fits d)
    (xres : d'.xres = d.xres) (yres : d'.yres = d.yres) : F.Fits d' := by
  rw [Frame.Fits, GraphDev.InRange, GraphDev.OnScreen, GraphDev.OnScreen] at h ⊢
  rwa [xres, yres]

theorem Window.Standing.on_screen {W : Window Px} {d d' : GraphDev Px} {below : Point → Px}
    (h : W.Standing d below) (xres : d'.xres = d.xres) (yres : d'.yres = d.yres) :
    W.Standing d' below :=
  ⟨h.opened, h.shown, h.bg, ((W.fits_iff d).mp h.fits).on_screen xres yres⟩

theorem Compatible.symm {term : Point → Px} {I J : Option (Point → Px)} {F G : Frame}
    (h : Compatible term I F J G) : Compatible term J G I F :=
  fun p hG hF => (h p hF hG).symm

theorem Compatible.of_disjoint {term : Point → Px} {I J : Option (Point → Px)} {F G : Frame}
    (apart : Disjoint F.rect G.rect) : Compatible term I F J G :=
  fun _ hF hG => absurd hG (Set.disjoint_left.mp apart hF)

namespace Desk

/-- The framebuffer without the window `w`. -/
def beneath (s : Desk ι Px) (term : Point → Px) (w : ι) : Point → Px := fun p =>
  if (s.win w).visible = true ∧ p ∈ (s.win w).rect then term p else s.dev.pixel p

structure Overlaid (term : Point → Px) (image : ι → Option (Point → Px)) (s : Desk ι Px) :
    Prop where
  opened : ∀ w, (s.win w).gp.gdev = true
  unmeasured : ∀ w, (s.win w).gp.pseudo = true → (s.win w).width = 0 ∧ (s.win w).height = 0
  standing : ∀ w, (s.win w).visible = true → (s.win w).Standing s.dev term
  below : ∀ w, (s.win w).visible = false → Below s.dev.pixel (image w) (s.view w)
  shows : ∀ w, (s.win w).visible = true → ∀ I, image w = some I → ∀ p ∈ (s.win w).rect,
    s.dev.pixel p = place I (s.win w).posX (s.win w).posY p
  off : ∀ p, (∀ w, (s.win w).visible = true → p ∉ (s.win w).rect) → s.dev.pixel p = term p
  blend : ∀ u w, u ≠ w → (s.win u).visible = true → (s.win w).visible = true →
    ∀ p ∈ (s.win u).rect, p ∈ (s.win w).rect → s.dev.pixel p = term p

section Beneath
variable {term : Point → Px} {image : ι → Option (Point → Px)} {s : Desk ι Px} {w : ι}

theorem beneath_of_hidden (hid : (s.win w).visible = false) :
    s.beneath term w = s.dev.pixel := by
  funext p
  simp [beneath, hid]

theorem beneath_of_mem (shown : (s.win w).visible = true) {p : Point}
    (hp : p ∈ (s.win w).rect) : s.beneath term w p = term p := if_pos ⟨shown, hp⟩

theorem beneath_of_notMem {p : Point} (hp : p ∉ (s.win w).rect) :
    s.beneath term w p = s.dev.pixel p := if_neg fun both => hp both.2

theorem Overlaid.beneath_eq (h : Overlaid term image s) {u : ι} (other : u ≠ w)
    (shown : (s.win u).visible = true) {p : Point} (hp : p ∈ (s.win u).rect) :
    s.beneath term w p = s.dev.pixel p := by
  by_cases own : (s.win w).visible = true ∧ p ∈ (s.win w).rect
  · rw [beneath_of_mem own.1 own.2, h.blend u w other shown own.1 p hp own.2]
  · exact if_neg own

/-- Where no other window stands, the terminal's picture lies beneath. -/
theorem Overlaid.beneath_of_clear (h : Overlaid term image s) {p : Point}
    (clear : ∀ u ≠ w, (s.win u).visible = true → p ∉ (s.win u).rect) :
    s.beneath term w p = term p := by
  by_cases own : (s.win w).visible = true ∧ p ∈ (s.win w).rect
  · exact beneath_of_mem own.1 own.2
  · rw [beneath, if_neg own]
    refine h.off p fun u shown hp => ?_
    by_cases same : u = w
    · subst same
      exact own ⟨shown, hp⟩
    · exact clear u same shown hp

theorem Overlaid.held (h : Overlaid term image s) (w : ι) :
    Held (s.beneath term w) (image w) (s.view w) where
  opened := h.opened w
  unmeasured := h.unmeasured w
  above shown :=
    { fits := (h.standing w shown).fits
      bg := by
        refine (h.standing w shown).bg.trans (congrArg some ?_)
        exact Window.saved_congr fun p hp => (beneath_of_mem shown hp).symm
      outside := fun p hp => (beneath_of_notMem hp).symm
      inside := h.shows w shown }
  below hid := by
    rw [beneath_of_hidden hid]
    exact h.below w hid

end Beneath

end Desk

theorem Held.outside {under : Point → Px} {img : Option (Point → Px)} {v : View Px}
    (h : Held under img v) {p : Point} (hp : ¬ (v.win.visible = true ∧ p ∈ v.win.rect)) :
    v.dev.pixel p = under p := by
  cases shown : v.win.visible with
  | false => rw [(h.below shown).same]
  | true => exact (h.above shown).outside p fun mem => hp ⟨shown, mem⟩

namespace Desk

section Put
variable {term : Point → Px} {image : ι → Option (Point → Px)} {s : Desk ι Px} {w : ι}
  {img : Option (Point → Px)} {v : View Px}

/-- The other visible windows meet the window `w` of `v` only in the terminal's colour. -/
def Clear (term : Point → Px) (image : ι → Option (Point → Px)) (s : Desk ι Px) (w : ι)
    (img : Option (Point → Px)) (F : Frame) : Prop :=
  ∀ u ≠ w, (s.win u).visible = true → Compatible term (image u) (s.win u).frame img F

/-- Where another window is met, the colours on both sides are the terminal's. -/
theorem Overlaid.meets (h : Overlaid term image s) (held : Held (s.beneath term w) img v)
    (shown : v.win.visible = true) (clear : Clear term image s w img v.win.frame) {u : ι}
    (other : u ≠ w) (shown' : (s.win u).visible = true) {p : Point}
    (hu : p ∈ (s.win u).rect) (hw : p ∈ v.win.rect) :
    s.dev.pixel p = term p ∧ v.dev.pixel p = term p := by
  obtain ⟨⟨I, hI, below⟩, ⟨J, hJ, own⟩⟩ := clear u other shown' p hu hw
  constructor
  · rw [h.shows u shown' I hI p hu]
    exact below
  · rw [(held.above shown).inside J hJ p hw]
    exact own

theorem Overlaid.kept (h : Overlaid term image s) (held : Held (s.beneath term w) img v)
    (clear : v.win.visible = true → Clear term image s w img v.win.frame) {u : ι}
    (other : u ≠ w) (shown : (s.win u).visible = true) {p : Point} (hp : p ∈ (s.win u).rect) :
    v.dev.pixel p = s.dev.pixel p := by
  by_cases own : v.win.visible = true ∧ p ∈ v.win.rect
  · obtain ⟨old, new⟩ := h.meets held own.1 (clear own.1) other shown hp own.2
    rw [old, new]
  · rw [held.outside own, h.beneath_eq other shown hp]

theorem Overlaid.stands (h : Overlaid term image s) (held : Held (s.beneath term w) img v)
    (shown : v.win.visible = true) (clear : Clear term image s w img v.win.frame) :
    v.win.Standing v.dev term := by
  have above := held.above shown
  refine ⟨held.opened, shown, above.bg.trans (congrArg some ?_), above.fits⟩
  refine Window.saved_congr fun p hp => ?_
  by_cases free : ∀ t ≠ w, (s.win t).visible = true → p ∉ (s.win t).rect
  · exact h.beneath_of_clear free
  · push Not at free
    obtain ⟨t, other, shown', hp'⟩ := free
    rw [h.beneath_eq other shown' hp']
    exact (h.meets held shown clear other shown' hp' hp).1

variable [LinearOrder ι]

/-- One window changes: the invariant holds again if the window is hidden or clear of the
others. -/
theorem Overlaid.put (h : Overlaid term image s) (held : Held (s.beneath term w) img v)
    (xres : v.dev.xres = s.dev.xres) (yres : v.dev.yres = s.dev.yres)
    (clear : v.win.visible = true → Clear term image s w img v.win.frame) :
    Overlaid term (Function.update image w img) (s.put w v) where
  opened := put_win_cases (P := fun _ W => W.gp.gdev = true) held.opened fun u _ => h.opened u
  unmeasured :=
    put_win_cases (P := fun _ W => W.gp.pseudo = true → W.width = 0 ∧ W.height = 0)
      held.unmeasured fun u _ => h.unmeasured u
  standing := by
    apply put_win_cases (P := fun _ W => W.visible = true → W.Standing v.dev term)
    · exact fun shown => h.stands held shown (clear shown)
    · exact fun u _ shown => (h.standing u shown).on_screen xres yres
  below := by
    apply put_win_cases (P := fun u W => W.visible = false →
      Below v.dev.pixel (Function.update image w img u) ⟨v.dev, W⟩)
    · rw [Function.update_self]
      exact fun hid => ⟨rfl, (held.below hid).bg, (held.below hid).fg, (held.below hid).sized⟩
    · intro u other hid
      have old := h.below u hid
      rw [Function.update_of_ne other]
      exact ⟨rfl, old.bg, old.fg, old.sized⟩
  shows := by
    apply put_win_cases (P := fun u W => W.visible = true →
      ∀ I, Function.update image w img u = some I → ∀ p ∈ W.rect,
        v.dev.pixel p = place I W.posX W.posY p)
    · rw [Function.update_self]
      exact fun shown => (held.above shown).inside
    · intro u other shown I hI p hp
      rw [Function.update_of_ne other] at hI
      rw [h.kept held clear other shown hp]
      exact h.shows u shown I hI p hp
  off p free := by
    have own : ¬ (v.win.visible = true ∧ p ∈ v.win.rect) := by
      have self := free w
      rw [put_win_self] at self
      exact fun both => self both.1 both.2
    rw [put_dev, held.outside own]
    refine h.beneath_of_clear fun u other shown => ?_
    have old := free u
    rw [put_win_of_ne s w v other] at old
    exact old shown
  blend t u differ shown shown' p ht hu := by
    rw [put_dev]
    by_cases first : t = w
    · subst first
      rw [put_win_self] at shown ht
      rw [put_win_of_ne s t v differ.symm] at shown' hu
      exact (h.meets held shown (clear shown) differ.symm shown' hu ht).2
    · rw [put_win_of_ne s w v first] at shown ht
      by_cases second : u = w
      · subst second
        rw [put_win_self] at shown' hu
        exact (h.meets held shown' (clear shown') first shown ht hu).2
      · rw [put_win_of_ne s w v second] at shown' hu
        rw [h.kept held clear first shown ht]
        exact h.blend t u differ shown shown' p ht hu

end Put

/-! ### The loops of the manager -/

/-- Only the windows `keys` differ between two desks. -/
structure Touches (s : Desk ι Px) (keys : List ι) (s' : Desk ι Px) : Prop where
  cwm : s'.cwm = s.cwm
  prevFocus : s'.prevFocus = s.prevFocus
  xres : s'.dev.xres = s.dev.xres
  yres : s'.dev.yres = s.dev.yres
  wm : ∀ u, (s'.win u).wm = (s.win u).wm
  others : ∀ u ∉ keys, s'.win u = s.win u

theorem Touches.refl (s : Desk ι Px) (keys : List ι) : s.Touches keys s :=
  ⟨rfl, rfl, rfl, rfl, fun _ => rfl, fun _ _ => rfl⟩

theorem Touches.trans {s t s' : Desk ι Px} {keys keys' : List ι} (h : s.Touches keys t)
    (h' : t.Touches keys' s') : s.Touches (keys ++ keys') s' where
  cwm := h'.cwm.trans h.cwm
  prevFocus := h'.prevFocus.trans h.prevFocus
  xres := h'.xres.trans h.xres
  yres := h'.yres.trans h.yres
  wm u := (h'.wm u).trans (h.wm u)
  others u hu := by
    obtain ⟨first, rest⟩ := not_or.mp (List.mem_append.not.mp hu)
    exact (h'.others u rest).trans (h.others u first)

theorem Touches.of_ne {s s' : Desk ι Px} {w u : ι} (h : s.Touches [w] s') (other : u ≠ w) :
    s'.win u = s.win u := h.others u (by simpa using other)

/-- Where `Shift::update` moves a window. -/
def landing (s : Desk ι Px) (entry : ι × Shift) : Frame :=
  let W := s.win entry.1
  let goal := entry.2.target s.cwm W.width W.height
  ⟨goal.1, goal.2, W.width, W.height⟩

theorem on_update [LinearOrder ι] (s : Desk ι Px) (entry : ι × Shift) :
    s.on entry.1 (entry.2.update s.cwm) =
      s.on entry.1 fun v => Window.xy v (s.landing entry).posX (s.landing entry).posY := rfl

theorem withCursor_of_unmoved {s : Desk ι Px} {x y : Int}
    (unmoved : ¬ (x ≠ s.cwm.cursorX ∨ y ≠ s.cwm.cursorY)) :
    s.withCursor x y = s := by
  obtain ⟨sameX, sameY⟩ : x = s.cwm.cursorX ∧ y = s.cwm.cursorY := by
    simpa only [not_or, not_not] using unmoved
  rw [sameX, sameY]
  rfl

/-- The manager does not enter the invariant. -/
theorem Overlaid.of_same {term : Point → Px} {image : ι → Option (Point → Px)} {s t : Desk ι Px}
    (h : Overlaid term image s) (dev : t.dev = s.dev) (win : t.win = s.win) :
    Overlaid term image t := by
  obtain ⟨_, _, _, _⟩ := t
  subst dev win
  exact ⟨h.opened, h.unmeasured, h.standing, h.below, h.shows, h.off, h.blend⟩

/-- Where the windows of the map are after `set_position`. -/
def placement (s : Desk ι Px) (x y : Int) (entry : ι × Shift) : Frame :=
  if x ≠ s.cwm.cursorX ∨ y ≠ s.cwm.cursorY then (s.withCursor x y).landing entry
  else (s.win entry.1).frame

/-- The visible windows could be moved to their places at the cursor `(x, y)` one by one:
on its way no window meets the old rectangle of a later one, and in the end they meet
neither each other nor a visible window that is not attached. -/
structure Roomy (term : Point → Px) (image : ι → Option (Point → Px)) (s : Desk ι Px)
    (x y : Int) : Prop where
  steps : s.cwm.cwmmap.Pairwise fun e f => (s.win e.1).visible = true →
    (s.win f.1).visible = true →
      Compatible term (image e.1) (s.placement x y e) (image f.1) (s.win f.1).frame
  final : s.cwm.cwmmap.Pairwise fun e f => (s.win e.1).visible = true →
    (s.win f.1).visible = true →
      Compatible term (image e.1) (s.placement x y e) (image f.1) (s.placement x y f)
  others : ∀ e ∈ s.cwm.cwmmap, (s.win e.1).visible = true →
    ∀ u ∉ s.cwm.cwmmap.map Prod.fst, (s.win u).visible = true →
      Compatible term (image u) (s.win u).frame (image e.1) (s.placement x y e)

/-- The attached windows that are hidden could be raised: each is compatible with the
visible windows and with the other attached ones. -/
def Ready (term : Point → Px) (image : ι → Option (Point → Px)) (s : Desk ι Px) : Prop :=
  ∀ e ∈ s.cwm.cwmmap, (s.win e.1).visible = false → ∀ u ≠ e.1,
    (s.win u).visible = true ∨ u ∈ s.cwm.cwmmap.map Prod.fst →
      Compatible term (image u) (s.win u).frame (image e.1) (s.win e.1).frame

section Loops
variable [LinearOrder ι] {term : Point → Px} {image : ι → Option (Point → Px)}
  {s : Desk ι Px} {tolerated : Fault → Prop}

theorem touches_put {w : ι} {v : View Px} (wm : v.win.wm = (s.win w).wm)
    (xres : v.dev.xres = s.dev.xres) (yres : v.dev.yres = s.dev.yres) :
    s.Touches [w] (s.put w v) where
  cwm := rfl
  prevFocus := rfl
  xres := xres
  yres := yres
  wm := put_win_cases (P := fun u W => W.wm = (s.win u).wm) wm fun _ _ => rfl
  others u hu := put_win_of_ne s w v (by simpa using hu)

theorem visible_put {w : ι} {v : View Px} (same : v.win.visible = (s.win w).visible) (u : ι) :
    ((s.put w v).win u).visible = (s.win u).visible :=
  put_win_cases (P := fun u W => W.visible = (s.win u).visible) same (fun _ _ => rfl) u

theorem frame_put {w : ι} {v : View Px} (same : v.win.frame = (s.win w).frame) (u : ι) :
    ((s.put w v).win u).frame = (s.win u).frame :=
  put_win_cases (P := fun u W => W.frame = (s.win u).frame) same (fun _ _ => rfl) u

theorem Overlaid.put_image (h : Overlaid term image s) {w : ι} {v : View Px}
    (held : Held (s.beneath term w) (image w) v) (xres : v.dev.xres = s.dev.xres)
    (yres : v.dev.yres = s.dev.yres)
    (clear : v.win.visible = true → Clear term image s w (image w) v.win.frame) :
    Overlaid term image (s.put w v) := by
  have put := h.put held xres yres clear
  rwa [Function.update_eq_self] at put

theorem Overlaid.show (h : Overlaid term image s) (w : ι)
    (fits : (s.win w).frame.Fits s.dev ∨ tolerated .range)
    (clear : (s.win w).visible = false →
      Clear term image s w (image w) (s.win w).frame) :
    Ends tolerated (s.on w Window.show) fun s' =>
      Overlaid term image s' ∧ s.Touches [w] s' ∧
        (∀ u, (s'.win u).frame = (s.win u).frame) ∧ (s'.win w).visible = true := by
  cases shown : (s.win w).visible with
  | true =>
    have idle : s.on w Window.show = .ok s := by
      rw [on_ok (show_of_visible (v := s.view w) shown), put_view]
    exact Ends.intro idle ⟨h, .refl s _, fun _ => rfl, shown⟩
  | false =>
    refine ends_on (((h.held w).show_ends fits).mono ?_)
    rintro v ⟨held, raised, alike⟩
    refine ⟨h.put_image held alike.xres alike.yres fun _ => ?_,
      touches_put alike.wm alike.xres alike.yres, frame_put alike.frame, ?_⟩
    · rw [alike.frame]
      exact clear shown
    · rw [put_win_self, raised]

theorem Overlaid.hide (h : Overlaid term image s) (w : ι) :
    ∃ s', s.on w Window.hide = .ok s' ∧ Overlaid term image s' ∧ s.Touches [w] s' ∧
      (∀ u, (s'.win u).frame = (s.win u).frame) ∧ (s'.win w).visible = false := by
  obtain ⟨v, lowering, held, hid, alike⟩ := (h.held w).hide
  refine ⟨s.put w v, on_ok lowering, ?_, touches_put alike.wm alike.xres alike.yres,
    frame_put alike.frame, ?_⟩
  · exact h.put_image held alike.xres alike.yres fun shown =>
      absurd (hid.symm.trans shown) Bool.false_ne_true
  · rw [put_win_self, hid]

/-- `render` gives the window a new image, drawn on the picture beneath it. -/
theorem Overlaid.render (h : Overlaid term image s) {w : ι} (known : s.cwm.Knows w (s.win w))
    {content : Drawing Px} (inside : content.Inside (content.extent 0 0))
    (clear : (s.win w).visible = true →
      let F := s.cwm.rendered w (s.win w) content
      Clear term image s w (some (content.image F.posX F.posY (s.beneath term w))) F) :
    Ends OffScreen (s.on w (Widget.render s.cwm w content)) fun s' =>
      Overlaid term (Function.update image w
        (some (content.image (s'.win w).posX (s'.win w).posY (s.beneath term w)))) s' ∧
        s.Touches [w] s' := by
  refine ends_on (((h.held w).render known inside).mono ?_)
  rintro v ⟨held, shown, frame, wm, xres, yres⟩
  rw [put_win_self]
  refine ⟨h.put held xres yres fun own => ?_, touches_put wm xres yres⟩
  have place := clear (shown.symm.trans own)
  rw [view_win] at frame
  rw [← frame] at place
  exact place

theorem Overlaid.xy (h : Overlaid term image s) (w : ι) (x y : Int)
    (fits : ((s.win w).visible = true → ((s.view w).moved x y).win.Fits s.dev) ∨
      tolerated .range)
    (clear : (s.win w).visible = true →
      Clear term image s w (image w) ((s.view w).moved x y).win.frame) :
    Ends tolerated (s.on w fun v => Window.xy v x y) fun s' =>
      Overlaid term image s' ∧ s.Touches [w] s' ∧
        (∀ u, (s'.win u).visible = (s.win u).visible) ∧
        (s'.win w).frame = ((s.view w).moved x y).win.frame := by
  refine ends_on (((h.held w).xy_ends x y fits).mono ?_)
  rintro v ⟨held, shown, alike⟩
  refine ⟨h.put_image held alike.xres alike.yres fun own => ?_,
    touches_put alike.wm alike.xres alike.yres, visible_put shown, ?_⟩
  · rw [alike.frame]
    exact clear (shown.symm.trans own)
  · rw [put_win_self, alike.frame]

/-- The visible windows of the entries can go to their landings one after the other. -/
structure Passable (term : Point → Px) (image : ι → Option (Point → Px)) (s : Desk ι Px)
    (entries : List (ι × Shift)) : Prop where
  keys : (entries.map Prod.fst).Nodup
  steps : entries.Pairwise fun e f => (s.win e.1).visible = true →
    (s.win f.1).visible = true →
      Compatible term (image e.1) (s.landing e) (image f.1) (s.win f.1).frame
  final : entries.Pairwise fun e f => (s.win e.1).visible = true →
    (s.win f.1).visible = true →
      Compatible term (image e.1) (s.landing e) (image f.1) (s.landing f)
  others : ∀ e ∈ entries, (s.win e.1).visible = true → ∀ u ∉ entries.map Prod.fst,
    (s.win u).visible = true →
      Compatible term (image u) (s.win u).frame (image e.1) (s.landing e)

theorem Passable.clear {e : ι × Shift} {entries : List (ι × Shift)}
    (h : s.Passable term image (e :: entries)) (shown : (s.win e.1).visible = true) :
    Clear term image s e.1 (image e.1) (s.landing e) := by
  intro u other shown'
  by_cases later : u ∈ entries.map Prod.fst
  · obtain ⟨f, hf, rfl⟩ := List.mem_map.mp later
    exact ((List.pairwise_cons.mp h.steps).1 f hf shown shown').symm
  · apply h.others e List.mem_cons_self shown u _ shown'
    rw [List.map_cons, List.mem_cons]
    exact not_or.mpr ⟨other, later⟩

omit [LinearOrder ι] in
theorem Passable.apart {e : ι × Shift} {entries : List (ι × Shift)}
    (h : s.Passable term image (e :: entries)) : ∀ f ∈ entries, f.1 ≠ e.1 := by
  intro f hf same
  exact (List.nodup_cons.mp h.keys).1 (same ▸ List.mem_map_of_mem hf)

/-- When the first window has landed, the others can still go. -/
theorem Passable.tail {e : ι × Shift} {entries : List (ι × Shift)} {t : Desk ι Px}
    (h : s.Passable term image (e :: entries)) (touched : s.Touches [e.1] t)
    (visible : ∀ u, (t.win u).visible = (s.win u).visible)
    (frame : (t.win e.1).frame = s.landing e) : t.Passable term image entries := by
  have kept : ∀ f ∈ entries, t.win f.1 = s.win f.1 := fun f hf => touched.of_ne (h.apart f hf)
  have landing : ∀ f ∈ entries, t.landing f = s.landing f := fun f hf => by
    simp only [Desk.landing, kept f hf, touched.cwm]
  refine ⟨(List.nodup_cons.mp h.keys).2, ?_, ?_, ?_⟩
  · apply (List.pairwise_cons.mp h.steps).2.imp_of_mem
    intro f g hf hg compatible shown shown'
    rw [landing f hf, kept g hg]
    exact compatible (visible f.1 ▸ shown) (visible g.1 ▸ shown')
  · apply (List.pairwise_cons.mp h.final).2.imp_of_mem
    intro f g hf hg compatible shown shown'
    rw [landing f hf, landing g hg]
    exact compatible (visible f.1 ▸ shown) (visible g.1 ▸ shown')
  · intro f hf shown u hu shown'
    rw [landing f hf]
    rw [visible] at shown shown'
    by_cases same : u = e.1
    · subst same
      rw [frame]
      exact (List.pairwise_cons.mp h.final).1 f hf shown' shown
    · rw [touched.of_ne same]
      apply h.others f (List.mem_cons_of_mem _ hf) shown u _ shown'
      rw [List.map_cons, List.mem_cons]
      exact not_or.mpr ⟨same, hu⟩

theorem Overlaid.updateAll {entries : List (ι × Shift)} (h : Overlaid term image s)
    (fits : (∀ e ∈ entries, (s.win e.1).visible = true → (s.landing e).Fits s.dev) ∨
      tolerated .range)
    (passable : s.Passable term image entries) :
    Ends tolerated (s.updateAll entries) fun s' =>
      Overlaid term image s' ∧ s.Touches (entries.map Prod.fst) s' ∧
        (∀ u, (s'.win u).visible = (s.win u).visible) ∧
        ∀ e ∈ entries, (s'.win e.1).frame = s.landing e := by
  induction entries generalizing s with
  | nil => exact ⟨h, .refl s _, fun _ => rfl, by simp⟩
  | cons e entries ih =>
    have first := h.xy e.1 (s.landing e).posX (s.landing e).posY
      (fits.imp (fun all shown => all e List.mem_cons_self shown) id) passable.clear
    rw [Desk.updateAll_def, List.foldlM_cons, on_update]
    refine first.bind ?_
    rintro t ⟨overlaid, touched, visible, frame⟩
    have landing : ∀ f ∈ entries, t.landing f = s.landing f := fun f hf => by
      simp only [Desk.landing, touched.of_ne (passable.apart f hf), touched.cwm]
    refine (ih overlaid ?_ (passable.tail touched visible frame)).mono ?_
    · refine fits.imp (fun all f hf shown => ?_) id
      rw [landing f hf]
      exact (all f (List.mem_cons_of_mem _ hf) (visible f.1 ▸ shown)).on_screen touched.xres
        touched.yres
    · rintro s' ⟨overlaid', touched', visible', frames⟩
      refine ⟨overlaid', touched.trans touched', fun u => (visible' u).trans (visible u), ?_⟩
      intro f hf
      rcases List.mem_cons.mp hf with rfl | hf
      · rw [touched'.others _ (List.nodup_cons.mp passable.keys).1]
        exact frame
      · rw [frames f hf, landing f hf]

theorem Overlaid.showAll {entries : List (ι × Shift)} (h : Overlaid term image s)
    (fits : (∀ e ∈ entries, (s.win e.1).frame.Fits s.dev) ∨ tolerated .range)
    (compatible : ∀ e ∈ entries, (s.win e.1).visible = false → ∀ u ≠ e.1,
      (s.win u).visible = true ∨ u ∈ entries.map Prod.fst →
        Compatible term (image u) (s.win u).frame (image e.1) (s.win e.1).frame) :
    Ends tolerated (s.showAll entries) fun s' =>
      Overlaid term image s' ∧ s.Touches (entries.map Prod.fst) s' ∧
        (∀ u, (s'.win u).frame = (s.win u).frame) ∧
        ∀ u, (s'.win u).visible = true ↔ (s.win u).visible = true ∨ u ∈ entries.map Prod.fst := by
  induction entries generalizing s with
  | nil => exact ⟨h, .refl s _, fun _ => rfl, by simp⟩
  | cons e entries ih =>
    have first : Ends tolerated (s.on e.1 Window.show) _ := h.show e.1
      (fits.imp (fun all => all e (by simp)) id)
      fun hid u other shown => compatible e (by simp) hid u other (.inl shown)
    rw [Desk.showAll_def, List.foldlM_cons]
    refine first.bind ?_
    rintro t ⟨overlaid, touched, frames, raised⟩
    refine (ih overlaid ?_ ?_).mono ?_
    · refine fits.imp (fun all f hf => ?_) id
      rw [frames]
      exact (all f (List.mem_cons_of_mem _ hf)).on_screen touched.xres touched.yres
    · intro f hf hid u other reach
      rw [frames, frames]
      have differ : f.1 ≠ e.1 := fun same => by
        rw [same, raised] at hid
        cases hid
      rw [touched.of_ne differ] at hid
      refine compatible f (List.mem_cons_of_mem _ hf) hid u other ?_
      by_cases same : u = e.1
      · exact .inr (by simp [same])
      · rw [touched.of_ne same] at reach
        exact reach.imp id (fun mem => by simpa using .inr (by simpa using mem))
    · rintro s' ⟨overlaid', touched', frames', visible⟩
      refine ⟨overlaid', touched.trans touched', fun u => (frames' u).trans (frames u), ?_⟩
      intro u
      rw [visible, List.map_cons, List.mem_cons]
      by_cases same : u = e.1
      · subst same
        simp [raised]
      · rw [touched.of_ne same]
        simp [same]

/-- `set_focus( false )` hides the windows of the map and cannot fail. -/
theorem Overlaid.hideAll {entries : List (ι × Shift)} (h : Overlaid term image s) :
    ∃ s', s.hideAll entries = .ok s' ∧ Overlaid term image s' ∧
      s.Touches (entries.map Prod.fst) s' ∧ (∀ u, (s'.win u).frame = (s.win u).frame) ∧
      ∀ u, (s'.win u).visible = true ↔ (s.win u).visible = true ∧ u ∉ entries.map Prod.fst := by
  induction entries generalizing s with
  | nil => exact ⟨s, rfl, h, .refl s _, fun _ => rfl, by simp⟩
  | cons e entries ih =>
    obtain ⟨t, first, overlaid, touched, same, hid⟩ := h.hide e.1
    obtain ⟨s', rest, overlaid', touched', frames, visible⟩ := ih overlaid
    refine ⟨s', ?_, overlaid', touched.trans touched',
      fun u => (frames u).trans (same u), ?_⟩
    · rw [Desk.hideAll_def, List.foldlM_cons, first]
      exact rest
    · intro u
      rw [visible, List.map_cons, List.mem_cons]
      by_cases same : u = e.1
      · subst same
        simp [hid]
      · rw [touched.of_ne same]
        simp [same]

theorem Overlaid.setPosition (h : Overlaid term image s)
    (keys : (s.cwm.cwmmap.map Prod.fst).Nodup) (x y : Int)
    (fits : (∀ e ∈ s.cwm.cwmmap, (s.win e.1).visible = true →
      (s.placement x y e).Fits s.dev) ∨ tolerated .range)
    (roomy : s.Roomy term image x y) :
    Ends tolerated (s.setPosition x y) fun s' =>
      Overlaid term image s' ∧ (s.withCursor x y).Touches (s.cwm.cwmmap.map Prod.fst) s' ∧
        (∀ u, (s'.win u).visible = (s.win u).visible) ∧
        ∀ e ∈ s.cwm.cwmmap, (s'.win e.1).frame = s.placement x y e := by
  by_cases moved : x ≠ s.cwm.cursorX ∨ y ≠ s.cwm.cursorY
  · have place : ∀ e, s.placement x y e = (s.withCursor x y).landing e := fun e => if_pos moved
    have overlaid : Overlaid term image (s.withCursor x y) := h.of_same rfl rfl
    obtain ⟨steps, final, others⟩ := roomy
    simp only [place] at fits steps final others ⊢
    rw [Desk.setPosition_def, if_pos moved]
    exact overlaid.updateAll fits ⟨keys, steps, final, others⟩
  · rw [Desk.setPosition_def, if_neg moved, withCursor_of_unmoved moved]
    exact ⟨h, .refl s _, fun _ => rfl, fun e _ => (if_neg moved).symm⟩

/-- The focus after `set_focus`, which an empty map leaves as it is. -/
def focusAfter (s : Desk ι Px) (newFocus : Bool) : Bool :=
  if s.cwm.cwmmap = [] then s.cwm.focus else newFocus

theorem setFocus_idle {newFocus : Bool}
    (idle : ¬ (newFocus ≠ s.cwm.focus ∧ s.cwm.cwmmap ≠ [])) :
    s.setFocus newFocus = .ok s ∧ s.withFocus (s.focusAfter newFocus) = s := by
  refine ⟨if_neg idle, ?_⟩
  have same : s.focusAfter newFocus = s.cwm.focus := by
    unfold focusAfter
    split
    · rfl
    · next attached => simpa [attached] using idle
  rw [same]
  rfl

theorem Overlaid.setFocus_true (h : Overlaid term image s)
    (fits : (∀ e ∈ s.cwm.cwmmap, (s.win e.1).frame.Fits s.dev) ∨ tolerated .range)
    (ready : s.cwm.focus = false → s.Ready term image) :
    Ends tolerated (s.setFocus true) fun s' =>
      Overlaid term image s' ∧
        (s.withFocus (s.focusAfter true)).Touches (s.cwm.cwmmap.map Prod.fst) s' ∧
        (∀ u, (s'.win u).frame = (s.win u).frame) ∧
        ∀ u, (s'.win u).visible = true ↔ (s.win u).visible = true ∨
          s.cwm.focus = false ∧ u ∈ s.cwm.cwmmap.map Prod.fst := by
  by_cases effective : true ≠ s.cwm.focus ∧ s.cwm.cwmmap ≠ []
  · have after : s.focusAfter true = true := if_neg effective.2
    have off : s.cwm.focus = false := by simpa using effective.1
    rw [Desk.setFocus_def, if_pos effective, if_pos rfl, after]
    simp only [off, true_and]
    exact (h.of_same (t := s.withFocus true) rfl rfl).showAll fits (ready off)
  · obtain ⟨idle, same⟩ := setFocus_idle effective
    rw [idle, same]
    refine ⟨h, .refl s _, fun _ => rfl, fun u => ⟨.inl, ?_⟩⟩
    rintro (shown | ⟨off, mem⟩)
    · exact shown
    · have attached : s.cwm.cwmmap ≠ [] := by
        rintro empty
        simp [empty] at mem
      exact absurd ⟨by simp [off], attached⟩ effective

theorem Overlaid.setFocus_false (h : Overlaid term image s) :
    ∃ s', s.setFocus false = .ok s' ∧ Overlaid term image s' ∧
      (s.withFocus (s.focusAfter false)).Touches (s.cwm.cwmmap.map Prod.fst) s' ∧
      (∀ u, (s'.win u).frame = (s.win u).frame) ∧
      ∀ u, (s'.win u).visible = true ↔ (s.win u).visible = true ∧
        ¬ (s.cwm.focus = true ∧ u ∈ s.cwm.cwmmap.map Prod.fst) := by
  by_cases effective : false ≠ s.cwm.focus ∧ s.cwm.cwmmap ≠ []
  · have after : s.focusAfter false = false := if_neg effective.2
    have on : s.cwm.focus = true := by simpa using effective.1
    rw [Desk.setFocus_def, if_pos effective, if_neg Bool.false_ne_true, after]
    simp only [on, true_and]
    exact (h.of_same (t := s.withFocus false) rfl rfl).hideAll
  · obtain ⟨idle, same⟩ := setFocus_idle effective
    rw [idle, same]
    refine ⟨s, rfl, h, .refl s _, fun _ => rfl, fun u => ⟨fun shown => ⟨shown, ?_⟩, And.left⟩⟩
    rintro ⟨on, mem⟩
    have attached : s.cwm.cwmmap ≠ [] := by
      rintro empty
      simp [empty] at mem
    exact absurd ⟨by simp [on], attached⟩ effective

end Loops

/-- The framebuffer of a desk is determined by what its visible windows show. -/
theorem Overlaid.pixel_eq {term : Point → Px} {image : ι → Option (Point → Px)}
    {s t : Desk ι Px} (h : Overlaid term image s) (h' : Overlaid term image t)
    (visible : ∀ u, (s.win u).visible = true ↔ (t.win u).visible = true)
    (frames : ∀ u, (s.win u).visible = true → (s.win u).frame = (t.win u).frame)
    (rendered : ∀ u, (s.win u).visible = true → ∃ I, image u = some I) :
    s.dev.pixel = t.dev.pixel := by
  funext p
  by_cases free : ∀ u, (s.win u).visible = true → p ∉ (s.win u).rect
  · rw [h.off p free, h'.off p fun u shown => ?_]
    have back := (visible u).mpr shown
    rw [Window.rect_eq, ← frames u back]
    exact free u back
  · push Not at free
    obtain ⟨u, shown, hp⟩ := free
    obtain ⟨I, hI⟩ := rendered u shown
    have same := frames u shown
    have hp' : p ∈ (t.win u).rect := by
      rw [Window.rect_eq, ← same]
      exact hp
    obtain ⟨posX, posY, -, -⟩ := Frame.mk.inj same
    rw [h.shows u shown I hI p hp, h'.shows u ((visible u).mp shown) I hI p hp', posX, posY]

theorem Overlaid.pixel_of_hidden {term : Point → Px} {image : ι → Option (Point → Px)}
    {s : Desk ι Px} (h : Overlaid term image s) (hidden : ∀ u, (s.win u).visible = false) :
    s.dev.pixel = term :=
  funext fun p => h.off p fun u shown =>
    absurd ((hidden u).symm.trans shown) Bool.false_ne_true

end Desk

end Ucimf.Display
