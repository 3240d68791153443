import Ucimf.Display.Overlay

/-!
# The refresh bracket

Between `ucimf_refresh_begin` and `ucimf_refresh_end` every window is hidden, so moves
only change positions and the terminal may paint anywhere. A desk that is overlaid when
the bracket opens is overlaid over the new picture when it closes.
-/

namespace Ucimf.Display

open Outcome

variable {ι Px : Type}

/-- What happens inside the bracket: the terminal paints, or the cursor moves. -/
inductive Act (Px : Type)
  | paint (picture : Point → Px)
  | move (x y : Int)

def Act.term (term : Point → Px) : Act Px → Point → Px
  | .paint picture => picture
  | .move _ _ => term

namespace Desk

/-- The keys of the map. -/
def attached (s : Desk ι Px) : List ι := s.cwm.cwmmap.map Prod.fst

/-- `ucimf_refresh_begin` took the focus away, unless nothing is attached. -/
def Paused (s : Desk ι Px) : Prop :=
  s.cwm.focus = if s.attached = [] then s.prevFocus else false

theorem Paused.of_same {s t : Desk ι Px} (h : s.Paused) (map : t.attached = s.attached)
    (focus : t.cwm.focus = s.cwm.focus) (prevFocus : t.prevFocus = s.prevFocus) : t.Paused := by
  rw [Paused, focus, map, prevFocus]
  exact h

structure Cleared (term : Point → Px) (image : ι → Option (Point → Px)) (s : Desk ι Px) :
    Prop where
  overlaid : Overlaid term image s
  hidden : ∀ u, (s.win u).visible = false

/-- The attached windows stand side by side on the screen. -/
structure Tiled (s : Desk ι Px) : Prop where
  apart : ∀ u ∈ s.attached, ∀ w ∈ s.attached, u ≠ w →
    Disjoint (s.win u).rect (s.win w).rect
  fits : ∀ u ∈ s.attached, (s.win u).Fits s.dev

/-- The picture `term` overlaid by the images of the attached windows. -/
structure Overlays (s : Desk ι Px) (term : Point → Px) (image : ι → Option (Point → Px)) :
    Prop where
  inside : ∀ u ∈ s.attached, ∀ I, image u = some I → ∀ p ∈ (s.win u).rect,
    s.dev.pixel p = place I (s.win u).posX (s.win u).posY p
  outside : ∀ p, (∀ u ∈ s.attached, p ∉ (s.win u).rect) → s.dev.pixel p = term p

theorem Tiled.ready {s : Desk ι Px} (tiled : s.Tiled) (hidden : ∀ u, (s.win u).visible = false)
    (term : Point → Px) (image : ι → Option (Point → Px)) : s.Ready term image := by
  intro e he _ u other reach
  rcases reach with shown | mem
  · exact absurd ((hidden u).symm.trans shown) Bool.false_ne_true
  · exact .of_disjoint (tiled.apart u mem e.1 (List.mem_map_of_mem he) other)

variable [LinearOrder ι]

def act (s : Desk ι Px) : Act Px → Except Fault (Desk ι Px)
  | .paint picture => s.exec (.paint picture)
  | .move x y => s.exec (.cursorPosition x y)

variable {term : Point → Px} {image : ι → Option (Point → Px)} {s : Desk ι Px}

theorem Overlaid.refreshBegin (h : Overlaid term image s)
    (visible : ∀ u, (s.win u).visible = true → s.cwm.focus = true ∧ u ∈ s.attached) :
    ∃ s', s.ucimfRefreshBegin = .ok s' ∧ Cleared term image s' ∧
      ({ s with prevFocus := s.cwm.focus }.withFocus (s.focusAfter false)).Touches
        s.attached s' ∧ s'.Paused ∧ ∀ u, (s'.win u).frame = (s.win u).frame := by
  have overlaid : Overlaid term image { s with prevFocus := s.cwm.focus } := h.of_same rfl rfl
  obtain ⟨s', returned, overlaid', touched, frames, visible'⟩ := overlaid.setFocus_false
  refine ⟨s', returned, ⟨overlaid', fun u => ?_⟩, touched, ?_, frames⟩
  · refine Bool.eq_false_iff.mpr fun shown => ?_
    obtain ⟨before, spared⟩ := (visible' u).mp shown
    exact spared (visible u before)
  · simp only [Paused, attached, touched.cwm, touched.prevFocus, withFocus, focusAfter,
      List.map_eq_nil_iff]

/-- A hidden window moves without a trace. -/
theorem Cleared.setPosition (h : Cleared term image s) (keys : s.attached.Nodup) (x y : Int) :
    ∃ s', s.setPosition x y = .ok s' ∧ Cleared term image s' ∧
      (s.withCursor x y).Touches s.attached s' ∧
      ∀ e ∈ s.cwm.cwmmap, (s'.win e.1).frame = s.placement x y e := by
  have never : ∀ u, ¬ (s.win u).visible = true := fun u => Bool.eq_false_iff.mp (h.hidden u)
  have roomy : s.Roomy term image x y :=
    { steps := List.pairwise_of_forall fun e f shown => absurd shown (never e.1)
      final := List.pairwise_of_forall fun e f shown => absurd shown (never e.1)
      others := fun e _ shown => absurd shown (never e.1) }
  have moved : Ends (fun _ => False) (s.setPosition x y) _ := h.overlaid.setPosition keys x y
    (.inl fun e _ shown => absurd shown (never e.1)) roomy
  obtain ⟨s', returned, overlaid, touched, visible, frames⟩ :=
    moved.exists_ok fun _ _ => id
  exact ⟨s', returned, ⟨overlaid, fun u => (visible u).trans (h.hidden u)⟩, touched, frames⟩

theorem Cleared.act (h : Cleared term image s) (keys : s.attached.Nodup) (a : Act Px) :
    ∃ s', s.act a = .ok s' ∧ Cleared (a.term term) image s' ∧ s'.attached = s.attached ∧
      s'.cwm.focus = s.cwm.focus ∧ s'.prevFocus = s.prevFocus := by
  cases a with
  | paint picture =>
    have never : ∀ u, ¬ (s.win u).visible = true := fun u => Bool.eq_false_iff.mp (h.hidden u)
    refine ⟨s.painted picture, rfl, ⟨⟨h.overlaid.opened, h.overlaid.unmeasured, ?_, ?_, ?_, ?_,
      ?_⟩, h.hidden⟩, rfl, rfl, rfl⟩
    · exact fun u shown => absurd shown (never u)
    · intro u hid
      have old := h.overlaid.below u hid
      exact ⟨rfl, old.bg, old.fg, old.sized⟩
    · exact fun u shown => absurd shown (never u)
    · exact fun p _ => rfl
    · exact fun u w _ shown => absurd shown (never u)
  | move x y =>
    obtain ⟨s', returned, cleared, touched, -⟩ := h.setPosition keys x y
    refine ⟨s', returned, cleared, ?_, ?_, touched.prevFocus⟩
    · rw [attached, touched.cwm]
      rfl
    · rw [touched.cwm]
      rfl

theorem Cleared.acts (h : Cleared term image s) (keys : s.attached.Nodup)
    (acts : List (Act Px)) :
    ∃ s', acts.foldlM Desk.act s = .ok s' ∧ Cleared (acts.foldl Act.term term) image s' ∧
      s'.attached = s.attached ∧ s'.cwm.focus = s.cwm.focus ∧
      s'.prevFocus = s.prevFocus := by
  induction acts generalizing s term with
  | nil => exact ⟨s, rfl, h, rfl, rfl, rfl⟩
  | cons a acts ih =>
    obtain ⟨t, first, cleared, map, focus, prevFocus⟩ := h.act keys a
    obtain ⟨s', rest, cleared', map', focus', prevFocus'⟩ := ih cleared (map ▸ keys)
    refine ⟨s', ?_, cleared', map'.trans map, focus'.trans focus, prevFocus'.trans prevFocus⟩
    rw [List.foldlM_cons, first]
    exact rest

/-- The bracket closes with the focus it opened with. -/
theorem Cleared.refreshEnd (h : Cleared term image s) (tiled : s.Tiled) (paused : s.Paused) :
    ∃ s', s.ucimfRefreshEnd = .ok s' ∧ Overlaid term image s' ∧
      s'.cwm = { s.cwm with focus := s.prevFocus } ∧
      (∀ u, (s'.win u).frame = (s.win u).frame) ∧
      ∀ u, (s'.win u).visible = true ↔ s.prevFocus = true ∧ u ∈ s.attached := by
  have empty : s.cwm.cwmmap = [] ↔ s.attached = [] := by simp [attached]
  have after : s.focusAfter s.prevFocus = s.prevFocus := by
    simp only [focusAfter, empty]
    split
    · next none => rw [paused, if_pos none]
    · rfl
  have off : ∀ u ∈ s.attached, s.cwm.focus = false := fun u hu => by
    rw [paused, if_neg (List.ne_nil_of_mem hu)]
  rw [ucimfRefreshEnd_def]
  cases prev : s.prevFocus with
  | true =>
    rw [prev] at after
    have opening : Ends (fun _ => False) (s.setFocus true) _ := h.overlaid.setFocus_true
      (.inl fun e he => tiled.fits e.1 (List.mem_map_of_mem he))
      fun _ => tiled.ready h.hidden term image
    obtain ⟨s', returned, overlaid, touched, frames, visible⟩ :=
      opening.exists_ok fun _ _ => id
    refine ⟨s', returned, overlaid, ?_, frames, fun u => ?_⟩
    · rw [touched.cwm, after]
      rfl
    · rw [visible u, h.hidden u]
      constructor
      · rintro (contra | ⟨-, mem⟩)
        · cases contra
        · exact ⟨rfl, mem⟩
      · exact fun both => .inr ⟨off u both.2, both.2⟩
  | false =>
    have idle : ¬ (false ≠ s.cwm.focus ∧ s.cwm.cwmmap ≠ []) := by
      rintro ⟨on, nonempty⟩
      rw [paused, if_neg (empty.not.mp nonempty)] at on
      exact on rfl
    obtain ⟨returned, same⟩ := setFocus_idle idle
    rw [prev] at after
    rw [after] at same
    refine ⟨s, returned, h.overlaid, (congrArg Desk.cwm same).symm, fun _ => rfl, fun u => ?_⟩
    simp [h.hidden u]

end Desk

end Ucimf.Display
