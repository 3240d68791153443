import Ucimf.Keyboard.KeyState
import Ucimf.Support.Run
import Mathlib.Data.Finset.Card
import Mathlib.Data.Finset.Range

/-!
# Held modifiers

What an event does to the counters and to `shift_state` depends only on the modifier the
key is mapped to and on whether the table numbered by `shift_state` is allocated. The
counters are compared with the set of keys of a modifier that are down.
-/

namespace Ucimf.Keyboard

open KeyType KeyState Transition

/-- The modifier a keysym stands for; `K_CAPSSHIFT` counts as `K_SHIFT`. -/
def Keysym.modifier (sym : Keysym) : Option Nat :=
  if sym.type = ktShift ∧ sym.val.toNat < nrShift then
    some (if sym.val.toNat = kgCapsshift then kgShift else sym.val.toNat)
  else none

/-- The modifier a key is mapped to. -/
def Kernel.modifier (k : Kernel) (keycode : Nat) : Option Nat :=
  if keycode < nrKeys then (k.kdgkbent 0 keycode).modifier else none

/-- Table 0 is allocated, and a key is mapped to the same modifier in every table. -/
structure Kernel.Uniform (k : Kernel) : Prop where
  base : (k.keymap 0).isSome = true
  same : ∀ t t' m m', k.keymap t = some m → k.keymap t' = some m' →
    ∀ keycode, (m keycode).modifier = (m' keycode).modifier

/-- The table of the next lookup exists. -/
def KeyState.Mapped (k : Kernel) (s : KeyState) : Prop :=
  (k.keymap (s.shiftState.setWidth 8)).isSome = true

theorem Keysym.modifier_lt {sym : Keysym} {v : Nat} (h : sym.modifier = some v) : v < 8 := by
  unfold Keysym.modifier at h
  split at h
  · next shift =>
    have value := Option.some.inj h
    have small : sym.val.toNat < 9 := shift.2
    by_cases caps : sym.val.toNat = kgCapsshift
    · rw [if_pos caps, kgShift] at value
      omega
    · rw [if_neg caps] at value
      rw [kgCapsshift] at caps
      omega
  · cases h

theorem Keysym.modifier_of_type {sym : Keysym} (other : sym.type ≠ ktShift) :
    sym.modifier = none := if_neg fun both => other both.1

theorem kdgkbent_unmapped {k : Kernel} {t : BitVec 8} (absent : k.keymap t = none)
    (keycode : Nat) : (k.kdgkbent t keycode).modifier = none := by
  simp only [Kernel.kdgkbent, absent]
  split <;> rfl

theorem kdgkbent_modifier {k : Kernel} (uniform : k.Uniform) {t : BitVec 8}
    (mapped : (k.keymap t).isSome = true) {keycode : Nat} (small : keycode < nrKeys) :
    (k.kdgkbent t keycode).modifier = k.modifier keycode := by
  obtain ⟨m, hm⟩ := Option.isSome_iff_exists.mp mapped
  obtain ⟨m₀, hm₀⟩ := Option.isSome_iff_exists.mp uniform.base
  have found := uniform.same t 0 m m₀ hm hm₀ keycode
  rw [Kernel.modifier, if_pos small]
  simpa only [Kernel.kdgkbent, hm, hm₀] using found

/-- The second lookup of a letter does not turn up a modifier. -/
theorem lookup_modifier {k : Kernel} (uniform : k.Uniform) {s : KeyState} (mapped : s.Mapped k)
    {keycode : Nat} (small : keycode < nrKeys) :
    (lookup k s keycode).modifier = k.modifier keycode := by
  have first := kdgkbent_modifier uniform mapped small
  unfold lookup
  dsimp only
  split
  · next letter =>
    have plain : (k.kdgkbent (s.shiftState.setWidth 8) keycode).modifier = none :=
      Keysym.modifier_of_type (by rw [letter.1]; decide)
    rw [← first, plain]
    cases again : k.keymap ((s.shiftState ^^^ (1#16 <<< kgShift)).setWidth 8) with
    | none => exact kdgkbent_unmapped again keycode
    | some m =>
      rw [kdgkbent_modifier uniform (by rw [again]; rfl) small, ← first, plain]
  · exact first

theorem lookup_unmapped {k : Kernel} {s : KeyState} (unmapped : ¬ s.Mapped k) (keycode : Nat) :
    (lookup k s keycode).modifier = none := by
  have absent : k.keymap (s.shiftState.setWidth 8) = none := by
    simpa [Mapped] using unmapped
  have plain := kdgkbent_unmapped absent keycode
  unfold lookup
  dsimp only
  split
  · next letter =>
    have hole : (k.kdgkbent (s.shiftState.setWidth 8) keycode).type = ktSpec := by
      simp only [Kernel.kdgkbent, absent]
      split <;> rfl
    rw [hole] at letter
    exact absurd letter.1 (by decide)
  · exact plain

namespace KeyState

/-- What an event of a key of the modifier `m` does to the counters and the mask. -/
structure Counts (s : KeyState) (m : Option Nat) (down rep : Bool) (t : KeyState) : Prop where
  still : m = none ∨ rep = true → t.shiftDown = s.shiftDown ∧ t.shiftState = s.shiftState
  count : ∀ v, m = some v → rep = false →
    t.shiftDown = (s.setShift v (counted (s.shiftDown v) down)).shiftDown ∧
      t.shiftState = (s.setShift v (counted (s.shiftDown v) down)).shiftState

theorem counts_self (s : KeyState) {m : Option Nat} {down rep : Bool}
    (idle : m = none ∨ rep = true) : s.Counts m down rep s where
  still _ := ⟨rfl, rfl⟩
  count v some fresh := by
    rcases idle with none | held
    · rw [none] at some
      cases some
    · exact absurd (fresh.symm.trans held) Bool.false_ne_true

theorem counts_lockKey (s : KeyState) (sym : Keysym) (down rep : Bool) :
    s.Counts none down rep (s.lockKey sym down rep) := by
  refine ⟨fun _ => ?_, fun v some => nomatch some⟩
  rcases s.lockKey_cases sym down rep with same | ⟨locks, moved⟩
  · rw [same]
    exact ⟨rfl, rfl⟩
  · rw [moved]
    exact ⟨rfl, rfl⟩

theorem counts_shiftKey (s : KeyState) (sym : Keysym) (shift : sym.type = ktShift)
    (down rep : Bool) : s.Counts sym.modifier down rep (s.shiftKey sym.val.toNat down rep) := by
  unfold shiftKey
  split
  · next idle =>
    apply s.counts_self
    rcases idle with large | held
    · exact .inl (if_neg fun both => absurd both.2 (not_lt.mpr large))
    · exact .inr held
  · next active =>
    obtain ⟨small, fresh⟩ := not_or.mp active
    have modifier : sym.modifier =
        some (if sym.val.toNat = kgCapsshift then kgShift else sym.val.toNat) :=
      if_pos ⟨shift, not_le.mp small⟩
    refine ⟨fun idle => ?_, fun v found _ => ?_⟩
    · rcases idle with none | held
      · rw [modifier] at none
        cases none
      · exact absurd held fresh
    · rw [modifier] at found
      have value := Option.some.inj found
      split
      · next caps =>
        rw [if_pos caps] at value
        subst value
        split <;> exact ⟨rfl, rfl⟩
      · next plain =>
        rw [if_neg plain] at value
        subst value
        exact ⟨rfl, rfl⟩

theorem keyDown_lockKey (s : KeyState) (sym : Keysym) (down rep : Bool) :
    (s.lockKey sym down rep).keyDown = s.keyDown := by
  rcases s.lockKey_cases sym down rep with same | ⟨locks, moved⟩
  · rw [same]
  · rw [moved]
    rfl

theorem keyDown_shiftKey (s : KeyState) (value : Nat) (down rep : Bool) :
    (s.shiftKey value down rep).keyDown = s.keyDown := by
  unfold shiftKey
  repeat' split
  all_goals rfl

theorem Counts.of_keyDown {s t : KeyState} {m : Option Nat} {down rep : Bool} {f : Nat → Bool}
    (h : Counts { s with keyDown := f } m down rep t) : s.Counts m down rep t :=
  ⟨h.still, h.count⟩

/-- The step lemma of `keycode_to_keysym`, as far as the modifiers go. -/
theorem keycodeToKeysym_counts (k : Kernel) (s : KeyState) {keycode : Nat}
    (small : keycode < nrKeys) (down : Bool) :
    (keycodeToKeysym k s keycode down).2.keyDown = Function.update s.keyDown keycode down ∧
      s.Counts (lookup k s keycode).modifier down (down && s.keyDown keycode)
        (keycodeToKeysym k s keycode down).2 := by
  let pressed : KeyState := { s with keyDown := Function.update s.keyDown keycode down }
  have looked : lookup k pressed keycode = lookup k s keycode := rfl
  unfold keycodeToKeysym
  rw [if_neg (not_le.mpr small)]
  dsimp only
  split
  · next hole =>
    have plain : (lookup k s keycode).modifier = none := by
      rw [← looked]
      rcases hole with hole | hole <;> rw [hole] <;> rfl
    rw [plain]
    exact ⟨rfl, (pressed.counts_self (.inl rfl)).of_keyDown⟩
  · split
    · next spec =>
      have plain : (lookup k s keycode).modifier = none :=
        Keysym.modifier_of_type (by rw [← looked, spec]; decide)
      rw [plain]
      exact ⟨keyDown_lockKey _ _ _ _, (counts_lockKey pressed _ _ _).of_keyDown⟩
    · next shift =>
      exact ⟨keyDown_shiftKey _ _ _ _, (counts_shiftKey pressed _ shift _ _).of_keyDown⟩
    · next notSpec notShift =>
      have plain : (lookup k s keycode).modifier = none := Keysym.modifier_of_type notShift
      rw [plain]
      exact ⟨rfl, (pressed.counts_self (.inl rfl)).of_keyDown⟩

end KeyState

end Ucimf.Keyboard
