import Ucimf.Keyboard.Modifiers

/-!
# Modifiers and the keys that hold them

The counter of a modifier is compared with the number of its keys that are down. Over a
keymap with missing tables the counter may lag behind the keys; over a full keymap the two
agree, as long as no key is released that was never pressed while another one of the same
modifier is down.
-/

namespace Ucimf.Keyboard

open KeyType KeyState Transition

namespace KeyState

def after (k : Kernel) (s : KeyState) (e : Event) : KeyState :=
  (keycodeToKeysym k s e.keycode e.down).2

/-- The keys of modifier `v` that are down. -/
def held (k : Kernel) (s : KeyState) (v : Nat) : Finset Nat :=
  (Finset.range nrKeys).filter fun keycode =>
    k.modifier keycode = some v ∧ s.keyDown keycode = true

theorem after_large {k : Kernel} {s : KeyState} {e : Event} (large : nrKeys ≤ e.keycode) :
    s.after k e = s := by
  rw [after, keycodeToKeysym_large large]

theorem keyDown_after {k : Kernel} {s : KeyState} {e : Event} (small : e.keycode < nrKeys) :
    (s.after k e).keyDown = Function.update s.keyDown e.keycode e.down :=
  (keycodeToKeysym_counts k s small e.down).1

theorem modifier_small {k : Kernel} {keycode v : Nat} (found : k.modifier keycode = some v) :
    keycode < nrKeys := by
  by_contra large
  rw [Kernel.modifier, if_neg large] at found
  cases found

theorem modifier_lt_eight {k : Kernel} {keycode v : Nat} (found : k.modifier keycode = some v) :
    v < 8 := by
  rw [Kernel.modifier, if_pos (modifier_small found)] at found
  exact Keysym.modifier_lt found

theorem mem_held {k : Kernel} {s : KeyState} {v keycode : Nat} :
    keycode ∈ s.held k v ↔ k.modifier keycode = some v ∧ s.keyDown keycode = true := by
  rw [held, Finset.mem_filter, Finset.mem_range]
  exact ⟨And.right, fun both => ⟨modifier_small both.1, both⟩⟩

theorem held_init (k : Kernel) (s : KeyState) (v : Nat) : s.initKeycodeState.held k v = ∅ := by
  apply Finset.eq_empty_of_forall_notMem
  intro keycode member
  exact absurd (mem_held.mp member).2 Bool.false_ne_true

theorem held_press {k : Kernel} {s : KeyState} {e : Event} {v : Nat} (press : e.down = true)
    (found : k.modifier e.keycode = some v) :
    (s.after k e).held k v = insert e.keycode (s.held k v) := by
  ext keycode
  rw [Finset.mem_insert, mem_held, mem_held, keyDown_after (modifier_small found), press]
  by_cases same : keycode = e.keycode
  · rw [same, Function.update_self]
    exact ⟨fun _ => .inl rfl, fun _ => ⟨found, rfl⟩⟩
  · rw [Function.update_of_ne same, or_iff_right same]

theorem held_release {k : Kernel} {s : KeyState} {e : Event} {v : Nat} (release : e.down = false)
    (found : k.modifier e.keycode = some v) :
    (s.after k e).held k v = (s.held k v).erase e.keycode := by
  ext keycode
  rw [Finset.mem_erase, mem_held, mem_held, keyDown_after (modifier_small found), release]
  by_cases same : keycode = e.keycode
  · rw [same, Function.update_self]
    exact ⟨fun both => absurd both.2 Bool.false_ne_true, fun both => absurd rfl both.1⟩
  · rw [Function.update_of_ne same]
    exact ⟨fun both => ⟨same, both⟩, And.right⟩

/-- A press adds a key to those that are down, unless it repeats. -/
theorem card_held_press {k : Kernel} {s : KeyState} {e : Event} {v : Nat} (press : e.down = true)
    (found : k.modifier e.keycode = some v) :
    ((s.after k e).held k v).card =
      if s.keyDown e.keycode = true then (s.held k v).card else (s.held k v).card + 1 := by
  rw [held_press press found]
  split
  · next down => rw [Finset.insert_eq_of_mem (mem_held.mpr ⟨found, down⟩)]
  · next up => exact Finset.card_insert_of_notMem fun member => up (mem_held.mp member).2

/-- A release takes a key away, if it was down. -/
theorem card_held_release {k : Kernel} {s : KeyState} {e : Event} {v : Nat}
    (release : e.down = false) (found : k.modifier e.keycode = some v) :
    ((s.after k e).held k v).card =
      if s.keyDown e.keycode = true then (s.held k v).card - 1 else (s.held k v).card := by
  rw [held_release release found]
  split
  · next down => exact Finset.card_erase_of_mem (mem_held.mpr ⟨found, down⟩)
  · next up => rw [Finset.erase_eq_of_notMem fun member => up (mem_held.mp member).2]

theorem held_other {k : Kernel} {s : KeyState} {e : Event} {v : Nat}
    (other : k.modifier e.keycode ≠ some v) : (s.after k e).held k v = s.held k v := by
  rcases le_or_gt nrKeys e.keycode with large | small
  · rw [after_large large]
  · ext keycode
    rw [mem_held, mem_held, keyDown_after small]
    by_cases same : keycode = e.keycode
    · rw [same]
      exact ⟨fun both => absurd both.1 other, fun both => absurd both.1 other⟩
    · rw [Function.update_of_ne same]

/-- The event counts: its key is looked up in an allocated table and is no repeat. -/
def Counted (k : Kernel) (s : KeyState) (e : Event) : Prop :=
  s.Mapped k ∧ (e.down && s.keyDown e.keycode) = false

instance (k : Kernel) (s : KeyState) : Decidable (s.Mapped k) :=
  inferInstanceAs (Decidable (_ = true))

section Counters

variable {k : Kernel} (uniform : k.Uniform) {s : KeyState} {e : Event} {v : Nat}
include uniform

theorem counter_counted (found : k.modifier e.keycode = some v) (counts : s.Counted k e) :
    (s.after k e).shiftDown v = counted (s.shiftDown v) e.down := by
  have small := modifier_small found
  have looked : (lookup k s e.keycode).modifier = some v := by
    rw [lookup_modifier uniform counts.1 small, found]
  have moved := (keycodeToKeysym_counts k s small e.down).2.count v looked counts.2
  rw [after, moved.1]
  exact Function.update_self ..

theorem counter_still (idle : k.modifier e.keycode = some v → ¬ s.Counted k e) :
    (s.after k e).shiftDown v = s.shiftDown v := by
  rcases le_or_gt nrKeys e.keycode with large | small
  · rw [after_large large]
  have effect := (keycodeToKeysym_counts k s small e.down).2
  cases looked : (lookup k s e.keycode).modifier with
  | none => exact congrFun (effect.still (.inl looked)).1 v
  | some w =>
    cases rep : e.down && s.keyDown e.keycode with
    | true => exact congrFun (effect.still (.inr rep)).1 v
    | false =>
      have mapped : s.Mapped k := by
        by_contra unmapped
        rw [lookup_unmapped unmapped] at looked
        cases looked
      have other : v ≠ w := by
        rintro rfl
        exact idle (by rw [← lookup_modifier uniform mapped small, looked]) ⟨mapped, rep⟩
      rw [after, (effect.count w looked rep).1]
      exact Function.update_of_ne other ..

end Counters

/-! ## The mask -/

/-- Bit `v` of `shift_state` says whether the counter of `v` is above zero. -/
def Masked (s : KeyState) : Prop :=
  ∀ v < 16, s.shiftState.getLsbD v = true ↔ s.shiftDown v ≠ 0

theorem masked_init (s : KeyState) : s.initKeycodeState.Masked := by
  intro v _
  simp [initKeycodeState]

theorem getLsbD_bit {v : Nat} (small : v < 16) (value : Nat) :
    (1#16 <<< value).getLsbD v = decide (v = value) := by
  rw [BitVec.getLsbD_shiftLeft, BitVec.getLsbD_one, Bool.eq_iff_iff]
  simp only [small, decide_true, Bool.true_and, Bool.and_eq_true, Bool.not_eq_true',
    decide_eq_false_iff_not, decide_eq_true_eq]
  omega

theorem shiftState_setShift (s : KeyState) {v : Nat} (small : v < 16) (value : Nat)
    (count : UInt8) : (s.setShift value count).shiftState.getLsbD v =
      if v = value then decide (count ≠ 0) else s.shiftState.getLsbD v := by
  have bit := getLsbD_bit small value
  by_cases zero : count = 0
  · simp only [setShift, zero, ne_eq, not_true_eq_false, if_false, BitVec.getLsbD_and,
      BitVec.getLsbD_not, bit, small, decide_true, Bool.true_and]
    by_cases same : v = value <;> simp [same]
  · simp only [setShift, zero, ne_eq, not_false_eq_true, if_true, BitVec.getLsbD_or, bit]
    by_cases same : v = value <;> simp [same]

theorem masked_setShift {s : KeyState} (masked : s.Masked) (value : Nat) (count : UInt8) :
    (s.setShift value count).Masked := by
  intro v small
  rw [shiftState_setShift s small]
  by_cases same : v = value
  · subst same
    rw [if_pos rfl, decide_eq_true_eq, shiftDown_setShift, Function.update_self]
  · rw [if_neg same, masked v small, shiftDown_setShift, Function.update_of_ne same]

theorem masked_after (k : Kernel) {s : KeyState} (masked : s.Masked) (e : Event) :
    (s.after k e).Masked := by
  rcases le_or_gt nrKeys e.keycode with large | small
  · rw [after_large large]
    exact masked
  have effect := (keycodeToKeysym_counts k s small e.down).2
  have still : (s.after k e).shiftDown = s.shiftDown ∧
      (s.after k e).shiftState = s.shiftState → (s.after k e).Masked := by
    intro same v bound
    rw [same.1, same.2]
    exact masked v bound
  cases looked : (lookup k s e.keycode).modifier with
  | none => exact still (effect.still (.inl looked))
  | some w =>
    cases rep : e.down && s.keyDown e.keycode with
    | true => exact still (effect.still (.inr rep))
    | false =>
      have moved := effect.count w looked rep
      intro v bound
      rw [after, moved.1, moved.2]
      exact masked_setShift masked _ _ v bound

end KeyState

end Ucimf.Keyboard
