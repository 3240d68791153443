import Mathlib.Algebra.Order.Round
import Mathlib.Tactic.Linarith

/-!
# The nearest integer, with either rule for ties

`nearest up v` rounds a half up or down. Seen from the other end of an interval the rules
change places.
-/

namespace Rounding

universe u
variable {K : Type u} [Field K] [LinearOrder K] [IsStrictOrderedRing K] [FloorRing K]

def nearest (up : Bool) (v : K) : Int := if up then round v else -round (-v)

theorem abs_sub_nearest_le (up : Bool) (v : K) : |v - nearest up v| ≤ 1 / 2 := by
  cases up with
  | true => exact abs_sub_round v
  | false =>
    have opposite := abs_sub_round (-v)
    rw [← abs_neg, neg_sub, sub_neg_eq_add] at opposite
    simpa [nearest, sub_eq_add_neg, add_comm] using opposite

@[simp] theorem nearest_intCast (up : Bool) (b : Int) : nearest up (b : K) = b := by
  cases up with
  | true => exact round_intCast b
  | false => simp [nearest, ← Int.cast_neg]

/-- Seen from an integer point a half that was rounded up is rounded down. -/
theorem nearest_sub (up : Bool) (b : Int) (v : K) : nearest (!up) (b - v) = b - nearest up v := by
  cases up with
  | true =>
    simp only [nearest, Bool.not_true, Bool.false_eq_true, if_false, if_true, neg_sub]
    rw [round_sub_intCast, neg_sub]
  | false =>
    simp only [nearest, Bool.not_false, Bool.false_eq_true, if_false, if_true]
    rw [sub_eq_add_neg, round_intCast_add, sub_neg_eq_add]

/-- When the rounded value lies beyond an integer. -/
theorem lt_nearest_iff {up : Bool} {v : K} {r : Int} :
    r < nearest up v ↔ (r : K) + 1 / 2 < v ∨ v = r + 1 / 2 ∧ up = true := by
  have half : (1 : K) / 2 + 1 / 2 = 1 := add_halves 1
  cases up with
  | true =>
    have beyond : r < round v ↔ (r : K) + 1 / 2 ≤ v := by
      rw [round_eq, ← Int.add_one_le_iff, Int.le_floor, Int.cast_add, Int.cast_one]
      constructor
      · intro h
        linarith
      · intro h
        linarith
    rw [nearest, if_pos rfl, beyond, le_iff_lt_or_eq, and_iff_left rfl, eq_comm]
  | false =>
    have beyond : round (-v) < -r ↔ (r : K) + 1 / 2 < v := by
      rw [round_eq, Int.floor_lt, Int.cast_neg]
      constructor
      · intro h
        linarith
      · intro h
        linarith
    simp only [nearest, Bool.false_eq_true, if_false, and_false, or_false]
    rw [← beyond, lt_neg]

theorem nearest_mono (up : Bool) {v w : K} (le : v ≤ w) : nearest up v ≤ nearest up w := by
  apply le_of_forall_lt
  intro r below
  rw [lt_nearest_iff] at below ⊢
  rcases below with past | ⟨rfl, tie⟩
  · exact .inl (past.trans_le le)
  · exact le.lt_or_eq.imp id fun same => ⟨same.symm, tie⟩

theorem nearest_add_one (up : Bool) (v : K) : nearest up (v + 1) = nearest up v + 1 := by
  cases up with
  | true => exact round_add_one v
  | false =>
    simp only [nearest, Bool.false_eq_true, if_false]
    rw [neg_add', round_sub_one, neg_sub, sub_eq_neg_add]

/-- A step of at most one moves the rounded value by one if it passes the middle. -/
theorem nearest_step (up : Bool) {v w : K} {r : Int} (rounded : nearest up v = r) (le : v ≤ w)
    (short : w ≤ v + 1) :
    nearest up w = if (r : K) + 1 / 2 < w ∨ w = r + 1 / 2 ∧ up = true then r + 1 else r := by
  have lower := nearest_mono up le
  have upper := nearest_mono up short
  rw [nearest_add_one, rounded] at upper
  rw [rounded] at lower
  split
  · next past => exact le_antisymm upper (lt_nearest_iff.mpr past)
  · next before => exact le_antisymm (not_lt.mp (mt lt_nearest_iff.mp before)) lower

end Rounding
