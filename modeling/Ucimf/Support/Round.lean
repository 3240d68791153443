import Mathlib.Algebra.Ring.Int.Defs

/-!
# Going round

An index goes forward and backward through `n` places and starts over at either end. After
any number of steps it stands where the difference of the two, taken modulo `n`, stands.
-/

namespace Round

/-- The place `d` steps from the first, counted round. -/
def place (n : Nat) (d : Int) : Nat := (d % n).toNat

def forward (n i : Nat) : Nat := if n ≤ i + 1 then 0 else i + 1

def backward (n i : Nat) : Nat := if i = 0 then n - 1 else i - 1

variable {n : Nat}

theorem natCast_place (used : 0 < n) (d : Int) : (place n d : Int) = d % n :=
  Int.toNat_of_nonneg (Int.emod_nonneg d (by omega))

theorem place_lt (used : 0 < n) (d : Int) : place n d < n := by
  have below := Int.emod_lt_of_pos d (b := n) (by omega)
  rw [← natCast_place used] at below
  omega

/-- A place is known by a multiple of `n`. -/
theorem place_eq_of {d : Int} {i : Nat} (inside : i < n) {q : Int} (apart : d = i + n * q) :
    place n d = i := by
  rw [place, apart, Int.add_mul_emod_self_left, Int.emod_eq_of_lt (by omega) (by omega)]
  exact Int.toNat_natCast i

theorem forward_place (used : 0 < n) (d : Int) : forward n (place n d) = place n (d + 1) := by
  have inside := place_lt used d
  have apart : d = place n d + n * (d / n) := by
    rw [natCast_place used]
    exact (Int.emod_add_mul_ediv d n).symm
  unfold forward
  split
  · have last : place n d + 1 = n := by omega
    symm
    apply place_eq_of used (q := d / n + 1)
    rw [mul_add, mul_one]
    omega
  · symm
    apply place_eq_of (by omega) (q := d / n)
    omega

theorem backward_place (used : 0 < n) (d : Int) : backward n (place n d) = place n (d - 1) := by
  have inside := place_lt used d
  have apart : d = place n d + n * (d / n) := by
    rw [natCast_place used]
    exact (Int.emod_add_mul_ediv d n).symm
  unfold backward
  split
  · symm
    apply place_eq_of (by omega) (q := d / n - 1)
    rw [mul_sub, mul_one]
    omega
  · symm
    apply place_eq_of (by omega) (q := d / n)
    omega

theorem place_zero : place n 0 = 0 := rfl

end Round
