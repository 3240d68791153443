import Ucimf.Display.GraphDev
import Ucimf.Support.Loop
import Ucimf.Support.Nearest
import Mathlib.Data.Rat.Floor
import Mathlib.Tactic.FieldSimp
import Mathlib.Tactic.Positivity

/-!
# Lines

`DrawLine` walks along the longer side of a line and keeps twice the error of the shorter
one. A tie goes up or down with the direction of the walk, so that the walk from the other
end meets the same pixels.
-/

namespace Ucimf.Display

open Loop Rounding

/-- The variables of the loops of `DrawLine`. -/
structure Pen where
  x : Int
  y : Int
  d : Int

def sign (v : Int) : Int := if 0 ≤ v then 1 else -1

/-- A round of the loop along `x`, behind its `PutPixel`. -/
def stepX (ax ay sx sy : Int) (p : Pen) : Pen :=
  let p := if 0 < p.d ∨ (p.d = 0 ∧ sx = 1) then { p with y := p.y + sy, d := p.d - ax } else p
  { p with x := p.x + sx, d := p.d + ay }

/-- A round of the loop along `y`. -/
def stepY (ax ay sx sy : Int) (p : Pen) : Pen :=
  let p := if 0 < p.d ∨ (p.d = 0 ∧ sy = 1) then { p with x := p.x + sx, d := p.d - ay } else p
  { p with y := p.y + sy, d := p.d + ax }

variable {Px : Type}

namespace GraphDev

/-- `DrawLine` on a driver with the given `PutPixel`; `none` is a loop that has not ended when the
fuel is used up. -/
def drawLine (dev : GraphDev Px) {S : Type} (putPixel : S → Int → Int → Except Fault S)
    (fuel : Nat) (x1 y1 x2 y2 : Int) (s : S) : Option (Except Fault S) :=
  if dev.OnScreen x1 y1 ∧ dev.OnScreen x2 y2 then
    let dx := x2 - x1
    let dy := y2 - y1
    let ax : Int := dx.natAbs * 2
    let ay : Int := dy.natAbs * 2
    let sx := sign dx
    let sy := sign dy
    let plot (p : Pen) (s : S) := putPixel s p.x p.y
    let ended :=
      if ay < ax then
        whileLoop (fun p => decide (p.x ≠ x2)) plot (stepX ax ay sx sy) fuel
          ⟨x1, y1, ay - ax / 2⟩ s
      else
        whileLoop (fun p => decide (p.y ≠ y2)) plot (stepY ax ay sx sy) fuel
          ⟨x1, y1, ax - ay / 2⟩ s
    ended.map fun r => r >>= fun last => plot last.1 last.2
  else some (.error .range)

/-- `DrawLine` on the framebuffer. -/
def drawLineColor (dev : GraphDev Px) (fuel : Nat) (x1 y1 x2 y2 : Int) (color : Px) :
    Option (Except Fault (GraphDev Px)) :=
  dev.drawLine (fun d x y => d.putPixel x y color) fuel x1 y1 x2 y2 dev

end GraphDev

/-! ### The shorter side -/

/-- How far the shorter side `b` has come after `k` of the `a` steps of the longer one. -/
def minor (up : Bool) (a b k : Nat) : Int := nearest up ((b : ℚ) * k / a)

section Minor
variable {up : Bool} {a b k : Nat}

@[simp] theorem minor_zero (up : Bool) (a b : Nat) : minor up a b 0 = 0 := by
  have zero : (b : ℚ) * (0 : Nat) / a = (0 : Int) := by simp
  rw [minor, zero, nearest_intCast]

theorem minor_full (up : Bool) (small : b ≤ a) : minor up a b a = b := by
  have full : (b : ℚ) * a / a = (b : Int) := by
    rcases Nat.eq_zero_or_pos a with rfl | positive
    · simp [Nat.le_zero.mp small]
    · have nonzero : (a : ℚ) ≠ 0 := by exact_mod_cast positive.ne'
      rw [mul_div_cancel_right₀ _ nonzero]
      rfl
  rw [minor, full, nearest_intCast]

theorem minor_mono {l : Nat} (up : Bool) (a b : Nat) (le : k ≤ l) :
    minor up a b k ≤ minor up a b l := by
  have cast : (k : ℚ) ≤ l := by exact_mod_cast le
  apply nearest_mono
  gcongr

theorem minor_nonneg (up : Bool) (a b k : Nat) : 0 ≤ minor up a b k := by
  rw [← minor_zero up a b]
  exact minor_mono up a b (Nat.zero_le k)

theorem minor_le (up : Bool) (small : b ≤ a) (within : k ≤ a) : minor up a b k ≤ b := by
  rw [← minor_full up small]
  exact minor_mono up a b within

theorem minor_reverse (positive : 0 < a) (within : k ≤ a) :
    minor (!up) a b (a - k) = b - minor up a b k := by
  have nonzero : (a : ℚ) ≠ 0 := by exact_mod_cast positive.ne'
  have rest : (b : ℚ) * (a - k : Nat) / a = (b : Int) - (b : ℚ) * k / a := by
    rw [Nat.cast_sub within, Int.cast_natCast]
    field_simp
  rw [minor, rest, nearest_sub, minor]

/-- The test of the loops, in terms of the error term they keep. -/
theorem past_iff (positive : 0 < a) (b l : Nat) (r : Int) :
    ((r : ℚ) + 1 / 2 < (b : ℚ) * l / a ∨ (b : ℚ) * l / a = r + 1 / 2 ∧ up = true) ↔
      0 < 2 * b * l - a * (2 * r + 1) ∨ (2 * b * l - a * (2 * r + 1) = 0 ∧ up = true) := by
  have side : (0 : ℚ) < a := by exact_mod_cast positive
  have past : (r : ℚ) + 1 / 2 < (b : ℚ) * l / a ↔ 0 < 2 * b * l - a * (2 * r + 1) := by
    rw [lt_div_iff₀ side, ← @Int.cast_lt ℚ]
    push_cast
    constructor
    · intro h
      linarith
    · intro h
      linarith
  have tie : (b : ℚ) * l / a = r + 1 / 2 ↔ 2 * b * l - a * (2 * r + 1) = 0 := by
    rw [div_eq_iff side.ne', ← @Int.cast_inj ℚ]
    push_cast
    constructor
    · intro h
      linarith
    · intro h
      linarith
  rw [past, tie]

theorem minor_succ (up : Bool) (positive : 0 < a) (small : b ≤ a) (k : Nat) :
    minor up a b (k + 1) =
      if 0 < 2 * b * (k + 1 : Nat) - a * (2 * minor up a b k + 1) ∨
          (2 * b * (k + 1 : Nat) - a * (2 * minor up a b k + 1) = 0 ∧ up = true)
      then minor up a b k + 1 else minor up a b k := by
  have side : (0 : ℚ) < a := by exact_mod_cast positive
  have step : (b : ℚ) / a ≤ 1 := (div_le_one side).mpr (by exact_mod_cast small)
  have next : (b : ℚ) * (k + 1 : Nat) / a = (b : ℚ) * k / a + b / a := by
    push_cast
    ring
  have moved := nearest_step up (v := (b : ℚ) * k / a) rfl
    (w := (b : ℚ) * (k + 1 : Nat) / a) (by rw [next]; exact le_add_of_nonneg_right (by positivity))
    (by rw [next]; gcongr)
  simp only [past_iff positive] at moved
  exact moved

end Minor

/-! ### The walk -/

/-- The variables after `k` rounds of the loop along `x`. -/
def penAt (x1 y1 : Int) (a b : Nat) (sx sy : Int) (k : Nat) : Pen where
  x := x1 + sx * k
  y := y1 + sy * minor (sx = 1) a b k
  d := 2 * b * (k + 1 : Nat) - a * (2 * minor (sx = 1) a b k + 1)

section Walk
variable {x1 y1 sx sy : Int} {a b : Nat}

theorem penAt_zero : penAt x1 y1 a b sx sy 0 = ⟨x1, y1, b * 2 - a * 2 / 2⟩ := by
  have halved : (a : Int) * 2 / 2 = a := Int.mul_ediv_cancel _ (by decide)
  simp only [penAt, minor_zero, Pen.mk.injEq, halved]
  refine ⟨by simp, by simp, ?_⟩
  push_cast
  ring

theorem stepX_past {ax ay : Int} {p : Pen} (past : 0 < p.d ∨ (p.d = 0 ∧ sx = 1)) :
    stepX ax ay sx sy p = ⟨p.x + sx, p.y + sy, p.d - ax + ay⟩ := by
  rw [stepX, if_pos past]

theorem stepX_before {ax ay : Int} {p : Pen} (before : ¬ (0 < p.d ∨ (p.d = 0 ∧ sx = 1))) :
    stepX ax ay sx sy p = ⟨p.x + sx, p.y, p.d + ay⟩ := by
  rw [stepX, if_neg before]

theorem stepX_penAt (positive : 0 < a) (small : b ≤ a) (k : Nat) :
    stepX (a * 2) (b * 2) sx sy (penAt x1 y1 a b sx sy k) = penAt x1 y1 a b sx sy (k + 1) := by
  have moved := minor_succ (sx = 1) positive small k
  simp only [decide_eq_true_eq] at moved
  by_cases past : 0 < (penAt x1 y1 a b sx sy k).d ∨ ((penAt x1 y1 a b sx sy k).d = 0 ∧ sx = 1)
  · have next := moved.trans (if_pos past)
    rw [stepX_past past]
    simp only [penAt, next, Pen.mk.injEq]
    push_cast
    exact ⟨by ring, by ring, by ring⟩
  · have next := moved.trans (if_neg past)
    rw [stepX_before past]
    simp only [penAt, next, Pen.mk.injEq]
    push_cast
    exact ⟨by ring, trivial, by ring⟩

theorem stepX_iterate (small : b ≤ a) {k : Nat} (within : k ≤ a) :
    (stepX (a * 2) (b * 2) sx sy)^[k] ⟨x1, y1, b * 2 - a * 2 / 2⟩ = penAt x1 y1 a b sx sy k := by
  induction k with
  | zero => exact penAt_zero.symm
  | succ k ih =>
    have positive : 0 < a := Nat.zero_lt_of_lt within
    rw [Function.iterate_succ_apply', ih (Nat.le_of_succ_le within), stepX_penAt positive small]

/-- The loop along `y` is the loop along `x` of the mirrored line. -/
def Pen.mirror (p : Pen) : Pen := ⟨p.y, p.x, p.d⟩

theorem stepY_mirror (ax ay : Int) (p : Pen) :
    stepY ax ay sx sy p.mirror = (stepX ay ax sy sx p).mirror := by
  by_cases past : 0 < p.d ∨ (p.d = 0 ∧ sy = 1)
  · have mirrored : 0 < p.mirror.d ∨ (p.mirror.d = 0 ∧ sy = 1) := past
    rw [stepX_past past, stepY, if_pos mirrored]
    rfl
  · have mirrored : ¬ (0 < p.mirror.d ∨ (p.mirror.d = 0 ∧ sy = 1)) := past
    rw [stepX_before past, stepY, if_neg mirrored]
    rfl

theorem stepY_iterate (small : b ≤ a) {k : Nat} (within : k ≤ a) :
    (stepY (b * 2) (a * 2) sx sy)^[k] ⟨x1, y1, b * 2 - a * 2 / 2⟩ =
      (penAt y1 x1 a b sy sx k).mirror := by
  rw [← stepX_iterate small within]
  have commutes : Function.Semiconj Pen.mirror (stepX (a * 2) (b * 2) sy sx)
      (stepY (b * 2) (a * 2) sx sy) := fun p => (stepY_mirror _ _ p).symm
  exact ((commutes.iterate_right k) ⟨y1, x1, b * 2 - a * 2 / 2⟩).symm

theorem iterate_stepX (small : b ≤ a) :
    List.iterate (stepX (a * 2) (b * 2) sx sy) ⟨x1, y1, b * 2 - a * 2 / 2⟩ (a + 1) =
      (List.range (a + 1)).map (penAt x1 y1 a b sx sy) := by
  rw [← List.range_map_iterate]
  apply List.map_congr_left
  intro k member
  exact stepX_iterate small (Nat.le_of_lt_succ (List.mem_range.mp member))

end Walk

/-! ### The pixels -/

/-- The pixels of a line along the first coordinate. -/
def pixels (x1 y1 : Int) (a b : Nat) (sx sy : Int) : List Point :=
  (List.range (a + 1)).map fun (k : Nat) => (x1 + sx * k, y1 + sy * minor (sx = 1) a b k)

/-- The pixels between two points, in the order they are plotted in. -/
def linePixels (x1 y1 x2 y2 : Int) : List Point :=
  let dx := x2 - x1
  let dy := y2 - y1
  if dy.natAbs < dx.natAbs then pixels x1 y1 dx.natAbs dy.natAbs (sign dx) (sign dy)
  else (pixels y1 x1 dy.natAbs dx.natAbs (sign dy) (sign dx)).map Prod.swap

theorem sign_eq (v : Int) : sign v = 1 ∨ sign v = -1 := by
  unfold sign
  split
  · exact .inl rfl
  · exact .inr rfl

theorem sign_mul_natAbs (v : Int) : sign v * v.natAbs = v := by
  unfold sign
  split
  · omega
  · omega

/-- The end of the longer side is reached in its last step and not before. -/
theorem reaches_iff {v w : Int} {k : Nat} :
    v + sign (w - v) * k = w ↔ k = (w - v).natAbs := by
  have total := sign_mul_natAbs (w - v)
  rcases sign_eq (w - v) with up | down
  · rw [up] at total ⊢
    omega
  · rw [down] at total ⊢
    omega

namespace GraphDev

/-- With fuel for all of its rounds `DrawLine` calls `PutPixel` for these points, in this order, and
for no other, whatever `PutPixel` does. -/
def Plots (dev : GraphDev Px) (x1 y1 x2 y2 : Int) (calls : List Point) : Prop :=
  ∀ (S : Type) (putPixel : S → Int → Int → Except Fault S) (s : S) (fuel : Nat),
    calls.length ≤ fuel → dev.drawLine putPixel fuel x1 y1 x2 y2 s =
      some (calls.foldlM (fun s p => putPixel s p.1 p.2) s)

variable {dev : GraphDev Px} {x1 y1 x2 y2 : Int}

theorem plots_linePixels (start : dev.OnScreen x1 y1) (finish : dev.OnScreen x2 y2) :
    dev.Plots x1 y1 x2 y2 (linePixels x1 y1 x2 y2) := by
  intro S putPixel s fuel enough
  rw [drawLine, if_pos ⟨start, finish⟩]
  unfold linePixels at enough ⊢
  dsimp only at enough ⊢
  by_cases wide : (y2 - y1).natAbs < (x2 - x1).natAbs
  · have longer : ((y2 - y1).natAbs : Int) * 2 < (x2 - x1).natAbs * 2 := by omega
    rw [if_pos wide] at enough ⊢
    rw [pixels, List.length_map, List.length_range] at enough
    rw [if_pos longer]
    refine (whileLoop_walk _ (fun k within => stepX_iterate wide.le within) ?_ enough s).trans ?_
    · intro k
      exact decide_eq_true_iff.trans (not_congr reaches_iff)
    · rw [pixels, List.foldlM_map, List.foldlM_map]
      rfl
  · have longer : ¬ ((y2 - y1).natAbs : Int) * 2 < (x2 - x1).natAbs * 2 := by omega
    have steep := Nat.not_lt.mp wide
    rw [if_neg wide] at enough ⊢
    rw [List.length_map, pixels, List.length_map, List.length_range] at enough
    rw [if_neg longer]
    refine (whileLoop_walk _ (fun k within => stepY_iterate steep within) ?_ enough s).trans ?_
    · intro k
      exact decide_eq_true_iff.trans (not_congr reaches_iff)
    · rw [pixels, List.map_map, List.foldlM_map, List.foldlM_map]
      rfl

end GraphDev

end Ucimf.Display
