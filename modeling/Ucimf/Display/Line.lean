import Ucimf.Display.DrawLine
import Ucimf.Display.Widgets
import Mathlib.Tactic.LinearCombination

/-!
# What a line looks like

A line has one pixel for each value of its longer coordinate, each within half a pixel of the
segment between its ends. Drawn from either end it has the same pixels.
-/

namespace Ucimf.Display

open Rounding

/-- The pixels go from one point to the other, one for each value of the major coordinate, and
each lies within half a pixel of the segment in the minor direction. -/
structure Walks (major minor : Point → Int) (p q : Point) (calls : List Point) : Prop where
  steps : ∀ (k : Nat) (h : k < calls.length),
    major calls[k] = major p + sign (major q - major p) * k
  near : ∀ r ∈ calls, |(minor r : ℚ) - (minor p + (major r - major p : ℚ) *
    ((minor q - minor p : ℚ) / (major q - major p)))| ≤ 1 / 2

/-- The major coordinate is the one that the ends differ more in. -/
structure IsLine (p q : Point) (calls : List Point) : Prop where
  count : calls.length = max (q.1 - p.1).natAbs (q.2 - p.2).natAbs + 1
  start : calls.head? = some p
  finish : calls.getLast? = some q
  inside : ∀ r ∈ calls, r ∈ box (min p.1 q.1) (min p.2 q.2) (max p.1 q.1) (max p.2 q.2)
  wide : (q.2 - p.2).natAbs < (q.1 - p.1).natAbs → Walks Prod.fst Prod.snd p q calls
  steep : (q.1 - p.1).natAbs ≤ (q.2 - p.2).natAbs → Walks Prod.snd Prod.fst p q calls

section Pixels
variable {x1 y1 x2 y2 : Int} {a b : Nat}

/-- The pixel behind `k` steps. -/
def pixelAt (x1 y1 : Int) (a b : Nat) (sx sy : Int) (k : Nat) : Point :=
  (x1 + sx * k, y1 + sy * minor (sx = 1) a b k)

theorem mem_pixels {sx sy : Int} {r : Point} :
    r ∈ pixels x1 y1 a b sx sy ↔ ∃ k ≤ a, pixelAt x1 y1 a b sx sy k = r := by
  simp only [pixels, pixelAt, List.mem_map, List.mem_range, Nat.lt_succ_iff]

theorem add_sign_mul (v w : Int) : v + sign (w - v) * (w - v).natAbs = w := by
  rw [sign_mul_natAbs]
  ring

theorem between_of_le {v w j : Int} (lower : 0 ≤ j) (upper : j ≤ (w - v).natAbs) :
    min v w ≤ v + sign (w - v) * j ∧ v + sign (w - v) * j ≤ max v w := by
  have total := add_sign_mul v w
  rcases sign_eq (w - v) with up | down
  · rw [up] at total ⊢
    omega
  · rw [down] at total ⊢
    omega

theorem pixelAt_full (small : (y2 - y1).natAbs ≤ (x2 - x1).natAbs) :
    pixelAt x1 y1 (x2 - x1).natAbs (y2 - y1).natAbs (sign (x2 - x1)) (sign (y2 - y1))
      (x2 - x1).natAbs = (x2, y2) := by
  rw [pixelAt, minor_full _ small, add_sign_mul, add_sign_mul]

theorem abs_sign (v : Int) : |(sign v : ℚ)| = 1 := by
  rcases sign_eq v with up | down
  · rw [up]
    simp
  · rw [down]
    simp

/-- A pixel is off the segment by what rounding its minor coordinate adds. -/
theorem near_pixelAt {sx sy : Int} (hx : |(sx : ℚ)| = 1) (hy : |(sy : ℚ)| = 1) (k : Nat) :
    |((pixelAt x1 y1 a b sx sy k).2 : ℚ) - (y1 + ((pixelAt x1 y1 a b sx sy k).1 - x1 : ℚ) *
      ((sy * b : ℚ) / (sx * a)))| ≤ 1 / 2 := by
  have rounded := abs_sub_nearest_le (decide (sx = 1)) ((b : ℚ) * k / a)
  have unit : (sx : ℚ) ≠ 0 := abs_ne_zero.mp (hx ▸ one_ne_zero)
  have slope : (sx * k : ℚ) * ((sy * b : ℚ) / (sx * a)) = sy * ((b : ℚ) * k / a) := by
    rw [mul_div_mul_comm, ← mul_assoc]
    field_simp
  have off : ((pixelAt x1 y1 a b sx sy k).2 : ℚ) -
      (y1 + ((pixelAt x1 y1 a b sx sy k).1 - x1 : ℚ) * ((sy * b : ℚ) / (sx * a))) =
        sy * (minor (sx = 1) a b k - (b : ℚ) * k / a) := by
    have along : ((pixelAt x1 y1 a b sx sy k).1 - x1 : ℚ) = sx * k := by
      simp [pixelAt]
    rw [along, slope, pixelAt]
    push_cast
    ring
  rw [off, abs_mul, hy, one_mul, abs_sub_comm]
  exact rounded

theorem cast_sub_eq (v w : Int) :
    (w : ℚ) - v = (sign (w - v) : ℚ) * ((w - v).natAbs : ℚ) := by
  have total := congrArg (Int.cast : Int → ℚ) (sign_mul_natAbs (w - v))
  rw [Int.cast_mul, Int.cast_sub, Int.cast_natCast] at total
  exact total.symm

theorem walks_pixels (x1 y1 x2 y2 : Int) :
    Walks Prod.fst Prod.snd (x1, y1) (x2, y2)
      (pixels x1 y1 (x2 - x1).natAbs (y2 - y1).natAbs (sign (x2 - x1)) (sign (y2 - y1))) where
  steps k h := by
    simp [pixels]
  near r member := by
    obtain ⟨k, -, rfl⟩ := mem_pixels.mp member
    rw [cast_sub_eq x1 x2, cast_sub_eq y1 y2]
    exact near_pixelAt (abs_sign _) (abs_sign _) k

theorem Walks.mirror {p q : Point} {calls : List Point}
    (walks : Walks Prod.fst Prod.snd p.swap q.swap calls) :
    Walks Prod.snd Prod.fst p q (calls.map Prod.swap) where
  steps k h := by
    rw [List.length_map] at h
    simpa using walks.steps k h
  near r member := by
    obtain ⟨t, inside, rfl⟩ := List.mem_map.mp member
    exact walks.near t inside

theorem pixels_head {sx sy : Int} : (pixels x1 y1 a b sx sy).head? = some (x1, y1) := by
  rw [pixels, List.head?_map, List.head?_range, if_neg (Nat.succ_ne_zero a), Option.map_some]
  simp

theorem pixels_last (small : (y2 - y1).natAbs ≤ (x2 - x1).natAbs) :
    (pixels x1 y1 (x2 - x1).natAbs (y2 - y1).natAbs (sign (x2 - x1)) (sign (y2 - y1))).getLast? =
      some (x2, y2) := by
  rw [pixels, List.getLast?_map, List.range_succ, List.getLast?_concat, Option.map_some]
  exact congrArg some (pixelAt_full small)

theorem pixels_inside (small : (y2 - y1).natAbs ≤ (x2 - x1).natAbs) {r : Point}
    (member : r ∈ pixels x1 y1 (x2 - x1).natAbs (y2 - y1).natAbs (sign (x2 - x1))
      (sign (y2 - y1))) :
    r ∈ box (min x1 x2) (min y1 y2) (max x1 x2) (max y1 y2) := by
  obtain ⟨k, within, rfl⟩ := mem_pixels.mp member
  have column := between_of_le (v := x1) (w := x2) (Int.natCast_nonneg k) (by exact_mod_cast within)
  have row := between_of_le (v := y1) (w := y2)
    (minor_nonneg (sign (x2 - x1) = 1) (x2 - x1).natAbs (y2 - y1).natAbs k)
    (minor_le _ small within)
  exact ⟨column.1, column.2, row.1, row.2⟩

end Pixels

theorem isLine_linePixels (x1 y1 x2 y2 : Int) :
    IsLine (x1, y1) (x2, y2) (linePixels x1 y1 x2 y2) := by
  by_cases wide : (y2 - y1).natAbs < (x2 - x1).natAbs
  · have drawn : linePixels x1 y1 x2 y2 = _ := if_pos wide
    rw [drawn]
    exact {
      count := by
        rw [pixels, List.length_map, List.length_range, max_eq_left wide.le]
      start := pixels_head
      finish := pixels_last wide.le
      inside := fun r member => pixels_inside wide.le member
      wide := fun _ => walks_pixels x1 y1 x2 y2
      steep := fun steep => absurd wide (Nat.not_lt.mpr steep) }
  · have drawn : linePixels x1 y1 x2 y2 = _ := if_neg wide
    have steep := Nat.not_lt.mp wide
    rw [drawn]
    exact {
      count := by
        rw [List.length_map, pixels, List.length_map, List.length_range, max_eq_right steep]
      start := by
        rw [List.head?_map, pixels_head]
        rfl
      finish := by
        rw [List.getLast?_map, pixels_last steep]
        rfl
      inside := fun r member => by
        obtain ⟨t, inside, rfl⟩ := List.mem_map.mp member
        have mirrored := pixels_inside steep inside
        exact ⟨mirrored.2.2.1, mirrored.2.2.2, mirrored.1, mirrored.2.1⟩
      wide := fun shallow => absurd shallow wide
      steep := fun _ => Walks.mirror (p := (x1, y1)) (q := (x2, y2)) (walks_pixels y1 x1 y2 x2) }

/-! ### From the other end -/

section Reverse
variable {x1 y1 x2 y2 : Int}

theorem natAbs_sub_comm (v w : Int) : (v - w).natAbs = (w - v).natAbs := by
  rw [← Int.natAbs_neg, neg_sub]

theorem sign_sub_comm {v w : Int} (apart : v ≠ w) : sign (v - w) = -sign (w - v) := by
  unfold sign
  split <;> split <;> omega

/-- The step that is `k` steps before the end meets the pixel behind `k` steps from the other
end. -/
theorem pixelAt_reverse (small : (y2 - y1).natAbs ≤ (x2 - x1).natAbs) {k : Nat}
    (within : k ≤ (x2 - x1).natAbs) :
    pixelAt x2 y2 (x2 - x1).natAbs (y2 - y1).natAbs (sign (x1 - x2)) (sign (y1 - y2))
        ((x2 - x1).natAbs - k) =
      pixelAt x1 y1 (x2 - x1).natAbs (y2 - y1).natAbs (sign (x2 - x1)) (sign (y2 - y1)) k := by
  by_cases apart : x1 = x2
  · obtain rfl : y1 = y2 := by omega
    obtain rfl : k = 0 := by omega
    subst apart
    have point : (x1 - x1).natAbs = 0 := by omega
    rw [point]
  have positive : 0 < (x2 - x1).natAbs := by omega
  have sx := sign_sub_comm apart
  have rule : decide (-sign (x2 - x1) = 1) = !decide (sign (x2 - x1) = 1) := by
    rcases sign_eq (x2 - x1) with up | down
    · rw [up]
      rfl
    · rw [down]
      rfl
  have column : x2 + sign (x1 - x2) * (((x2 - x1).natAbs - k : Nat) : Int) =
      x1 + sign (x2 - x1) * k := by
    have total := add_sign_mul x1 x2
    rw [Nat.cast_sub within, sx]
    linear_combination -total
  have row : y2 + sign (y1 - y2) * ((y2 - y1).natAbs - minor (sign (x2 - x1) = 1)
      (x2 - x1).natAbs (y2 - y1).natAbs k) = y1 + sign (y2 - y1) * minor (sign (x2 - x1) = 1)
      (x2 - x1).natAbs (y2 - y1).natAbs k := by
    have total := add_sign_mul y1 y2
    by_cases level : y1 = y2
    · subst level
      have lower := minor_nonneg (sign (x2 - x1) = 1) (x2 - x1).natAbs (y1 - y1).natAbs k
      have upper := minor_le (sign (x2 - x1) = 1) small within
      rw [sub_self, Int.natAbs_zero, Nat.cast_zero] at upper
      rw [sub_self, Int.natAbs_zero] at lower ⊢
      rw [le_antisymm upper lower]
      simp
    · rw [sign_sub_comm level]
      linear_combination -total
  rw [pixelAt, sx, rule, minor_reverse positive within, ← sx, column, row, pixelAt]

theorem mem_pixels_reverse (small : (y2 - y1).natAbs ≤ (x2 - x1).natAbs) {r : Point}
    (member : r ∈ pixels x1 y1 (x2 - x1).natAbs (y2 - y1).natAbs (sign (x2 - x1))
      (sign (y2 - y1))) :
    r ∈ pixels x2 y2 (x1 - x2).natAbs (y1 - y2).natAbs (sign (x1 - x2)) (sign (y1 - y2)) := by
  obtain ⟨k, within, rfl⟩ := mem_pixels.mp member
  rw [natAbs_sub_comm x1 x2, natAbs_sub_comm y1 y2]
  exact mem_pixels.mpr ⟨_, Nat.sub_le _ k, pixelAt_reverse small within⟩

theorem mem_linePixels_reverse {r : Point} (member : r ∈ linePixels x1 y1 x2 y2) :
    r ∈ linePixels x2 y2 x1 y1 := by
  unfold linePixels at member ⊢
  dsimp only at member ⊢
  rw [natAbs_sub_comm y1 y2, natAbs_sub_comm x1 x2]
  by_cases wide : (y2 - y1).natAbs < (x2 - x1).natAbs
  · rw [if_pos wide] at member ⊢
    rw [← natAbs_sub_comm x1 x2, ← natAbs_sub_comm y1 y2]
    exact mem_pixels_reverse wide.le member
  · rw [if_neg wide] at member ⊢
    obtain ⟨t, inside, rfl⟩ := List.mem_map.mp member
    rw [← natAbs_sub_comm x1 x2, ← natAbs_sub_comm y1 y2]
    exact List.mem_map_of_mem (mem_pixels_reverse (Nat.not_lt.mp wide) inside)

end Reverse

/-! ### The dots of an outline -/

theorem lineWalk_eq (sx sy ax ay : Int) (n : Nat) (p : Pen) :
    lineWalk sx sy ax ay n p.x p.y p.d =
      (List.iterate (stepX ax ay sx sy) p (n + 1)).map fun q => (q.x, q.y) := by
  induction n generalizing p with
  | zero => rfl
  | succ n ih =>
    rw [List.iterate, List.map_cons, ← ih, lineWalk]
    split
    · next past => rw [stepX_past past]
    · next before => rw [stepX_before before]

theorem lineWalk_pixels {a b : Nat} (x1 y1 sx sy : Int) (small : b ≤ a) :
    lineWalk sx sy (a * 2) (b * 2) a x1 y1 (b * 2 - a * 2 / 2) = pixels x1 y1 a b sx sy := by
  rw [lineWalk_eq sx sy (a * 2) (b * 2) a ⟨x1, y1, b * 2 - a * 2 / 2⟩, iterate_stepX small,
    List.map_map]
  rfl

/-- The outline of a rectangle is drawn with the dots that the loops plot. -/
theorem drawLine_eq_linePixels (x1 y1 x2 y2 : Int) :
    drawLine x1 y1 x2 y2 = linePixels x1 y1 x2 y2 := by
  have doubled (n : Nat) : ((2 * n : Nat) : Int) = n * 2 := by
    push_cast
    ring
  have halved (n : Nat) : (n : Int) * 2 / 2 = n := Int.mul_ediv_cancel _ (by decide)
  unfold drawLine linePixels
  dsimp only
  by_cases wide : (y2 - y1).natAbs < (x2 - x1).natAbs
  · have walk := lineWalk_pixels x1 y1 (sign (x2 - x1)) (sign (y2 - y1)) wide.le
    rw [halved] at walk
    rw [if_pos (by omega), if_pos wide, doubled, doubled]
    exact walk
  · have steep := Nat.not_lt.mp wide
    have walk := lineWalk_pixels y1 x1 (sign (y2 - y1)) (sign (x2 - x1)) steep
    rw [halved] at walk
    rw [if_neg (by omega), if_neg wide, doubled, doubled]
    exact congrArg (List.map Prod.swap) walk

/-! ### On the framebuffer -/

variable {Px : Type}

namespace GraphDev

variable {dev : GraphDev Px} {x1 y1 x2 y2 : Int}

theorem foldlM_putPixel {calls : List Point} (color : Px)
    (visible : ∀ p ∈ calls, dev.OnScreen p.1 p.2) :
    calls.foldlM (fun d p => d.putPixel p.1 p.2 color) dev =
      .ok { dev with pixel := fun p => if p ∈ calls then color else dev.pixel p } := by
  induction calls generalizing dev with
  | nil => rfl
  | cons p calls ih =>
    have first := visible p List.mem_cons_self
    rw [List.foldlM_cons, putPixel, if_pos first, Outcome.ok_bind, ih]
    · congr 2
      funext q
      by_cases same : q = (p.1, p.2)
      · simp [same]
      · have other : q ≠ p := same
        simp [other]
    · intro q inside
      exact visible q (List.mem_cons_of_mem p inside)

theorem onScreen_of_inside (start : dev.OnScreen x1 y1) (finish : dev.OnScreen x2 y2) {p : Point}
    (inside : p ∈ box (min x1 x2) (min y1 y2) (max x1 x2) (max y1 y2)) : dev.OnScreen p.1 p.2 := by
  obtain ⟨left, right, top, bottom⟩ := inside
  obtain ⟨sx, sx', sy, sy'⟩ := start
  obtain ⟨fx, fx', fy, fy'⟩ := finish
  exact ⟨(le_min sx fx).trans left, right.trans_lt (max_lt sx' fx'),
    (le_min sy fy).trans top, bottom.trans_lt (max_lt sy' fy')⟩

theorem Plots.drawLineColor {calls : List Point} (plots : dev.Plots x1 y1 x2 y2 calls)
    (visible : ∀ p ∈ calls, dev.OnScreen p.1 p.2) (color : Px) {fuel : Nat}
    (enough : calls.length ≤ fuel) :
    dev.drawLineColor fuel x1 y1 x2 y2 color =
      some (.ok { dev with pixel := fun p => if p ∈ calls then color else dev.pixel p }) := by
  rw [GraphDev.drawLineColor, plots _ _ _ _ enough]
  exact congrArg some (foldlM_putPixel color visible)

/-- Between two points of the screen `DrawLine` ends, having plotted the line, and no `PutPixel`
lies off the screen. -/
theorem drawLine_line (start : dev.OnScreen x1 y1) (finish : dev.OnScreen x2 y2) :
    ∃ calls, dev.Plots x1 y1 x2 y2 calls ∧ IsLine (x1, y1) (x2, y2) calls ∧
      ∀ p ∈ calls, dev.OnScreen p.1 p.2 := by
  have line := isLine_linePixels x1 y1 x2 y2
  refine ⟨linePixels x1 y1 x2 y2, plots_linePixels start finish, line, fun p member => ?_⟩
  exact onScreen_of_inside start finish (line.inside p member)

/-- A small black screen. -/
def sheet : GraphDev Bool := ⟨8, 8, fun _ => false⟩

theorem drawLine_line_sheet :
    ∃ calls, sheet.Plots 6 1 1 4 calls ∧ IsLine (6, 1) (1, 4) calls ∧
      ∀ p ∈ calls, sheet.OnScreen p.1 p.2 :=
  drawLine_line (by decide) (by decide)

/-- A line and the line back have the same pixels, and leave the same framebuffer. -/
theorem drawLine_reverse (start : dev.OnScreen x1 y1) (finish : dev.OnScreen x2 y2) (color : Px) :
    ∃ calls back, dev.Plots x1 y1 x2 y2 calls ∧ dev.Plots x2 y2 x1 y1 back ∧
      (∀ p, p ∈ calls ↔ p ∈ back) ∧
      ∃ drawn, ∀ fuel, max calls.length back.length ≤ fuel →
        dev.drawLineColor fuel x1 y1 x2 y2 color = some (.ok drawn) ∧
          dev.drawLineColor fuel x2 y2 x1 y1 color = some (.ok drawn) := by
  have there := plots_linePixels start finish
  have again := plots_linePixels finish start
  have same (p : Point) : p ∈ linePixels x1 y1 x2 y2 ↔ p ∈ linePixels x2 y2 x1 y1 :=
    ⟨mem_linePixels_reverse, mem_linePixels_reverse⟩
  have visible : ∀ p ∈ linePixels x1 y1 x2 y2, dev.OnScreen p.1 p.2 := fun p member =>
    onScreen_of_inside start finish ((isLine_linePixels x1 y1 x2 y2).inside p member)
  refine ⟨_, _, there, again, same, _, fun fuel enough => ⟨there.drawLineColor visible color
    (le_of_max_le_left enough), ?_⟩⟩
  have visible' : ∀ p ∈ linePixels x2 y2 x1 y1, dev.OnScreen p.1 p.2 := fun p member =>
    visible p ((same p).mpr member)
  rw [again.drawLineColor visible' color (le_of_max_le_right enough)]
  simp only [same]

theorem drawLine_reverse_sheet :
    ∃ calls back, sheet.Plots 6 1 1 4 calls ∧ sheet.Plots 1 4 6 1 back ∧
      (∀ p, p ∈ calls ↔ p ∈ back) ∧
      ∃ drawn, ∀ fuel, max calls.length back.length ≤ fuel →
        sheet.drawLineColor fuel 6 1 1 4 true = some (.ok drawn) ∧
          sheet.drawLineColor fuel 1 4 6 1 true = some (.ok drawn) :=
  drawLine_reverse (by decide) (by decide) true

end GraphDev

end Ucimf.Display
