import Mathlib.Data.Set.Piecewise
import Mathlib.Data.Int.Basic
import Mathlib.Tactic.Ring

/-!
# The framebuffer and the driver interface

`GraphDev` is the driver as `GraphPort` sees it: a resolution, the pixels, and
`SaveRect`, `RstrRect` and `PutPixel` with their range assertions. All drivers have those of
the rectangles; that of `PutPixel` is missing at 4 and 8 bits and in the planar drivers. A
save buffer holds the pixels of the inclusive rectangle row by row and carries no size
of its own, so a restore with other corners reads it with another row length.
-/

namespace Ucimf.Display

abbrev Point := Int × Int

/-- What stops the program: a failed range assertion, `assert( *buffer != NULL )`, a read
past the end of a save buffer, or the null `Shift*` that `cwmmap[cw]` gives for a window
that was never attached. -/
inductive Fault
  | range
  | nullBuffer
  | overrun
  | nullShift
  deriving DecidableEq, Repr

/-- The inclusive rectangle `[x1..x2] x [y1..y2]`. -/
def box (x1 y1 x2 y2 : Int) : Set Point :=
  {p | x1 ≤ p.1 ∧ p.1 ≤ x2 ∧ y1 ≤ p.2 ∧ p.2 ≤ y2}

@[simp] theorem mem_box {x1 y1 x2 y2 : Int} {p : Point} :
    p ∈ box x1 y1 x2 y2 ↔ x1 ≤ p.1 ∧ p.1 ≤ x2 ∧ y1 ≤ p.2 ∧ p.2 ≤ y2 := Iff.rfl

instance (x1 y1 x2 y2 : Int) : DecidablePred (· ∈ box x1 y1 x2 y2) := fun p =>
  inferInstanceAs (Decidable (x1 ≤ p.1 ∧ p.1 ≤ x2 ∧ y1 ≤ p.2 ∧ p.2 ≤ y2))

variable {Px : Type}

/-- The picture seen from the corner `(x, y)`. -/
def crop (f : Point → Px) (x y : Int) : Point → Px := fun p => f (x + p.1, y + p.2)

/-- The picture moved so that its origin lies at `(x, y)`. -/
def place (f : Point → Px) (x y : Int) : Point → Px := fun p => f (p.1 - x, p.2 - y)

@[simp] theorem place_crop (f : Point → Px) (x y : Int) : place (crop f x y) x y = f := by
  funext p
  simp [place, crop]

@[simp] theorem crop_place (f : Point → Px) (x y : Int) : crop (place f x y) x y = f := by
  funext p
  simp [place, crop]

/-- The pixels `[0..w] x [0..h]` of a picture, row by row. -/
def tile (f : Point → Px) (w h : Int) : List Px :=
  (List.range ((w + 1).toNat * (h + 1).toNat)).map fun k =>
    f ((k % (w + 1).toNat : Nat), (k / (w + 1).toNat : Nat))

@[simp] theorem length_tile (f : Point → Px) (w h : Int) :
    (tile f w h).length = (w + 1).toNat * (h + 1).toNat := by simp [tile]

/-- Where pixel `(i, j)` lies in a buffer of rows of `w + 1` pixels. -/
def offset (w i j : Int) : Nat := (j * (w + 1) + i).toNat

theorem getElem?_tile (f : Point → Px) {w h i j : Int} (hi : 0 ≤ i) (hiw : i ≤ w)
    (hj : 0 ≤ j) (hjh : j ≤ h) : (tile f w h)[offset w i j]? = some (f (i, j)) := by
  obtain ⟨i, rfl⟩ := Int.eq_ofNat_of_zero_le hi
  obtain ⟨j, rfl⟩ := Int.eq_ofNat_of_zero_le hj
  obtain ⟨n, rfl⟩ := Int.eq_ofNat_of_zero_le (hi.trans hiw)
  obtain ⟨m, rfl⟩ := Int.eq_ofNat_of_zero_le (hj.trans hjh)
  have hin : i < n + 1 := by omega
  have hjm : j < m + 1 := by omega
  have position : offset n i j = j * (n + 1) + i := by
    rw [offset]
    exact_mod_cast Int.toNat_natCast (j * (n + 1) + i)
  have inside : j * (n + 1) + i < (n + 1) * (m + 1) := by
    calc j * (n + 1) + i < j * (n + 1) + (n + 1) := by omega
      _ = (j + 1) * (n + 1) := by ring
      _ ≤ (m + 1) * (n + 1) := Nat.mul_le_mul_right _ hjm
      _ = (n + 1) * (m + 1) := by ring
  have column : (j * (n + 1) + i) % (n + 1) = i := by
    rw [Nat.add_comm, Nat.add_mul_mod_self_right, Nat.mod_eq_of_lt hin]
  have row : (j * (n + 1) + i) / (n + 1) = j := by
    rw [Nat.mul_comm, Nat.mul_add_div (Nat.succ_pos n), Nat.div_eq_of_lt hin, Nat.add_zero]
  have wide : ((n : Int) + 1).toNat = n + 1 := by omega
  have high : ((m : Int) + 1).toNat = m + 1 := by omega
  simp only [tile, position, wide, high, List.getElem?_map, List.getElem?_range inside,
    Option.map_some, column, row]

/-- A driver: its resolution and the pixels of the framebuffer. -/
structure GraphDev (Px : Type) where
  xres : Int
  yres : Int
  pixel : Point → Px

namespace GraphDev

/-- The assertions `x >= 0 && x < Width() && y >= 0 && y < Height()`. -/
def OnScreen (d : GraphDev Px) (x y : Int) : Prop :=
  0 ≤ x ∧ x < d.xres ∧ 0 ≤ y ∧ y < d.yres

instance (d : GraphDev Px) (x y : Int) : Decidable (d.OnScreen x y) :=
  inferInstanceAs (Decidable (0 ≤ x ∧ x < d.xres ∧ 0 ≤ y ∧ y < d.yres))

/-- The assertions at the head of `SaveRect`, `RstrRect` and `FillRect`. -/
def InRange (d : GraphDev Px) (x1 y1 x2 y2 : Int) : Prop :=
  d.OnScreen x1 y1 ∧ d.OnScreen x2 y2 ∧ x1 ≤ x2 ∧ y1 ≤ y2

instance (d : GraphDev Px) (x1 y1 x2 y2 : Int) : Decidable (d.InRange x1 y1 x2 y2) :=
  inferInstanceAs (Decidable (d.OnScreen x1 y1 ∧ d.OnScreen x2 y2 ∧ x1 ≤ x2 ∧ y1 ≤ y2))

def putPixel (d : GraphDev Px) (x y : Int) (c : Px) : Except Fault (GraphDev Px) :=
  if d.OnScreen x y then
    .ok { d with pixel := Function.update d.pixel (x, y) c }
  else .error .range

/-- `SaveRect`: copy the inclusive rectangle into a fresh buffer. -/
def saveRect (d : GraphDev Px) (x1 y1 x2 y2 : Int) : Except Fault (List Px) :=
  if d.InRange x1 y1 x2 y2 then .ok (tile (crop d.pixel x1 y1) (x2 - x1) (y2 - y1))
  else .error .range

/-- `RstrRect`: write the buffer back. The buffer is freed and its pointer nulled, which
the caller's state records. -/
def rstrRect (d : GraphDev Px) (x1 y1 x2 y2 : Int) (buffer : Option (List Px)) :
    Except Fault (GraphDev Px) :=
  if d.InRange x1 y1 x2 y2 then
    match buffer with
    | none => .error .nullBuffer
    | some buf =>
      if (x2 - x1 + 1).toNat * (y2 - y1 + 1).toNat ≤ buf.length then
        .ok { d with
          pixel := (box x1 y1 x2 y2).piecewise
            (fun p => buf.getD (offset (x2 - x1) (p.1 - x1) (p.2 - y1)) (d.pixel p)) d.pixel }
      else .error .overrun
  else .error .range

theorem saveRect_eq {d : GraphDev Px} {x1 y1 x2 y2 : Int} (h : d.InRange x1 y1 x2 y2) :
    d.saveRect x1 y1 x2 y2 = .ok (tile (crop d.pixel x1 y1) (x2 - x1) (y2 - y1)) := if_pos h

/-- Restoring a buffer that was saved for a rectangle of the same size paints the saved
picture on the rectangle. -/
theorem rstrRect_tile {d : GraphDev Px} {x1 y1 x2 y2 : Int} (h : d.InRange x1 y1 x2 y2)
    (f : Point → Px) :
    d.rstrRect x1 y1 x2 y2 (some (tile f (x2 - x1) (y2 - y1))) =
      .ok { d with pixel := (box x1 y1 x2 y2).piecewise (place f x1 y1) d.pixel } := by
  have drawn : (box x1 y1 x2 y2).piecewise
      (fun p => (tile f (x2 - x1) (y2 - y1)).getD
        (offset (x2 - x1) (p.1 - x1) (p.2 - y1)) (d.pixel p)) d.pixel =
      (box x1 y1 x2 y2).piecewise (place f x1 y1) d.pixel := by
    funext p
    by_cases hp : p ∈ box x1 y1 x2 y2
    · have bounds := mem_box.mp hp
      rw [Set.piecewise_eq_of_mem _ _ _ hp, Set.piecewise_eq_of_mem _ _ _ hp,
        List.getD_eq_getElem?_getD,
        getElem?_tile f (by omega) (by omega) (by omega) (by omega)]
      rfl
    · rw [Set.piecewise_eq_of_notMem _ _ _ hp, Set.piecewise_eq_of_notMem _ _ _ hp]
  simp only [rstrRect, h, length_tile, le_refl, if_true, drawn]

end GraphDev

end Ucimf.Display
