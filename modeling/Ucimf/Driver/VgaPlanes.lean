import Ucimf.Support.Planar
import Ucimf.Support.Rows
import Ucimf.Driver.SaveRect

/-!
# The drivers for planar memory

`FBVgaPlanes` and `VGADev` draw in write mode 3: the byte written is the mask of the pixels
to be changed, the colour stands in the set/reset register. A row of a rectangle is a byte
with its left edge, whole bytes, and a byte with its right edge. `VGADev` sets its mode once
and remembers the colour of the last `PutPixel`, but not those of the rectangles.
-/

namespace Ucimf.Driver

open ByteMemory Planar Planar.Adapter

/-- The variables of `FillRect` and `RevRect`. -/
structure Edges where
  left : Nat
  right : Nat
  midbytes : Nat
  leftmask : Byte
  rightmask : Byte
  deriving DecidableEq, Repr

def edges (x1 width : Nat) : Edges :=
  let left := 8 - (x1 &&& 7)
  -- left maybe 8
  let left := if left = 8 then 0 else left
  let right := if width ≤ left then 0 else (x1 + width) &&& 7
  let midbytes := if width ≤ left then 0 else (width - left - right) / 8
  let leftmask := (0xff : Byte) >>> (8 - left)
  let leftmask := if width < left then leftmask &&& (0xff : Byte) <<< (left - width) else leftmask
  { left, right, midbytes, leftmask, rightmask := (0xff : Byte) <<< (8 - right) }

namespace Edges

/-- The byte at the left edge is one of its own unless the row begins with a whole byte. -/
def lead (e : Edges) : Nat := if e.left ≠ 0 then 1 else 0

def leftRow (e : Edges) (dest : Nat) : List (Nat × Byte) :=
  if e.left ≠ 0 then [(dest, e.leftmask)] else []

def midRow (e : Edges) (dest : Nat) : List (Nat × Byte) :=
  (List.range e.midbytes).map fun (j : Nat) => (dest + j, BitVec.allOnes 8)

def rightRow (e : Edges) (dest : Nat) : List (Nat × Byte) :=
  if e.right ≠ 0 then [(dest, e.rightmask)] else []

/-- A row as `RevRect` works it off, byte by byte. -/
def row (e : Edges) (dest : Nat) : List (Nat × Byte) :=
  e.leftRow dest ++ e.midRow (dest + e.lead) ++ e.rightRow (dest + e.lead + e.midbytes)

/-- The loops of `FillRect`, one for each part of the rows; the middle one is `memset`. -/
def fill (e : Edges) (line height dest : Nat) (t : Adapter) : Adapter :=
  ((t.strikes (rows e.leftRow line height dest)).stores
    (rows e.midRow line height (dest + e.lead))).strikes
    (rows e.rightRow line height (dest + e.lead + e.midbytes))

end Edges

/-- Where a row begins. -/
def FBDev.planarAddress (d : FBDev) (x y : Int) : Nat := d.mNextLine * y.toNat + x.toNat / 8

/-- The bit of a pixel in its byte. -/
def pixelMask (x : Int) : Byte := (0x80 : Byte) >>> (x.toNat &&& 7)

/-! ### FBVgaPlanes -/

namespace FBVgaPlanes

def setmode (mode : Byte) (t : Adapter) : Adapter := (t.outIndex 5).outData mode
def selectmask (t : Adapter) : Adapter := t.outIndex 8
def setmask (mask : Byte) (t : Adapter) : Adapter := t.outData mask
def setop (op : Byte) (t : Adapter) : Adapter := (t.outIndex 3).outData op
def setsr (sr : Byte) (t : Adapter) : Adapter := (t.outIndex 1).outData sr
def setcolor (color : Int) (t : Adapter) : Adapter := (t.outIndex 0).outData (BitVec.ofInt 8 color)

def setDefaultMode (t : Adapter) : Adapter :=
  setmask 0xff (selectmask (setsr 0xf (setop 0 (setmode 3 t))))

def fillRect (d : FBDev) (r : Rect) (color : Int) (t : Adapter) : Except Assertion Adapter :=
  if d.InRange r then
    .ok ((edges r.x1.toNat r.width).fill d.mNextLine r.height (d.planarAddress r.x1 r.y1)
      (setcolor color (setDefaultMode t)))
  else .error .range

def revRect (d : FBDev) (r : Rect) (t : Adapter) : Except Assertion Adapter :=
  if d.InRange r then
    let t := setmask 0xff (selectmask (setcolor 0xf (setsr 0xf (setop 0x18 (setmode 3 t)))))
    .ok (setDefaultMode (t.strikes (rows (edges r.x1.toNat r.width).row d.mNextLine r.height
      (d.planarAddress r.x1 r.y1))))
  else .error .range

def putPixel (d : FBDev) (x y : Int) (color : Int) (t : Adapter) : Adapter :=
  (setcolor color (setDefaultMode t)).strike (d.planarAddress x y, pixelMask x)

end FBVgaPlanes

/-! ### VGADev -/

/-- The adapter, and the static variable of `PutPixel`. -/
structure VGADev where
  adapter : Adapter
  prevColor : Int

namespace VGADev

/-- The statics `TryOpen` and the constructor set: 640 x 480 pixels, 80 bytes a line. -/
def geometry : FBDev := { mXres := 640, mYres := 480, mNextLine := 80 }

def setWriteMode (mode : Byte) (t : Adapter) : Adapter := (t.outIndex 5).outData mode
def setOper (op : Byte) (t : Adapter) : Adapter := (t.outIndex 3).outData op
/-- Register 9 instead of the bit mask. -/
def setBitMask (mask : Byte) (t : Adapter) : Adapter := (t.outIndex 9).outData mask
def setColor (color : Int) (t : Adapter) : Adapter := (t.outIndex 0).outData (BitVec.ofInt 8 color)

def setDefaultMode (t : Adapter) : Adapter := setBitMask 0xff (setOper 0 (setWriteMode 3 t))

/-- The constructor, on the adapter as the BIOS has left it. The static of `PutPixel` is left as
it was: `-1` in a process that has not drawn a dot yet. -/
def construct (t : Adapter) (prevColor : Int) : VGADev where
  adapter := setDefaultMode t
  prevColor := prevColor

def putPixel (x y : Int) (color : Int) (v : VGADev) : VGADev :=
  let v := if v.prevColor ≠ color then
      { adapter := setColor color v.adapter, prevColor := color }
    else v
  { v with adapter := v.adapter.strike (geometry.planarAddress x y, pixelMask x) }

def fillRect (r : Rect) (color : Int) (v : VGADev) : Except Assertion VGADev :=
  if geometry.InRange r then
    .ok { v with
      adapter := (edges r.x1.toNat r.width).fill geometry.mNextLine r.height
        (geometry.planarAddress r.x1 r.y1) (setColor color v.adapter) }
  else .error .range

def revRect (r : Rect) (v : VGADev) : Except Assertion VGADev :=
  if geometry.InRange r then
    let t := setBitMask 0xff (setColor 0xf (setOper 0x18 (setWriteMode 3 v.adapter)))
    .ok { v with
      adapter := setDefaultMode (t.strikes (rows (edges r.x1.toNat r.width).row
        geometry.mNextLine r.height (geometry.planarAddress r.x1 r.y1))) }
  else .error .range

end VGADev

/-! ## The bytes of a rectangle -/

theorem leftmask_bit : ∀ left < 8, ∀ cut < 8, ∀ i < 8,
    ((0xff : Byte) >>> (8 - left) &&& (0xff : Byte) <<< cut).getLsbD i =
      decide (i < left ∧ cut ≤ i) := by decide

theorem rightmask_bit : ∀ right < 8, ∀ i < 8,
    ((0xff : Byte) <<< (8 - right)).getLsbD i = decide (8 - right ≤ i) := by decide

theorem pixelMask_bit : ∀ column < 8, ∀ i < 8,
    ((0x80 : Byte) >>> column).getLsbD i = decide (i = 7 - column) := by decide

namespace Edges

variable {x1 width : Nat}

/-- The bits of the byte `j` of a row. -/
def Sets (e : Edges) (j i : Nat) : Prop :=
  j = 0 ∧ e.left ≠ 0 ∧ e.leftmask.getLsbD i = true ∨
    e.lead ≤ j ∧ j < e.lead + e.midbytes ∨
    j = e.lead + e.midbytes ∧ e.right ≠ 0 ∧ e.rightmask.getLsbD i = true

/-- How many bytes a row takes. -/
def bytes (e : Edges) : Nat := e.lead + e.midbytes + if e.right ≠ 0 then 1 else 0

theorem and_seven (n : Nat) : n &&& 7 = n % 8 := Nat.and_two_pow_sub_one_eq_mod n 3

theorem left_edges (x1 width : Nat) : (edges x1 width).left = (8 - x1 % 8) % 8 := by
  unfold edges
  simp only [and_seven]
  split_ifs <;> omega

theorem leftmask_edges (x1 width : Nat) {i : Nat} (inside : i < 8) :
    (edges x1 width).leftmask.getLsbD i =
      decide (i < (8 - x1 % 8) % 8 ∧ (8 - x1 % 8) % 8 - width ≤ i) := by
  have small : (8 - x1 % 8) % 8 < 8 := Nat.mod_lt _ (by decide)
  have cut : (8 - x1 % 8) % 8 - width < 8 := by omega
  rw [← leftmask_bit _ small _ cut i inside, ← left_edges x1 width]
  have mask : (edges x1 width).leftmask =
      if width < (edges x1 width).left then
        (0xff : Byte) >>> (8 - (edges x1 width).left) &&&
          (0xff : Byte) <<< ((edges x1 width).left - width)
      else (0xff : Byte) >>> (8 - (edges x1 width).left) := rfl
  rw [mask]
  split
  · rfl
  · next wide =>
    rw [Nat.sub_eq_zero_of_le (not_lt.mp wide)]
    exact congrArg (BitVec.getLsbD · i) BitVec.and_allOnes.symm

theorem rightmask_edges (x1 width : Nat) {i : Nat} (inside : i < 8) :
    (edges x1 width).rightmask.getLsbD i = decide (8 - (edges x1 width).right ≤ i) := by
  have small : (edges x1 width).right < 8 := by
    unfold edges
    simp only [and_seven]
    split_ifs <;> omega
  exact rightmask_bit _ small i inside

/-- The bits set in the bytes of a row are the pixels from `x1` on. -/
theorem sets_edges_iff (used : 0 < width) {x j : Nat} (byte : x / 8 = x1 / 8 + j) :
    (edges x1 width).Sets j (7 - x % 8) ↔ x1 ≤ x ∧ x < x1 + width := by
  have inside : 7 - x % 8 < 8 := by omega
  rw [Sets, leftmask_edges _ _ inside, rightmask_edges _ _ inside, decide_eq_true_iff,
    decide_eq_true_iff, lead, left_edges]
  unfold edges
  simp only [and_seven]
  split_ifs <;> omega

theorem bytes_edges (used : 0 < width) :
    (edges x1 width).bytes = (x1 + width - 1) / 8 - x1 / 8 + 1 := by
  unfold bytes lead edges
  simp only [and_seven]
  split_ifs <;> omega

theorem covers_edge {n dest a i : Nat} {v : Byte} :
    covers (if n ≠ 0 then [(dest, v)] else []) a i = true ↔
      a = dest ∧ n ≠ 0 ∧ v.getLsbD i = true := by
  rw [covers_iff]
  split
  · next split =>
    constructor
    · rintro ⟨w, member, set⟩
      obtain ⟨rfl, rfl⟩ := Prod.mk.inj (List.mem_singleton.mp member)
      exact ⟨rfl, split, set⟩
    · rintro ⟨rfl, -, set⟩
      exact ⟨_, List.mem_singleton_self _, set⟩
  · next whole =>
    constructor
    · rintro ⟨w, member, -⟩
      exact (List.not_mem_nil member).elim
    · rintro ⟨-, split, -⟩
      exact absurd split whole

theorem covers_midRow {e : Edges} {dest a i : Nat} (inside : i < 8) :
    covers (e.midRow dest) a i = true ↔ ∃ j < e.midbytes, a = dest + j := by
  rw [covers_iff, midRow]
  constructor
  · rintro ⟨v, member, -⟩
    obtain ⟨j, here, same⟩ := List.mem_map.mp member
    exact ⟨j, List.mem_range.mp here, (Prod.mk.inj same).1.symm⟩
  · rintro ⟨j, here, rfl⟩
    refine ⟨_, List.mem_map_of_mem (List.mem_range.mpr here), ?_⟩
    rw [BitVec.getLsbD_allOnes]
    exact decide_eq_true inside

theorem covers_row {e : Edges} {dest a i : Nat} (inside : i < 8) :
    covers (e.row dest) a i = true ↔ ∃ j, a = dest + j ∧ e.Sets j i := by
  rw [row, covers_append, covers_append, Bool.or_eq_true, Bool.or_eq_true, leftRow, covers_edge,
    covers_midRow inside, rightRow, covers_edge]
  constructor
  · rintro ((⟨rfl, left⟩ | ⟨j, middle, rfl⟩) | ⟨rfl, right⟩)
    · exact ⟨0, rfl, .inl ⟨rfl, left⟩⟩
    · exact ⟨e.lead + j, by omega, .inr (.inl (by omega))⟩
    · exact ⟨e.lead + e.midbytes, by omega, .inr (.inr ⟨rfl, right⟩)⟩
  · rintro ⟨j, rfl, ⟨rfl, left⟩ | ⟨low, high⟩ | ⟨rfl, right⟩⟩
    · exact .inl (.inl ⟨rfl, left⟩)
    · exact .inl (.inr ⟨j - e.lead, by omega, by omega⟩)
    · exact .inr ⟨by omega, right⟩

theorem covers_rows {row : Nat → List (Nat × Byte)} {line height dest a i : Nat} :
    covers (rows row line height dest) a i = true ↔
      ∃ k < height, covers (row (dest + k * line)) a i = true := by
  rw [covers_iff, rows_eq_flatMap]
  constructor
  · rintro ⟨v, member, set⟩
    obtain ⟨k, here, inside⟩ := List.mem_flatMap.mp member
    exact ⟨k, List.mem_range.mp here, covers_iff.mpr ⟨v, inside, set⟩⟩
  · rintro ⟨k, here, covered⟩
    obtain ⟨v, inside, set⟩ := covers_iff.mp covered
    exact ⟨v, List.mem_flatMap.mpr ⟨k, List.mem_range.mpr here, inside⟩, set⟩

/-- The three loops of `FillRect` together cover what the rows of `RevRect` cover. -/
theorem covers_parts (e : Edges) (line height dest a i : Nat) :
    (covers (rows e.leftRow line height dest) a i ||
      covers (rows e.midRow line height (dest + e.lead)) a i ||
      covers (rows e.rightRow line height (dest + e.lead + e.midbytes)) a i) =
      covers (rows e.row line height dest) a i := by
  rw [Bool.eq_iff_iff, Bool.or_eq_true, Bool.or_eq_true, covers_rows, covers_rows, covers_rows,
    covers_rows]
  simp only [row, covers_append, Bool.or_eq_true, Nat.add_right_comm _ _ (_ * line)]
  constructor
  · rintro ((⟨k, here, covered⟩ | ⟨k, here, covered⟩) | ⟨k, here, covered⟩)
    · exact ⟨k, here, .inl (.inl covered)⟩
    · exact ⟨k, here, .inl (.inr covered)⟩
    · exact ⟨k, here, .inr covered⟩
  · rintro ⟨k, here, (covered | covered) | covered⟩
    · exact .inl (.inl ⟨k, here, covered⟩)
    · exact .inl (.inr ⟨k, here, covered⟩)
    · exact .inr ⟨k, here, covered⟩

@[simp] theorem mapMask_fill (e : Edges) (line height dest : Nat) (t : Adapter) :
    (e.fill line height dest t).mapMask = t.mapMask := by
  simp only [fill, mapMask_strikes, mapMask_stores]

@[simp] theorem register_fill (e : Edges) (line height dest : Nat) (t : Adapter) :
    (e.fill line height dest t).register = t.register := by
  simp only [fill, register_strikes, register_stores]

theorem bit_fill {e : Edges} {line height dest a i : Nat} {p : Fin 4} {t : Adapter}
    (h : t.Drawing 0) (inside : i < 8) : (e.fill line height dest t).bit a p i =
      if covers (rows e.row line height dest) a i then t.setReset.getLsbD p else t.bit a p i := by
  have first := h.of_register (register_strikes t (rows e.leftRow line height dest))
    (mapMask_strikes ..)
  have second := first.of_register (register_stores _ (rows e.midRow line height (dest + e.lead)))
    (mapMask_stores ..)
  have whole : ∀ s ∈ rows e.midRow line height (dest + e.lead), s.2 = BitVec.allOnes 8 := by
    intro s member
    rw [rows_eq_flatMap] at member
    obtain ⟨k, -, here⟩ := List.mem_flatMap.mp member
    obtain ⟨j, -, rfl⟩ := List.mem_map.mp here
    rfl
  rw [fill, bit_strikes_copy second inside, bit_stores_copy first whole inside,
    bit_strikes_copy h inside, ← covers_parts]
  simp only [setReset, register_stores, register_strikes]
  cases covers (rows e.leftRow line height dest) a i <;>
    cases covers (rows e.midRow line height (dest + e.lead)) a i <;> simp

/-- A row takes one byte after another. -/
theorem addresses_row (e : Edges) (dest : Nat) :
    (e.row dest).map Prod.fst = List.range' dest e.bytes := by
  have left : (e.leftRow dest).map Prod.fst = List.range' dest e.lead := by
    unfold leftRow lead
    split <;> rfl
  have middle : (e.midRow (dest + e.lead)).map Prod.fst =
      List.range' (dest + e.lead) e.midbytes := by
    rw [midRow, List.map_map, List.range'_eq_map_range]
    rfl
  have right : (e.rightRow (dest + e.lead + e.midbytes)).map Prod.fst =
      List.range' (dest + e.lead + e.midbytes) (if e.right ≠ 0 then 1 else 0) := by
    unfold rightRow
    split <;> rfl
  rw [row, List.map_append, List.map_append, left, middle, right, List.range'_append_1, bytes,
    Nat.add_assoc dest, List.range'_append_1]

theorem row_within {e : Edges} {dest : Nat} {s : Nat × Byte} (member : s ∈ e.row dest) :
    dest ≤ s.1 ∧ s.1 < dest + e.bytes := by
  have address : s.1 ∈ (e.row dest).map Prod.fst := List.mem_map_of_mem member
  rw [addresses_row] at address
  exact List.mem_range'_1.mp address

theorem row_ascending (e : Edges) (dest : Nat) :
    (e.row dest).Pairwise fun s s' => s.1 < s'.1 := by
  rw [← List.pairwise_map (f := Prod.fst) (R := (· < ·)), addresses_row]
  exact List.pairwise_lt_range'

/-- In lines that are long enough no byte is met twice. -/
theorem rows_apart {e : Edges} {line : Nat} (fits : e.bytes ≤ line) (height dest : Nat) :
    (rows e.row line height dest).Pairwise fun s s' => s.1 ≠ s'.1 := by
  induction height generalizing dest with
  | zero => exact List.Pairwise.nil
  | succ height ih =>
    refine List.pairwise_append.mpr ⟨(e.row_ascending dest).imp Nat.ne_of_lt, ih _, ?_⟩
    intro s first s' later
    rw [rows_eq_flatMap] at later
    obtain ⟨k, -, here⟩ := List.mem_flatMap.mp later
    have before := row_within first
    have behind := row_within here
    omega

theorem sets_lt {e : Edges} {j i : Nat} (sets : e.Sets j i) : j < e.bytes := by
  unfold bytes
  rcases sets with ⟨rfl, split, -⟩ | ⟨-, high⟩ | ⟨rfl, split, -⟩
  · have one : e.lead = 1 := if_pos split
    omega
  · omega
  · rw [if_pos split]
    omega

end Edges

namespace FBDev

variable {d : FBDev} {r : Rect}

theorem InRange.bytes_le (range : d.InRange r) (room : d.mXres.toNat ≤ 8 * d.mNextLine) :
    r.x1.toNat / 8 + (edges r.x1.toNat r.width).bytes ≤ d.mNextLine := by
  have used := range.width_pos
  have wide := range.width_le
  rw [Edges.bytes_edges used]
  omega

/-- The rows of a rectangle cover its pixels and no others. -/
theorem InRange.covers_iff (range : d.InRange r) (room : d.mXres.toNat ≤ 8 * d.mNextLine)
    {x y : Nat} (column : x < 8 * d.mNextLine) :
    covers (rows (edges r.x1.toNat r.width).row d.mNextLine r.height (d.planarAddress r.x1 r.y1))
      (d.mNextLine * y + x / 8) (7 - x % 8) = true ↔ r.Contains x y := by
  have used := range.width_pos
  have fits := range.bytes_le room
  have inside : 7 - x % 8 < 8 := by omega
  obtain ⟨⟨left, -, top, -⟩, -, across, down⟩ := range
  rw [Edges.covers_rows, planarAddress]
  constructor
  · rintro ⟨k, row, covered⟩
    obtain ⟨j, place, sets⟩ := (Edges.covers_row inside).mp covered
    have within := Edges.sets_lt sets
    have same : y * d.mNextLine + x / 8 =
        (r.y1.toNat + k) * d.mNextLine + (r.x1.toNat / 8 + j) := by
      rw [Nat.add_mul, Nat.mul_comm y, place, Nat.mul_comm d.mNextLine]
      omega
    obtain ⟨rfl, byte⟩ := row_unique (by omega) (by omega) same
    obtain ⟨first, last⟩ := (Edges.sets_edges_iff used byte).mp sets
    rw [Rect.width] at last
    rw [Rect.height] at row
    exact ⟨by omega, by omega, by omega, by omega⟩
  · rintro ⟨first, last, above, below⟩
    have byte : x / 8 = r.x1.toNat / 8 + (x / 8 - r.x1.toNat / 8) := by omega
    have row : y = r.y1.toNat + (y - r.y1.toNat) := by omega
    refine ⟨y - r.y1.toNat, by rw [Rect.height]; omega, (Edges.covers_row inside).mpr
      ⟨x / 8 - r.x1.toNat / 8, ?_, (Edges.sets_edges_iff used byte).mpr ⟨by omega, ?_⟩⟩⟩
    · calc d.mNextLine * y + x / 8
          = d.mNextLine * (r.y1.toNat + (y - r.y1.toNat)) +
              (r.x1.toNat / 8 + (x / 8 - r.x1.toNat / 8)) := by rw [← row, ← byte]
        _ = _ := by
          rw [Nat.mul_add, Nat.mul_comm (y - r.y1.toNat)]
          omega
    · rw [Rect.width]
      omega

/-- The byte and the mask of a pixel are its own. -/
theorem OnScreen.struck_iff {x' y' : Int} (here : d.OnScreen x' y')
    (room : d.mXres.toNat ≤ 8 * d.mNextLine) {x y : Nat} (column : x < 8 * d.mNextLine) :
    d.planarAddress x' y' = d.mNextLine * y + x / 8 ∧
      (pixelMask x').getLsbD (7 - x % 8) = true ↔ (x : Int) = x' ∧ (y : Int) = y' := by
  have own := here.column
  obtain ⟨left, -, top, -⟩ := here
  have small : x'.toNat % 8 < 8 := Nat.mod_lt _ (by decide)
  rw [pixelMask, Edges.and_seven, pixelMask_bit _ small _ (by omega), decide_eq_true_iff,
    planarAddress]
  constructor
  · rintro ⟨place, bit⟩
    have same : y'.toNat * d.mNextLine + x'.toNat / 8 = y * d.mNextLine + x / 8 := by
      rw [Nat.mul_comm, place, Nat.mul_comm]
    obtain ⟨row, byte⟩ := row_unique (by omega) (by omega) same
    omega
  · rintro ⟨rfl, rfl⟩
    exact ⟨rfl, rfl⟩

variable {t : Adapter}

instance (r : Rect) (x y : Int) : Decidable (r.Contains x y) :=
  inferInstanceAs (Decidable (_ ∧ _ ∧ _ ∧ _))

theorem InRange.fill_pixel (range : d.InRange r) (room : d.mXres.toNat ≤ 8 * d.mNextLine)
    (h : t.Drawing 0) {x y : Nat} (column : x < 8 * d.mNextLine) :
    pixel d.mNextLine ((edges r.x1.toNat r.width).fill d.mNextLine r.height
        (d.planarAddress r.x1 r.y1) t) x y =
      if r.Contains x y then fun p : Fin 4 => t.setReset.getLsbD p
      else pixel d.mNextLine t x y := by
  funext p
  rw [pixel, Edges.bit_fill h (by omega)]
  by_cases contained : r.Contains x y
  · rw [if_pos ((range.covers_iff room column).mpr contained), if_pos contained]
  · rw [if_neg fun covered => contained ((range.covers_iff room column).mp covered),
      if_neg contained]
    rfl

theorem InRange.invert_pixel (range : d.InRange r) (room : d.mXres.toNat ≤ 8 * d.mNextLine)
    (h : t.Drawing 0x18) (white : t.setReset = 0xf) {x y : Nat} (column : x < 8 * d.mNextLine) :
    pixel d.mNextLine (t.strikes (rows (edges r.x1.toNat r.width).row d.mNextLine r.height
        (d.planarAddress r.x1 r.y1))) x y =
      if r.Contains x y then fun p => !pixel d.mNextLine t x y p
      else pixel d.mNextLine t x y := by
  have apart := Edges.rows_apart ((Nat.le_add_left _ _).trans (range.bytes_le room)) r.height
    (d.planarAddress r.x1 r.y1)
  have planes : ∀ p : Fin 4, (0xf : Byte).getLsbD p = true := by decide
  funext p
  rw [pixel, bit_strikes_invert h (white ▸ planes p) apart (by omega)]
  by_cases contained : r.Contains x y
  · rw [if_pos ((range.covers_iff room column).mpr contained), if_pos contained]
    rfl
  · rw [if_neg fun covered => contained ((range.covers_iff room column).mp covered),
      if_neg contained]
    rfl

theorem OnScreen.strike_pixel {x' y' : Int} (here : d.OnScreen x' y')
    (room : d.mXres.toNat ≤ 8 * d.mNextLine) (h : t.Drawing 0) {x y : Nat}
    (column : x < 8 * d.mNextLine) :
    pixel d.mNextLine (t.strike (d.planarAddress x' y', pixelMask x')) x y =
      if (x : Int) = x' ∧ (y : Int) = y' then fun p : Fin 4 => t.setReset.getLsbD p
      else pixel d.mNextLine t x y := by
  funext p
  rw [pixel, bit_strike_copy h (by omega)]
  by_cases same : (x : Int) = x' ∧ (y : Int) = y'
  · rw [if_pos ((here.struck_iff room column).mpr same), if_pos same]
  · rw [if_neg fun struck => same ((here.struck_iff room column).mp struck), if_neg same]
    rfl

end FBDev

/-! ## Pictures -/

/-- The planes of a colour. -/
def colour (color : Int) : Fin 4 → Bool := fun p => (BitVec.ofInt 8 color).getLsbD p

inductive Command
  | fillRect (r : Rect) (color : Int)
  | revRect (r : Rect)
  | putPixel (x y color : Int)
  deriving DecidableEq, Repr

namespace Command

/-- Corners in range, and a pixel on the screen. -/
def Valid (d : FBDev) : Command → Prop
  | .fillRect r _ => d.InRange r
  | .revRect r => d.InRange r
  | .putPixel x y _ => d.OnScreen x y

instance (d : FBDev) : DecidablePred (Command.Valid d)
  | .fillRect r _ => inferInstanceAs (Decidable (d.InRange r))
  | .revRect r => inferInstanceAs (Decidable (d.InRange r))
  | .putPixel x y _ => inferInstanceAs (Decidable (d.OnScreen x y))

/-- What a command means for the pixel at `(x, y)`. -/
def effect (x y : Int) (pixel : Fin 4 → Bool) : Command → Fin 4 → Bool
  | .fillRect r color => if r.Contains x y then colour color else pixel
  | .revRect r => if r.Contains x y then fun p => !pixel p else pixel
  | .putPixel x' y' color => if x = x' ∧ y = y' then colour color else pixel

end Command

namespace FBVgaPlanes

variable {d : FBDev}

def exec (d : FBDev) (t : Adapter) : Command → Except Assertion Adapter
  | .fillRect r color => fillRect d r color t
  | .revRect r => revRect d r t
  | .putPixel x y color => .ok (putPixel d x y color t)

theorem drawing_default {t : Adapter} (enabled : t.Enabled) : (setDefaultMode t).Drawing 0 where
  mode := rfl
  dataRotate := rfl
  bitMask := rfl
  enabled := enabled

theorem drawing_setcolor (color : Int) {op : Byte} {t : Adapter} (h : t.Drawing op) :
    (setcolor color t).Drawing op where
  mode := h.mode
  dataRotate := h.dataRotate
  bitMask := h.bitMask
  enabled := h.enabled

theorem exec_effect (room : d.mXres.toNat ≤ 8 * d.mNextLine) {t : Adapter} (enabled : t.Enabled)
    {c : Command} (valid : c.Valid d) : ∃ t', exec d t c = .ok t' ∧ t'.Enabled ∧
      ∀ x < 8 * d.mNextLine, ∀ y : Nat,
        pixel d.mNextLine t' x y = c.effect x y (pixel d.mNextLine t x y) := by
  have default := drawing_default enabled
  cases c with
  | fillRect r color =>
    refine ⟨_, if_pos valid, fun p => ?_, fun x column y => ?_⟩
    · rw [Edges.mapMask_fill]
      exact enabled p
    · exact valid.fill_pixel room (drawing_setcolor color default) column
  | revRect r =>
    have ready : (setmask 0xff (selectmask (setcolor 0xf (setsr 0xf (setop 0x18
        (setmode 3 t)))))).Drawing 0x18 := ⟨rfl, rfl, rfl, enabled⟩
    refine ⟨_, if_pos valid, fun p => ?_, fun x column y => ?_⟩
    · exact (congrArg (BitVec.getLsbD · p) (mapMask_strikes ..)).trans (enabled p)
    · exact valid.invert_pixel room ready rfl column
  | putPixel x' y' color =>
    refine ⟨_, rfl, enabled, fun x column y => ?_⟩
    exact valid.strike_pixel room (drawing_setcolor color default) column

/-- An adapter with all planes enabled and nothing drawn. -/
def blank : Adapter := ⟨0, fun _ => 0, fun _ => 0, 0xf, fun _ _ => 0⟩

/-- A bar with an inverted corner, and a dot. -/
def bar : List Command :=
  [.fillRect ⟨3, 1, 20, 2⟩ 4, .revRect ⟨0, 0, 9, 1⟩, .putPixel 5 5 7]

/-- Whatever state the graphics controller is found in, a run of commands draws what the commands
mean, on the screen and in the rest of the memory. -/
theorem draws (room : d.mXres.toNat ≤ 8 * d.mNextLine) {t : Adapter} (enabled : t.Enabled)
    {cs : List Command} (valid : ∀ c ∈ cs, c.Valid d) : ∃ t', cs.foldlM (exec d) t = .ok t' ∧
      ∀ x < 8 * d.mNextLine, ∀ y : Nat, pixel d.mNextLine t' x y =
        cs.foldl (Command.effect x y) (pixel d.mNextLine t x y) := by
  induction cs generalizing t with
  | nil => exact ⟨t, rfl, fun x _ y => rfl⟩
  | cons c cs ih =>
    obtain ⟨t₁, done, kept, drawn⟩ := exec_effect room enabled (valid c List.mem_cons_self)
    obtain ⟨t₂, rest, result⟩ := ih kept fun c' member => valid c' (List.mem_cons_of_mem _ member)
    refine ⟨t₂, ?_, fun x column y => ?_⟩
    · rw [List.foldlM_cons, done]
      exact rest
    · rw [result x column y, drawn x column y, List.foldl_cons]

theorem draws_bar : ∃ t', bar.foldlM (exec VGADev.geometry) blank = .ok t' ∧
    ∀ x < 8 * VGADev.geometry.mNextLine, ∀ y : Nat, pixel VGADev.geometry.mNextLine t' x y =
      bar.foldl (Command.effect x y) (pixel VGADev.geometry.mNextLine blank x y) :=
  draws (by decide) (by decide) (by decide)

end FBVgaPlanes

/-! ## The colour VGADev remembers -/

namespace VGADev

/-- The colours at the start: of the last `PutPixel` before, and of the set/reset register. -/
structure Start where
  lastPut : Int
  register : Int

/-- The colour of the last `PutPixel`, the commands given latest first. -/
def lastPut (start : Start) : List Command → Int
  | [] => start.lastPut
  | .putPixel _ _ color :: _ => color
  | .fillRect _ _ :: earlier => lastPut start earlier
  | .revRect _ :: earlier => lastPut start earlier

/-- The colour in the set/reset register. -/
def held (start : Start) : List Command → Int
  | [] => start.register
  | .fillRect _ color :: _ => color
  | .revRect _ :: _ => 15
  | .putPixel _ _ color :: earlier =>
    if color = lastPut start earlier then held start earlier else color

/-- A `PutPixel` in the colour of the `PutPixel` before it draws in the colour of whatever
rectangle was drawn in between. -/
def inked (start : Start) (earlier : List Command) : Command → Command
  | .putPixel x y color => .putPixel x y (held start (.putPixel x y color :: earlier))
  | c => c

/-- A run of commands as they are drawn. -/
def inkedRun (start : Start) : List Command → List Command → List Command
  | _, [] => []
  | earlier, c :: cs => inked start earlier c :: inkedRun start (c :: earlier) cs

def exec (v : VGADev) : Command → Except Assertion VGADev
  | .fillRect r color => v.fillRect r color
  | .revRect r => v.revRect r
  | .putPixel x y color => .ok (v.putPixel x y color)

/-- What the driver relies on from one command to the next. -/
structure Ready (start : Start) (earlier : List Command) (v : VGADev) : Prop where
  drawing : v.adapter.Drawing 0
  prevColor : v.prevColor = lastPut start earlier
  setReset : v.adapter.setReset = BitVec.ofInt 8 (held start earlier)

theorem ready_construct {t : Adapter} (bios : t.bitMask = 0xff) (enabled : t.Enabled)
    {start : Start} (register : t.setReset = BitVec.ofInt 8 start.register) :
    Ready start [] (construct t start.lastPut) where
  drawing := ⟨rfl, rfl, bios, enabled⟩
  prevColor := rfl
  setReset := register

theorem room : geometry.mXres.toNat ≤ 8 * geometry.mNextLine := by decide

variable {start : Start} {earlier : List Command} {v : VGADev}

theorem Ready.fillRect (h : v.Ready start earlier) {r : Rect} (color : Int)
    (range : geometry.InRange r) : ∃ v', v.exec (.fillRect r color) = .ok v' ∧
      v'.Ready start (.fillRect r color :: earlier) ∧
      ∀ x < 640, ∀ y : Nat, pixel 80 v'.adapter x y =
        Command.effect x y (pixel 80 v.adapter x y) (.fillRect r color) := by
  have drawing : (setColor color v.adapter).Drawing 0 :=
    ⟨h.drawing.mode, h.drawing.dataRotate, h.drawing.bitMask, h.drawing.enabled⟩
  refine ⟨_, if_pos range, ⟨?_, h.prevColor, ?_⟩, fun x column y => ?_⟩
  · exact drawing.of_register (Edges.register_fill ..) (Edges.mapMask_fill ..)
  · exact congrFun (Edges.register_fill ..) 0
  · exact range.fill_pixel room drawing column

theorem Ready.revRect (h : v.Ready start earlier) {r : Rect} (range : geometry.InRange r) :
    ∃ v', v.exec (.revRect r) = .ok v' ∧ v'.Ready start (.revRect r :: earlier) ∧
      ∀ x < 640, ∀ y : Nat, pixel 80 v'.adapter x y =
        Command.effect x y (pixel 80 v.adapter x y) (.revRect r) := by
  let t := setBitMask 0xff (setColor 0xf (setOper 0x18 (setWriteMode 3 v.adapter)))
  have drawing : t.Drawing 0x18 := ⟨rfl, rfl, h.drawing.bitMask, h.drawing.enabled⟩
  have kept := register_strikes t (rows (edges r.x1.toNat r.width).row geometry.mNextLine
    r.height (geometry.planarAddress r.x1 r.y1))
  refine ⟨_, if_pos range, ⟨⟨rfl, rfl, ?_, fun p => ?_⟩, h.prevColor, ?_⟩, fun x column y => ?_⟩
  · exact (congrFun kept 8).trans drawing.bitMask
  · exact (congrArg (BitVec.getLsbD · p) (mapMask_strikes ..)).trans (h.drawing.enabled p)
  · exact congrFun kept 0
  · exact range.invert_pixel room drawing rfl column

theorem Ready.putPixel (h : v.Ready start earlier) {x' y' : Int} (color : Int)
    (here : geometry.OnScreen x' y') :
    (v.putPixel x' y' color).Ready start (.putPixel x' y' color :: earlier) ∧
      ∀ x < 640, ∀ y : Nat, pixel 80 (v.putPixel x' y' color).adapter x y =
        Command.effect x y (pixel 80 v.adapter x y)
          (inked start earlier (.putPixel x' y' color)) := by
  by_cases remembered : v.prevColor = color
  · have ink : held start (.putPixel x' y' color :: earlier) = held start earlier :=
      if_pos (remembered.symm.trans h.prevColor)
    have plotted : v.putPixel x' y' color =
        { v with adapter := v.adapter.strike (geometry.planarAddress x' y', pixelMask x') } := by
      rw [VGADev.putPixel, if_neg (not_not.mpr remembered)]
    rw [plotted, inked, ink]
    refine ⟨⟨h.drawing.of_register rfl rfl, remembered, ink ▸ h.setReset⟩, fun x column y => ?_⟩
    refine (here.strike_pixel room h.drawing column).trans ?_
    rw [h.setReset]
    rfl
  · have ink : held start (.putPixel x' y' color :: earlier) = color :=
      if_neg fun same => remembered (h.prevColor.trans same.symm)
    have plotted : v.putPixel x' y' color =
        { adapter := (setColor color v.adapter).strike (geometry.planarAddress x' y', pixelMask x'),
          prevColor := color } := by
      rw [VGADev.putPixel, if_pos remembered]
    have drawing : (setColor color v.adapter).Drawing 0 :=
      ⟨h.drawing.mode, h.drawing.dataRotate, h.drawing.bitMask, h.drawing.enabled⟩
    rw [plotted, inked, ink]
    refine ⟨⟨drawing.of_register rfl rfl, rfl, ?_⟩, fun x column y => ?_⟩
    · rw [ink]
      rfl
    · exact here.strike_pixel room drawing column

theorem Ready.exec (h : v.Ready start earlier) {c : Command} (valid : c.Valid geometry) :
    ∃ v', v.exec c = .ok v' ∧ v'.Ready start (c :: earlier) ∧
      ∀ x < 640, ∀ y : Nat, pixel 80 v'.adapter x y =
        (inked start earlier c).effect x y (pixel 80 v.adapter x y) := by
  cases c with
  | fillRect r color => exact h.fillRect color valid
  | revRect r => exact h.revRect valid
  | putPixel x' y' color => exact ⟨_, rfl, h.putPixel color valid⟩

theorem Ready.run (h : v.Ready start earlier) {cs : List Command}
    (valid : ∀ c ∈ cs, c.Valid geometry) : ∃ v', cs.foldlM VGADev.exec v = .ok v' ∧
      ∀ x < 640, ∀ y : Nat, pixel 80 v'.adapter x y =
        (inkedRun start earlier cs).foldl (Command.effect x y) (pixel 80 v.adapter x y) := by
  induction cs generalizing v earlier with
  | nil => exact ⟨v, rfl, fun x _ y => rfl⟩
  | cons c cs ih =>
    obtain ⟨v₁, done, ready, drawn⟩ := h.exec (valid c List.mem_cons_self)
    obtain ⟨v₂, rest, result⟩ := ih ready fun c' member => valid c' (List.mem_cons_of_mem _ member)
    refine ⟨v₂, ?_, fun x column y => ?_⟩
    · rw [List.foldlM_cons, done]
      exact rest
    · rw [result x column y, drawn x column y, inkedRun, List.foldl_cons]

/-- On an adapter the BIOS leaves with all bits and planes enabled, a run of commands draws what
the commands mean, except that a `PutPixel` in the colour of the one before it takes the colour
that stands in the register. -/
theorem draws_but_stale {t : Adapter} (bios : t.bitMask = 0xff) (enabled : t.Enabled)
    (start : Start) (register : t.setReset = BitVec.ofInt 8 start.register) {cs : List Command}
    (valid : ∀ c ∈ cs, c.Valid geometry) :
    ∃ v, cs.foldlM exec (construct t start.lastPut) = .ok v ∧
      ∀ x < 640, ∀ y : Nat, pixel 80 v.adapter x y =
        (inkedRun start [] cs).foldl (Command.effect x y) (pixel 80 t x y) :=
  (ready_construct bios enabled register).run valid

/-- An adapter with all bits enabled. -/
def enabled : Adapter := { FBVgaPlanes.blank with register := fun _ => 0xff }

/-- A dot, a bar, and a dot in the colour of the first. -/
def dots : List Command := [.putPixel 0 0 1, .fillRect ⟨0, 0, 9, 9⟩ 2, .putPixel 5 5 1]

/-- The second dot disappears in the bar. -/
theorem draws_but_stale_dots : ∃ v, dots.foldlM exec (construct enabled (-1)) = .ok v ∧
    ∀ x < 640, ∀ y : Nat, pixel 80 v.adapter x y =
      [Command.putPixel 0 0 1, .fillRect ⟨0, 0, 9, 9⟩ 2, .putPixel 5 5 2].foldl
        (Command.effect x y) (pixel 80 enabled x y) :=
  draws_but_stale rfl (by decide) ⟨-1, 255⟩ rfl (by decide)

end VGADev

end Ucimf.Driver
