import Ucimf.Driver.FillRect

/-!
# Word-wide loops over a rectangle

`FillRect` and `RevRect` cut each row into words of four, two and one bytes as its width
allows. The words are compared with the loop over single bytes that the 24-bit driver keeps
in its comments, and `FBLinear16::FillRect` with its `PutPixel`.
-/

namespace Ucimf.Driver

open ByteMemory

/-- The pixels of a rectangle, row by row. -/
def Rect.pixels (r : Rect) : List (Int × Int) :=
  (List.range r.height).flatMap fun (j : Nat) =>
    (List.range r.width).map fun (i : Nat) => (r.x1 + i, r.y1 + j)

/-! ### The stores of `FillRect` -/

/-- `for (cnt = …; cnt--;)` around one word of a colour. -/
def putWords (word value : Nat) : Nat → Nat → List Store
  | 0, _ => []
  | cnt + 1, dest => ⟨word, dest, value⟩ :: putWords word value cnt (dest + word)

namespace FBLinear24

/-- `for(col = width; col > 0; col--)`. -/
def byteRow (color0 color1 color2 : UInt8) : Nat → Nat → List Store
  | 0, _ => []
  | col + 1, p =>
    [⟨1, p, color0.toNat⟩, ⟨1, p + 1, color1.toNat⟩, ⟨1, p + 2, color2.toNat⟩] ++
      byteRow color0 color1 color2 col (p + 3)

/-- The loop in the comment of `FillRect`. -/
def fillRectBytes (d : FBDev) (r : Rect) (color : Fin 16) (fb : Bytes) : Except Assertion Bytes :=
  if d.InRange r then
    let color0 := (cfb24 color).toUInt8
    let color1 := (cfb24 color >>> 8).toUInt8
    let color2 := (cfb24 color >>> 16).toUInt8
    .ok (write (rows (byteRow color0 color1 color2 r.width) d.mNextLine r.height
      (d.address 3 r.x1 r.y1)) fb)
  else .error .range

end FBLinear24

namespace FBLinear16

/-- `InitColorMap`. -/
def cfb16 (i : Fin 16) : UInt16 :=
  let red : UInt32 := (red16.get i).toUInt32
  let green : UInt32 := (green16.get i).toUInt32
  let blue : UInt32 := (blue16.get i).toUInt32
  ((red &&& (0xf800 : UInt32)) ||| ((green &&& (0xfc00 : UInt32)) >>> 5) |||
    ((blue &&& (0xf800 : UInt32)) >>> 11)).toUInt16

/-- Two pixels of a colour. -/
def fgx (color : Fin 16) : UInt32 :=
  (cfb16 color).toUInt32 ||| ((cfb16 color).toUInt32 <<< 16)

/-- `for (cnt = width/2; cnt--;)`. -/
def pairs (fgx : UInt32) (cnt dest32 : Nat) : List Store := putWords 4 fgx.toNat cnt dest32

def fillRow (fgx : UInt32) (width dest : Nat) : List Store :=
  let dest32 := dest + 4 * (width / 2)
  pairs fgx (width / 2) dest ++ if width &&& 1 ≠ 0 then [⟨2, dest32, fgx.toNat⟩] else []

def fillRect (d : FBDev) (r : Rect) (color : Fin 16) (fb : Bytes) : Except Assertion Bytes :=
  if d.InRange r then
    .ok (write (rows (fillRow (fgx color) r.width) d.mNextLine r.height
      (d.address 2 r.x1 r.y1)) fb)
  else .error .range

def putPixel (d : FBDev) (color : Fin 16) (fb : Bytes) (p : Int × Int) : Except Assertion Bytes :=
  if d.OnScreen p.1 p.2 then
    .ok (write [⟨2, d.address 2 p.1 p.2, (cfb16 color).toNat⟩] fb)
  else .error .range

/-- `PutPixel` called for one pixel after another. -/
def putPixels (d : FBDev) (color : Fin 16) (pixels : List (Int × Int)) (fb : Bytes) :
    Except Assertion Bytes :=
  pixels.foldlM (putPixel d color) fb

end FBLinear16

/-! ### The words of `RevRect` -/

/-- `for (cnt = …; cnt--;)` around one word. -/
def revWords (word mask : Nat) : Nat → Nat → List Flip
  | 0, _ => []
  | cnt + 1, dest => ⟨word, dest, mask⟩ :: revWords word mask cnt (dest + word)

/-- `if (width & 2)` and `if (width & 1)`; a pair moves the pointer on by `step`. -/
def revEnds (pair single : Nat → List Flip) (step width dest : Nat) : List Flip :=
  if width &&& 2 ≠ 0 then pair dest ++ if width &&& 1 ≠ 0 then single (dest + step) else []
  else if width &&& 1 ≠ 0 then single dest else []

def FBLinear8.revRow (width dest : Nat) : List Flip :=
  revWords 4 0x0f0f0f0f (width / 4) dest ++
    revEnds (fun dest16 => [⟨2, dest16, 0x0f0f⟩]) (fun dest8 => [⟨1, dest8, 0x0f⟩]) 2 width
      (dest + 4 * (width / 4))

def FBLinear16.revRow (width dest : Nat) : List Flip :=
  revWords 4 0xffffffff (width / 2) dest ++
    if width &&& 1 ≠ 0 then [⟨2, dest + 4 * (width / 2), 0xffff⟩] else []

/-- `for (cnt = width/4; cnt--;)`, three words for four pixels. -/
def FBLinear24.revQuads : Nat → Nat → List Flip
  | 0, _ => []
  | cnt + 1, dest32 =>
    [⟨4, dest32, 0xffffffff⟩, ⟨4, dest32 + 4, 0xffffffff⟩, ⟨4, dest32 + 8, 0xffffffff⟩] ++
      revQuads cnt (dest32 + 12)

def FBLinear24.revRow (width dest : Nat) : List Flip :=
  revQuads (width / 4) dest ++
    revEnds (fun dest32 => [⟨4, dest32, 0xffffffff⟩, ⟨2, dest32 + 4, 0xffff⟩])
      (fun dest16 => [⟨2, dest16, 0xffff⟩, ⟨1, dest16 + 2, 0xff⟩]) 6 width
      (dest + 12 * (width / 4))

def FBLinear32.revRow (width dest : Nat) : List Flip := revWords 4 0xffffffff width dest

namespace Linear

/-- `FBLinear15` inherits from `FBLinear16`. -/
def revRow : Linear → Nat → Nat → List Flip
  | .fbLinear8 => FBLinear8.revRow
  | .fbLinear15 | .fbLinear16 => FBLinear16.revRow
  | .fbLinear24 => FBLinear24.revRow
  | .fbLinear32 => FBLinear32.revRow

/-- What `RevRect` inverts in every byte. -/
def revMask : Linear → UInt8
  | .fbLinear8 => 0x0f
  | _ => 0xff

def revRect (k : Linear) (d : FBDev) (r : Rect) (fb : Bytes) : Except Assertion Bytes :=
  if d.InRange r then
    .ok (invert (rows (k.revRow r.width) d.mNextLine r.height (d.address k.bytes r.x1 r.y1)) fb)
  else .error .range

/-- The loop over single bytes, as in the comment of `FBLinear24::RevRect`. -/
def revRectBytes (k : Linear) (d : FBDev) (r : Rect) (fb : Bytes) : Except Assertion Bytes :=
  if d.InRange r then
    .ok (invert (rows (revWords 1 k.revMask.toNat (r.width * k.bytes)) d.mNextLine r.height
      (d.address k.bytes r.x1 r.y1)) fb)
  else .error .range

end Linear

/-! ### Rows of the 24-bit driver -/

namespace FBLinear24

theorem Fills.paints {color : Fin 16} {phase start size : Nat} {stores : List Store}
    (h : Fills color phase start size stores) :
    Paints (fun a => filled color ((phase + (a - start)) % 3)) start size stores where
  covers := h.covers
  within := h.within
  bytes s hs a ha := by
    obtain ⟨low, high⟩ := Store.mem_bytes.mp ha
    have bounds := h.within s hs
    rw [Store.byteAt, h.bytes s hs _ (by omega)]
    congr 2
    omega

theorem bytes_filled : ∀ color : Fin 16,
    (∀ e < 1, byteOf (cfb24 color).toUInt8.toNat e = filled color ((0 + e) % 3)) ∧
    (∀ e < 1, byteOf (cfb24 color >>> 8).toUInt8.toNat e = filled color ((1 + e) % 3)) ∧
    (∀ e < 1, byteOf (cfb24 color >>> 16).toUInt8.toNat e = filled color ((2 + e) % 3)) := by
  decide

theorem fills_byteRow (color : Fin 16) (width dest : Nat) : Fills color 0 dest (3 * width)
    (byteRow (cfb24 color).toUInt8 (cfb24 color >>> 8).toUInt8 (cfb24 color >>> 16).toUInt8
      width dest) := by
  induction width generalizing dest with
  | zero => exact fills_nil color 0 dest
  | succ width ih =>
    obtain ⟨first, second, third⟩ := bytes_filled color
    have pixel := (fills_store dest first).append
      ((fills_store (dest + 1) second).append (fills_store (dest + 1 + 1) third))
    rw [byteRow, Nat.mul_succ, Nat.add_comm]
    exact pixel.append ((ih (dest + 3)).rephase rfl)

theorem fillRect_eq_bytes (d : FBDev) (r : Rect) (color : Fin 16) (fb : Bytes) :
    fillRect d r color fb = fillRectBytes d r color fb := by
  have row : ∀ dest memory, write (fillRow (cfb24 color) r.width dest) memory = _ :=
    fun dest memory => (fills_row color r.width dest).paints.write_eq
      (fills_byteRow color r.width dest).paints memory
  rw [fillRect, fillRectBytes]
  simp only [fillRows_eq, write_rows_eq row]

end FBLinear24

/-! ### Rows of one colour -/

/-- The byte at `a` of a row that repeats the lowest `unit` bytes of a word from `dest` on. -/
def tint (value unit dest a : Nat) : UInt8 := byteOf value ((a - dest) % unit)

section Rows
variable {word value unit c : Nat}

theorem paints_tint (bytes : ∀ e < word, byteOf value e = byteOf c (e % unit)) (dest k : Nat) :
    Paints (tint c unit dest) (dest + unit * k) word [⟨word, dest + unit * k, value⟩] := by
  apply paints_store
  intro e he
  have offset : dest + unit * k + e - dest = e + unit * k := by omega
  rw [bytes e he, tint, offset, Nat.add_mul_mod_self_left]

theorem paints_putWords (bytes : ∀ e < word, byteOf value e = byteOf c (e % unit))
    (whole : unit ∣ word) (cnt dest k : Nat) :
    Paints (tint c unit dest) (dest + unit * k) (word * cnt)
      (putWords word value cnt (dest + unit * k)) := by
  obtain ⟨n, rfl⟩ := whole
  induction cnt generalizing k with
  | zero => exact paints_nil _ _
  | succ cnt ih =>
    have next : dest + unit * k + unit * n = dest + unit * (k + n) := by
      rw [Nat.mul_add, Nat.add_assoc]
    rw [putWords, Nat.mul_succ, Nat.add_comm _ (unit * n)]
    apply (paints_tint bytes dest k).append
    rw [next]
    exact ih (k + n)

/-- The pairs and the odd pixel of a row, whatever the two equal halves of `fgx` are. -/
theorem FBLinear16.paints_fgx {fgx : UInt32}
    (pair : ∀ e < 4, byteOf fgx.toNat e = byteOf c (e % 2)) (width dest : Nat) :
    Paints (tint c 2 dest) dest (2 * width) (FBLinear16.fillRow fgx width dest) := by
  have front := paints_putWords pair (by decide) (width / 2) dest 0
  have half : ∀ e < 2, byteOf fgx.toNat e = byteOf c (e % 2) := fun e he => pair e (by omega)
  have last := paints_tint half dest (2 * (width / 2))
  rw [Nat.mul_zero, Nat.add_zero] at front
  rw [← Nat.mul_assoc] at last
  rw [FBLinear16.fillRow, FBLinear16.pairs, Nat.and_one_is_mod]
  by_cases even : width % 2 = 0
  · rw [if_neg (not_not.mpr even), List.append_nil]
    have size : 2 * width = 4 * (width / 2) := by omega
    exact size ▸ front
  · rw [if_pos even]
    have size : 2 * width = 4 * (width / 2) + 2 := by omega
    exact size ▸ front.append last

end Rows

/-! ### Rows of the 16-bit driver -/

namespace FBLinear16

theorem fgx_bytes : ∀ color : Fin 16,
    ∀ e < 4, byteOf (fgx color).toNat e = byteOf (cfb16 color).toNat (e % 2) := by
  decide

theorem paints_fillRow (color : Fin 16) (width dest : Nat) :
    Paints (tint (cfb16 color).toNat 2 dest) dest (2 * width) (fillRow (fgx color) width dest) :=
  paints_fgx (fgx_bytes color) width dest

/-- The stores of `PutPixel` along a row. -/
def plotRow (color : Fin 16) (width dest : Nat) : List Store :=
  (List.range width).map fun i => ⟨2, dest + 2 * i, (cfb16 color).toNat⟩

theorem paints_plotRow (color : Fin 16) (width dest : Nat) :
    Paints (tint (cfb16 color).toNat 2 dest) dest (2 * width) (plotRow color width dest) := by
  have repeats : ∀ e < 2, byteOf (cfb16 color).toNat e = byteOf (cfb16 color).toNat (e % 2) :=
    fun e he => by rw [Nat.mod_eq_of_lt he]
  induction width with
  | zero => exact paints_nil _ _
  | succ width ih =>
    rw [plotRow, List.range_succ, List.map_append]
    exact ih.append (paints_tint repeats dest width)

/-- The store of `PutPixel`. -/
def pixelStore (d : FBDev) (color : Fin 16) (p : Int × Int) : Store :=
  ⟨2, d.address 2 p.1 p.2, (cfb16 color).toNat⟩

theorem putPixels_eq {d : FBDev} {color : Fin 16} {pixels : List (Int × Int)} (fb : Bytes)
    (visible : ∀ p ∈ pixels, d.OnScreen p.1 p.2) :
    putPixels d color pixels fb = .ok (write (pixels.map (pixelStore d color)) fb) := by
  rw [List.map_eq_flatMap]
  exact foldlM_write (fun p hp _ => if_pos (visible p hp)) fb

end FBLinear16

section Pixels
variable {d : FBDev} {r : Rect}

theorem Rect.mem_pixels {x y : Int} : (x, y) ∈ r.pixels ↔ r.Contains x y := by
  simp only [Rect.pixels, List.mem_flatMap, List.mem_map, List.mem_range, Prod.mk.injEq,
    Rect.Contains, Rect.width, Rect.height]
  constructor
  · rintro ⟨j, hj, i, hi, rfl, rfl⟩
    omega
  · rintro ⟨left, right, top, bottom⟩
    exact ⟨(y - r.y1).toNat, by omega, (x - r.x1).toNat, by omega, by omega, by omega⟩

namespace FBLinear16

theorem map_pixels (range : d.InRange r) (color : Fin 16) : r.pixels.map (pixelStore d color) =
    rows (plotRow color r.width) d.mNextLine r.height (d.address 2 r.x1 r.y1) := by
  obtain ⟨⟨left, -, top, -⟩, -, -, -⟩ := range
  rw [rows_eq_flatMap, Rect.pixels, List.map_flatMap]
  simp only [List.map_map, plotRow]
  congr 1
  funext j
  congr 1
  funext i
  have sameX : (r.x1 + i).toNat = r.x1.toNat + i := by omega
  have sameY : (r.y1 + j).toNat = r.y1.toNat + j := by omega
  simp only [Function.comp_apply, pixelStore, FBDev.address, sameX, sameY, Nat.mul_add,
    Store.mk.injEq, true_and, and_true, Nat.mul_comm d.mNextLine j]
  omega

/-- Distinct pixels do not overlap, so they may be plotted in any order. -/
theorem write_pixels_perm (room : d.mXres.toNat * 2 ≤ d.mNextLine) (range : d.InRange r)
    (color : Fin 16) {pixels : List (Int × Int)}
    (every : ∀ x y, (x, y) ∈ pixels ↔ r.Contains x y) (fb : Bytes) :
    write (r.pixels.map (pixelStore d color)) fb = write (pixels.map (pixelStore d color)) fb := by
  apply write_eq_of_mem_iff
  · intro s
    simp only [List.mem_map, Prod.exists, Rect.mem_pixels, every]
  · intro s hs t ht a ha hat
    obtain ⟨⟨x, y⟩, here, rfl⟩ := List.mem_map.mp hs
    obtain ⟨⟨x', y'⟩, there, rfl⟩ := List.mem_map.mp ht
    by_cases same : (x, y) = (x', y')
    · rw [same]
    · have apart := FBDev.pixelBytes_disjoint room (range.onScreen (Rect.mem_pixels.mp here))
        (range.onScreen (Rect.mem_pixels.mp there)) same
      exact absurd hat (Set.disjoint_left.mp apart ha)

/-- At any stride the fill is what plotting the pixels row by row gives, and any other order
when the rows do not overlap. -/
theorem fillRect_eq_putPixels (range : d.InRange r) (color : Fin 16) {pixels : List (Int × Int)}
    (every : ∀ x y, (x, y) ∈ pixels ↔ r.Contains x y)
    (order : pixels = r.pixels ∨ d.mXres.toNat * 2 ≤ d.mNextLine) (fb : Bytes) :
    fillRect d r color fb = putPixels d color pixels fb := by
  have row : ∀ dest memory, write (fillRow (fgx color) r.width dest) memory = _ :=
    fun dest memory => (paints_fillRow color r.width dest).write_eq
      (paints_plotRow color r.width dest) memory
  have filling : fillRect d r color fb = .ok _ := if_pos range
  have visible : ∀ p ∈ pixels, d.OnScreen p.1 p.2 :=
    fun p hp => range.onScreen ((every p.1 p.2).mp hp)
  rw [filling, putPixels_eq fb visible, write_rows_eq row, ← map_pixels range]
  rcases order with rfl | room
  · rfl
  · rw [write_pixels_perm room range color every]

end FBLinear16

end Pixels

/-! ### Inverted rows -/

section Inverts
variable {mask : UInt8}

theorem inverts_revWords {word bits : Nat} (bytes : ∀ e < word, byteOf bits e = mask)
    (cnt dest : Nat) : Inverts mask dest (word * cnt) (revWords word bits cnt dest) := by
  induction cnt generalizing dest with
  | zero => exact inverts_nil mask dest
  | succ cnt ih =>
    rw [revWords, Nat.mul_succ, Nat.add_comm _ word]
    exact (inverts_word dest bytes).append (ih (dest + word))

/-- The pair and the single pixel are what four does not divide. -/
theorem inverts_revEnds {pair single : Nat → List Flip} {bytes : Nat}
    (two : ∀ dest, Inverts mask dest (2 * bytes) (pair dest))
    (one : ∀ dest, Inverts mask dest bytes (single dest)) (width dest : Nat) :
    Inverts mask dest (width % 4 * bytes) (revEnds pair single (2 * bytes) width dest) := by
  unfold revEnds
  simp only [FBLinear24.and_two_ne_zero, Nat.and_one_is_mod]
  by_cases paired : width / 2 % 2 = 1 <;> by_cases even : width % 2 = 0
  · have size : width % 4 = 2 := by omega
    simp only [paired, even, if_true, ne_eq, not_true, if_false, List.append_nil, size]
    exact two dest
  · have size : width % 4 = 2 + 1 := by omega
    simp only [paired, even, if_true, ne_eq, not_false_eq_true, size, Nat.add_mul, one_mul]
    exact (two dest).append (one (dest + 2 * bytes))
  · have size : width % 4 = 0 := by omega
    simp only [paired, even, if_false, ne_eq, not_true, size, zero_mul]
    exact inverts_nil mask dest
  · have size : width % 4 = 1 := by omega
    simp only [paired, even, if_false, if_true, ne_eq, not_false_eq_true, size, one_mul]
    exact one dest

/-- The masks of `FBLinear8`. -/
theorem nibbles : (∀ e < 4, byteOf 0x0f0f0f0f e = 0x0f) ∧ (∀ e < 2, byteOf 0x0f0f e = 0x0f) ∧
    ∀ e < 1, byteOf 0x0f e = 0x0f := by
  decide

theorem FBLinear8.inverts_revRow (width dest : Nat) :
    Inverts 0x0f dest (width * 1) (FBLinear8.revRow width dest) := by
  have front := inverts_revWords nibbles.1 (width / 4) dest
  have back := inverts_revEnds (fun dest16 => inverts_word dest16 nibbles.2.1)
    (fun dest8 => inverts_word dest8 nibbles.2.2) width (dest + 4 * (width / 4))
  have size : width * 1 = 4 * (width / 4) + width % 4 * 1 := by omega
  exact size ▸ front.append back

/-- The masks of the wider drivers are all ones. -/
theorem ones : (∀ e < 4, byteOf 0xffffffff e = 0xff) ∧ (∀ e < 2, byteOf 0xffff e = 0xff) ∧
    ∀ e < 1, byteOf 0xff e = 0xff := by
  decide

theorem FBLinear16.inverts_revRow (width dest : Nat) :
    Inverts 0xff dest (width * 2) (FBLinear16.revRow width dest) := by
  have front := inverts_revWords ones.1 (width / 2) dest
  rw [FBLinear16.revRow, Nat.and_one_is_mod]
  by_cases even : width % 2 = 0
  · have size : width * 2 = 4 * (width / 2) := by omega
    rw [if_neg (not_not.mpr even), List.append_nil]
    exact size ▸ front
  · have size : width * 2 = 4 * (width / 2) + 2 := by omega
    rw [if_pos even]
    exact size ▸ front.append (inverts_word _ ones.2.1)

theorem FBLinear24.inverts_revQuads (cnt dest : Nat) :
    Inverts 0xff dest (12 * cnt) (FBLinear24.revQuads cnt dest) := by
  induction cnt generalizing dest with
  | zero => exact inverts_nil 0xff dest
  | succ cnt ih =>
    have quad := (inverts_word dest ones.1).append
      ((inverts_word (dest + 4) ones.1).append (inverts_word (dest + 4 + 4) ones.1))
    rw [FBLinear24.revQuads, Nat.mul_succ, Nat.add_comm _ 12]
    exact quad.append (ih (dest + 12))

theorem FBLinear24.inverts_revRow (width dest : Nat) :
    Inverts 0xff dest (width * 3) (FBLinear24.revRow width dest) := by
  have front := FBLinear24.inverts_revQuads (width / 4) dest
  have pair : ∀ dest32, Inverts 0xff dest32 (2 * 3) _ := fun dest32 =>
    (inverts_word dest32 ones.1).append (inverts_word (dest32 + 4) ones.2.1)
  have single : ∀ dest16, Inverts 0xff dest16 3 _ := fun dest16 =>
    (inverts_word dest16 ones.2.1).append (inverts_word (dest16 + 2) ones.2.2)
  have back := inverts_revEnds pair single width (dest + 12 * (width / 4))
  have size : width * 3 = 12 * (width / 4) + width % 4 * 3 := by omega
  exact size ▸ front.append back

namespace Linear

/-- Every residue of the width covers the row with no gap, overlap or spill. -/
theorem inverts_revRow (k : Linear) (width dest : Nat) :
    Inverts k.revMask dest (width * k.bytes) (k.revRow width dest) := by
  cases k with
  | fbLinear8 => exact FBLinear8.inverts_revRow width dest
  | fbLinear15 | fbLinear16 => exact FBLinear16.inverts_revRow width dest
  | fbLinear24 => exact FBLinear24.inverts_revRow width dest
  | fbLinear32 => exact Nat.mul_comm width 4 ▸ inverts_revWords ones.1 width dest

theorem inverts_bytes (k : Linear) (count dest : Nat) :
    Inverts k.revMask dest count (revWords 1 k.revMask.toNat count dest) := by
  have single : ∀ e < 1, byteOf k.revMask.toNat e = k.revMask := by
    cases k <;> decide
  have covered := inverts_revWords single count dest
  rwa [Nat.one_mul] at covered

theorem revRect_eq_bytes (k : Linear) (d : FBDev) (r : Rect) (fb : Bytes) :
    k.revRect d r fb = k.revRectBytes d r fb := by
  have row : ∀ dest a, inverted (k.revRow r.width dest) a = _ := fun dest a =>
    (k.inverts_revRow r.width dest a).trans (k.inverts_bytes (r.width * k.bytes) dest a).symm
  rw [revRect, revRectBytes,
    invert_eq_of_inverted (inverted_rows_eq row d.mNextLine r.height (d.address k.bytes r.x1 r.y1))]

end Linear

end Inverts

/-- The bytes of the rectangle have the bits of the mask inverted, the others are as before. -/
structure Inverted (d : FBDev) (bytes : Nat) (mask : UInt8) (r : Rect) (before after : Bytes) :
    Prop where
  inside : ∀ a ∈ d.rectBytes bytes r, after a = before a ^^^ mask
  outside : ∀ a, a ∉ d.rectBytes bytes r → after a = before a

section Rectangle
variable {d : FBDev} {r : Rect}

theorem Linear.revRect_twice (k : Linear) {fb after : Bytes}
    (once : k.revRect d r fb = .ok after) : k.revRect d r after = .ok fb := by
  unfold Linear.revRect at once ⊢
  split at once
  · next range =>
    obtain rfl := Except.ok.inj once
    rw [if_pos range, invert_invert]
  · cases once

theorem Linear.revRect_inverted (k : Linear) (range : d.InRange r)
    (apart : r.width * k.bytes ≤ d.mNextLine) (fb : Bytes) :
    ∃ after, k.revRect d r fb = .ok after ∧ Inverted d k.bytes k.revMask r fb after := by
  have bits := inverted_rows apart (k.inverts_revRow r.width) r.height
    (d.address k.bytes r.x1 r.y1)
  rw [← range.rectBytes_eq] at bits
  refine ⟨_, if_pos range, fun a inside => ?_, fun a off => ?_⟩
  · rw [invert_apply, (bits a).1 inside]
  · rw [invert_apply, (bits a).2 off, UInt8.xor_zero]

/-- How many rows of the rectangle hold the byte at `a`; more than one if rows overlap. -/
def FBDev.rowsAt (d : FBDev) (bytes : Nat) (r : Rect) (a : Nat) : Nat :=
  ByteMemory.rowsAt (r.width * bytes) d.mNextLine r.height (d.address bytes r.x1 r.y1) a

/-- Every row is inverted once, whatever the stride. -/
theorem Linear.revRect_apply (k : Linear) {fb after : Bytes}
    (once : k.revRect d r fb = .ok after) (a : Nat) :
    after a = if d.rowsAt k.bytes r a % 2 = 1 then fb a ^^^ k.revMask else fb a := by
  unfold Linear.revRect at once
  split at once
  · obtain rfl := Except.ok.inj once
    rw [invert_apply, inverted_rows_parity (k.inverts_revRow r.width), FBDev.rowsAt]
    split
    · rfl
    · exact UInt8.xor_zero
  · cases once

/-- The word-wide loops and the loops over single bytes or pixels agree at every stride, also
where rows overlap, and `RevRect` inverts each byte once for each row that holds it; where rows
do not overlap it inverts exactly the rectangle. Each source word is read before the pointer is
advanced. -/
theorem word_loops_exact (range : d.InRange r) (color : Fin 16) (fb : Bytes) :
    FBLinear24.fillRect d r color fb = FBLinear24.fillRectBytes d r color fb ∧
    (∀ pixels : List (Int × Int), (∀ x y, (x, y) ∈ pixels ↔ r.Contains x y) →
      pixels = r.pixels ∨ d.mXres.toNat * 2 ≤ d.mNextLine →
      FBLinear16.fillRect d r color fb = FBLinear16.putPixels d color pixels fb) ∧
    ∀ k : Linear, ∃ after, k.revRect d r fb = .ok after ∧ k.revRectBytes d r fb = .ok after ∧
      (∀ a, after a = if d.rowsAt k.bytes r a % 2 = 1 then fb a ^^^ k.revMask else fb a) ∧
      (r.width * k.bytes ≤ d.mNextLine → Inverted d k.bytes k.revMask r fb after) ∧
      k.revRect d r after = .ok fb := by
  refine ⟨FBLinear24.fillRect_eq_bytes d r color fb, fun pixels every order =>
    FBLinear16.fillRect_eq_putPixels range color every order fb, fun k => ?_⟩
  have once : k.revRect d r fb = .ok _ := if_pos range
  refine ⟨_, once, (k.revRect_eq_bytes d r fb).symm.trans once, k.revRect_apply once,
    fun apart => ?_, k.revRect_twice once⟩
  obtain ⟨after, returned, inverted⟩ := k.revRect_inverted range apart fb
  obtain rfl := Except.ok.inj (once.symm.trans returned)
  exact inverted

/-- A rectangle of seven columns and two rows. -/
theorem word_loops_exact_seven :
    ∃ after, Linear.fbLinear24.revRect ⟨640, 480, 1920, 921600, some .fbLinear24⟩ ⟨1, 2, 7, 3⟩
        (fun a => UInt8.ofNat a) = .ok after ∧
      Inverted ⟨640, 480, 1920, 921600, some .fbLinear24⟩ 3 0xff ⟨1, 2, 7, 3⟩
        (fun a => UInt8.ofNat a) after := by
  obtain ⟨-, -, reversed⟩ := word_loops_exact (d := ⟨640, 480, 1920, 921600, some .fbLinear24⟩)
    (r := ⟨1, 2, 7, 3⟩) (by decide) 0 (fun a => UInt8.ofNat a)
  obtain ⟨after, returned, -, -, inverts, -⟩ := reversed .fbLinear24
  exact ⟨after, returned, inverts (by decide)⟩

end Rectangle

end Ucimf.Driver
