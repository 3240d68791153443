import Ucimf.Driver.SaveRect
import Ucimf.Support.Rows
import Mathlib.Data.Nat.Bitwise

/-!
# Filling and plotting at 24 bits

`FBLinear24::FillRect` packs four pixels into three words and finishes each row with a
pair and a single pixel; `PutPixel` writes a word and a byte. Both leave the same three
bytes in every pixel of the rectangle, so they can be compared byte by byte.
-/

namespace Ucimf.Driver

open ByteMemory

/-! ### The colour map -/

def red16 : Vector UInt16 16 := #v[
  0x0000, 0x0000, 0x0000, 0x0000, 0xaaaa, 0xaaaa, 0xaaaa, 0xaaaa,
  0x5555, 0x5555, 0x5555, 0x5555, 0xffff, 0xffff, 0xffff, 0xffff]

def green16 : Vector UInt16 16 := #v[
  0x0000, 0x0000, 0xaaaa, 0xaaaa, 0x0000, 0x0000, 0x5555, 0xaaaa,
  0x5555, 0x5555, 0xffff, 0xffff, 0x5555, 0x5555, 0xffff, 0xffff]

def blue16 : Vector UInt16 16 := #v[
  0x0000, 0xaaaa, 0x0000, 0xaaaa, 0x0000, 0xaaaa, 0x0000, 0xaaaa,
  0x5555, 0xffff, 0x5555, 0xffff, 0x5555, 0xffff, 0x5555, 0xffff]

namespace FBLinear24

/-- `InitColorMap`. -/
def cfb24 (i : Fin 16) : UInt32 :=
  let red : UInt32 := (red16.get i).toUInt32
  let green : UInt32 := (green16.get i).toUInt32
  let blue : UInt32 := (blue16.get i).toUInt32
  ((red &&& (0xff00 : UInt32)) <<< 8) ||| (green &&& (0xff00 : UInt32)) ||| (blue >>> 8)

/-! ### The stores of `FillRect` -/

def store4pixels (d1 d2 d3 d4 : UInt32) (dest : Nat) : List Store :=
  let o1 := d1 ||| (d2 <<< 24)
  let o2 := (d2 >>> 8) ||| (d3 <<< 16)
  let o3 := (d3 >>> 16) ||| (d4 <<< 8)
  [⟨4, dest, o1.toNat⟩, ⟨4, dest + 4, o2.toNat⟩, ⟨4, dest + 8, o3.toNat⟩]

/-- `for (cnt = width/4; cnt--;)`. -/
def quads (fgx : UInt32) : Nat → Nat → List Store
  | 0, _ => []
  | cnt + 1, dest32 => store4pixels fgx fgx fgx fgx dest32 ++ quads fgx cnt (dest32 + 12)

/-- The body of `if (width & 2)`. -/
def pairStores (fgx : UInt32) (dest32 : Nat) : List Store :=
  [⟨4, dest32, (fgx ||| (fgx <<< 24)).toNat⟩, ⟨2, dest32 + 4, (fgx >>> 8).toNat⟩]

/-- The body of `if (width & 1)`. -/
def singleStores (fgx : UInt32) (dest32 : Nat) : List Store :=
  [⟨2, dest32, fgx.toNat⟩, ⟨1, dest32 + 2, (fgx >>> 16).toNat⟩]

/-- One row; each part starts where the part before it has left `dest32`. -/
def fillRow (fgx : UInt32) (width dest : Nat) : List Store :=
  let dest32 := dest + 12 * (width / 4)
  quads fgx (width / 4) dest ++
    if width &&& 2 ≠ 0 then
      pairStores fgx dest32 ++ if width &&& 1 ≠ 0 then singleStores fgx (dest32 + 6) else []
    else if width &&& 1 ≠ 0 then singleStores fgx dest32 else []

/-- `for(; height--; dest += mNextLine)`. -/
def fillRows (fgx : UInt32) (width line : Nat) : Nat → Nat → List Store
  | 0, _ => []
  | height + 1, dest => fillRow fgx width dest ++ fillRows fgx width line height (dest + line)

def fillRect (d : FBDev) (r : Rect) (color : Fin 16) (fb : Bytes) : Except Assertion Bytes :=
  if d.InRange r then
    .ok (write (fillRows (cfb24 color) r.width d.mNextLine r.height (d.address 3 r.x1 r.y1)) fb)
  else .error .range

/-! ### The stores of `PutPixel` -/

def pixelStores (c : UInt32) (dest : Nat) : List Store :=
  [⟨2, dest, ((c <<< 8) &&& (c >>> 8)).toNat⟩, ⟨1, dest + 2, (c >>> 16).toNat⟩]

def putPixel (d : FBDev) (color : Fin 16) (fb : Bytes) (p : Int × Int) : Except Assertion Bytes :=
  if d.OnScreen p.1 p.2 then
    .ok (write (pixelStores (cfb24 color) (d.address 3 p.1 p.2)) fb)
  else .error .range

/-- `PutPixel` called for one pixel after another. -/
def putPixels (d : FBDev) (color : Fin 16) (pixels : List (Int × Int)) (fb : Bytes) :
    Except Assertion Bytes :=
  pixels.foldlM (putPixel d color) fb

/-! ### The bytes of a colour -/

/-- Byte `e` of a pixel filled with the colour. -/
def filled (color : Fin 16) (e : Nat) : UInt8 := byteOf (cfb24 color).toNat e

/-- Byte `e` of a pixel plotted in the colour. -/
def plotted (color : Fin 16) (e : Nat) : UInt8 :=
  if e = 2 then byteOf (cfb24 color >>> 16).toNat 0
  else byteOf ((cfb24 color <<< 8) &&& (cfb24 color >>> 8)).toNat e

/-- The stores cover `size` bytes from `start` on with the three bytes of the colour over and
over, beginning with byte `phase`. -/
structure Fills (color : Fin 16) (phase start size : Nat) (stores : List Store) : Prop where
  covers : ∀ a, start ≤ a → a < start + size → ∃ s ∈ stores, a ∈ s.bytes
  within : ∀ s ∈ stores, start ≤ s.addr ∧ s.addr + s.word ≤ start + size
  bytes : ∀ s ∈ stores, ∀ e < s.word,
    byteOf s.value e = filled color ((phase + (s.addr - start) + e) % 3)

section Fills
variable {color : Fin 16} {phase start m n : Nat} {as bs : List Store}

theorem Fills.spans (h : Fills color phase start m as) : Spans start m as := ⟨h.covers, h.within⟩

theorem fills_nil (color : Fin 16) (phase start : Nat) : Fills color phase start 0 [] where
  covers := (spans_nil start).covers
  within := (spans_nil start).within
  bytes _ hs := absurd hs List.not_mem_nil

theorem fills_store {word value : Nat} (start : Nat)
    (bytes : ∀ e < word, byteOf value e = filled color ((phase + e) % 3)) :
    Fills color phase start word [⟨word, start, value⟩] where
  covers := (spans_store word start value).covers
  within := (spans_store word start value).within
  bytes s hs := by
    obtain rfl := List.mem_singleton.mp hs
    simpa using bytes

theorem Fills.append (front : Fills color phase start m as)
    (back : Fills color (phase + m) (start + m) n bs) :
    Fills color phase start (m + n) (as ++ bs) where
  covers := (front.spans.append back.spans).covers
  within := (front.spans.append back.spans).within
  bytes s hs e he := by
    rcases List.mem_append.mp hs with hs | hs
    · exact front.bytes s hs e he
    · have bounds := back.within s hs
      rw [back.bytes s hs e he]
      congr 1
      omega

theorem Fills.rephase (h : Fills color phase start m as) {phase' : Nat}
    (same : phase % 3 = phase' % 3) : Fills color phase' start m as where
  covers := h.covers
  within := h.within
  bytes s hs e he := by
    rw [h.bytes s hs e he]
    congr 1
    omega

/-- The words that `FillRect` stores hold the bytes of the colour in turn. -/
theorem words_filled : ∀ color : Fin 16,
    (∀ e < 4, byteOf (cfb24 color ||| (cfb24 color <<< 24)).toNat e =
      filled color ((0 + e) % 3)) ∧
    (∀ e < 4, byteOf ((cfb24 color >>> 8) ||| (cfb24 color <<< 16)).toNat e =
      filled color ((4 + e) % 3)) ∧
    (∀ e < 4, byteOf ((cfb24 color >>> 16) ||| (cfb24 color <<< 8)).toNat e =
      filled color ((8 + e) % 3)) ∧
    (∀ e < 2, byteOf (cfb24 color >>> 8).toNat e = filled color ((4 + e) % 3)) ∧
    (∀ e < 2, byteOf (cfb24 color).toNat e = filled color ((0 + e) % 3)) ∧
    (∀ e < 1, byteOf (cfb24 color >>> 16).toNat e = filled color ((2 + e) % 3)) := by
  decide

theorem fills_quad (color : Fin 16) (dest : Nat) : Fills color 0 dest 12
    (store4pixels (cfb24 color) (cfb24 color) (cfb24 color) (cfb24 color) dest) := by
  obtain ⟨first, second, third, -⟩ := words_filled color
  exact (fills_store dest first).append
    ((fills_store (dest + 4) second).append (fills_store (dest + 4 + 4) third))

theorem fills_pair (color : Fin 16) (dest : Nat) :
    Fills color 0 dest 6 (pairStores (cfb24 color) dest) := by
  obtain ⟨word, -, -, half, -⟩ := words_filled color
  exact (fills_store dest word).append (fills_store (dest + 4) half)

theorem fills_single (color : Fin 16) (dest : Nat) :
    Fills color 0 dest 3 (singleStores (cfb24 color) dest) := by
  obtain ⟨-, -, -, -, half, last⟩ := words_filled color
  exact (fills_store dest half).append (fills_store (dest + 2) last)

theorem fills_quads (color : Fin 16) (cnt dest : Nat) :
    Fills color 0 dest (12 * cnt) (quads (cfb24 color) cnt dest) := by
  induction cnt generalizing dest with
  | zero => exact fills_nil color 0 dest
  | succ cnt ih =>
    rw [quads, Nat.mul_succ, Nat.add_comm]
    exact (fills_quad color dest).append ((ih (dest + 12)).rephase rfl)

theorem and_two_ne_zero (width : Nat) : width &&& 2 ≠ 0 ↔ width / 2 % 2 = 1 := by
  have bit := Nat.and_two_pow width 1
  rw [pow_one] at bit
  rw [bit, Nat.testBit_succ, Nat.testBit_zero]
  by_cases odd : width / 2 % 2 = 1 <;> simp [odd]

/-- The quads, the pair and the single pixel make up the row. -/
theorem fills_row (color : Fin 16) (width dest : Nat) :
    Fills color 0 dest (3 * width) (fillRow (cfb24 color) width dest) := by
  have front := fills_quads color (width / 4) dest
  have tail : ∀ size stores, Fills color 0 (dest + 12 * (width / 4)) size stores →
      12 * (width / 4) + size = 3 * width →
      Fills color 0 dest (3 * width) (quads (cfb24 color) (width / 4) dest ++ stores) :=
    fun size stores back total => total ▸ front.append (back.rephase (by omega))
  have pairs := fills_pair color (dest + 12 * (width / 4))
  unfold fillRow
  simp only [and_two_ne_zero, Nat.and_one_is_mod]
  by_cases pair : width / 2 % 2 = 1 <;> by_cases single : width % 2 = 0
  · simp only [pair, single, if_true, ne_eq, not_true, if_false]
    exact tail 6 _ (pairs.append (fills_nil color _ _)) (by omega)
  · simp only [pair, single, if_true, ne_eq, not_false_eq_true]
    exact tail 9 _ (pairs.append ((fills_single color _).rephase rfl)) (by omega)
  · simp only [pair, single, if_false, ne_eq, not_true]
    exact tail 0 _ (fills_nil color _ _) (by omega)
  · simp only [pair, single, if_false, if_true, ne_eq, not_false_eq_true]
    exact tail 3 _ (fills_single color _) (by omega)

end Fills

/-! ### Whole rectangles -/

section Rectangle
variable {d : FBDev} {r : Rect}

theorem fillRows_eq (fgx : UInt32) (width line height dest : Nat) :
    fillRows fgx width line height dest = rows (fillRow fgx width) line height dest := by
  induction height generalizing dest with
  | zero => rfl
  | succ height ih => rw [fillRows, rows, ih]

theorem mem_fillRows {fgx : UInt32} {width line height dest : Nat} {s : Store} :
    s ∈ fillRows fgx width line height dest ↔
      ∃ j < height, s ∈ fillRow fgx width (dest + j * line) := by
  rw [fillRows_eq, rows_eq_flatMap, List.mem_flatMap]
  simp only [List.mem_range]

/-- Every pixel of the rectangle shows the three bytes, and nothing else has changed. -/
structure Painted (d : FBDev) (r : Rect) (colour : Nat → UInt8) (before after : Bytes) : Prop where
  pixel : ∀ x y, r.Contains x y → ∀ e < 3, after (d.address 3 x y + e) = colour e
  outside : ∀ a, a ∉ d.rectBytes 3 r → after a = before a

theorem Painted.eq_iff {f g : Nat → UInt8} {before after after' : Bytes}
    (range : d.InRange r) (left : Painted d r f before after)
    (right : Painted d r g before after') : after = after' ↔ ∀ e < 3, f e = g e := by
  constructor
  · intro same e he
    have corner : r.Contains r.x1 r.y1 := ⟨le_rfl, range.2.2.1, le_rfl, range.2.2.2⟩
    rw [← left.pixel _ _ corner e he, ← right.pixel _ _ corner e he, same]
  · intro same
    funext a
    by_cases inside : a ∈ d.rectBytes 3 r
    · obtain ⟨x, y, contained, low, high⟩ := inside
      obtain ⟨e, rfl⟩ := Nat.exists_eq_add_of_le low
      rw [left.pixel x y contained e (by omega), right.pixel x y contained e (by omega)]
      exact same e (by omega)
    · rw [left.outside a inside, right.outside a inside]

theorem fillRect_painted (room : d.mXres.toNat * 3 ≤ d.mNextLine) (range : d.InRange r)
    (color : Fin 16) (fb : Bytes) :
    ∃ after, fillRect d r color fb = .ok after ∧ Painted d r (filled color) fb after := by
  have wide := range.row_le room
  have shown : ∀ s ∈ fillRows (cfb24 color) r.width d.mNextLine r.height (d.address 3 r.x1 r.y1),
      ∀ a ∈ s.bytes, ∃ j < r.height, ∃ i < r.width * 3,
        a = d.address 3 r.x1 r.y1 + j * d.mNextLine + i ∧ s.byteAt a = filled color (i % 3) := by
    intro s hs a ha
    obtain ⟨j, hj, hs⟩ := mem_fillRows.mp hs
    have row := fills_row color r.width (d.address 3 r.x1 r.y1 + j * d.mNextLine)
    have bounds := row.within s hs
    have inside := Store.mem_bytes.mp ha
    refine ⟨j, hj, a - (d.address 3 r.x1 r.y1 + j * d.mNextLine), by omega, by omega, ?_⟩
    rw [Store.byteAt, row.bytes s hs _ (by omega)]
    congr 2
    omega
  refine ⟨_, if_pos range, fun x y contained e he => ?_, fun a off => ?_⟩
  · obtain ⟨j, hj, i, hi, place, phase⟩ := range.exists_offset contained he
    rw [place]
    apply write_of_agree
    · obtain ⟨s, hs, ha⟩ := (fills_row color r.width
        (d.address 3 r.x1 r.y1 + j * d.mNextLine)).covers _ (Nat.le_add_right _ i) (by omega)
      exact ⟨s, mem_fillRows.mpr ⟨j, hj, hs⟩, ha⟩
    · intro s hs ha
      obtain ⟨j', hj', i', hi', same, byte⟩ := shown s hs _ ha
      have flat : j * d.mNextLine + i = j' * d.mNextLine + i' := by omega
      obtain ⟨rfl, rfl⟩ := row_unique (hi.trans_le wide) (hi'.trans_le wide) flat
      rw [byte, phase]
  · apply write_of_untouched
    intro s hs ha
    obtain ⟨j, hj, i, hi, rfl, -⟩ := shown s hs a ha
    rw [range.rectBytes_eq] at off
    exact off ⟨j, hj, i, hi, rfl⟩

theorem putPixels_eq {color : Fin 16} {pixels : List (Int × Int)} (fb : Bytes)
    (visible : ∀ p ∈ pixels, d.OnScreen p.1 p.2) : putPixels d color pixels fb =
      .ok (write (pixels.flatMap fun p => pixelStores (cfb24 color) (d.address 3 p.1 p.2)) fb) :=
  foldlM_write (fun p hp _ => if_pos (visible p hp)) fb

/-- The word and the byte of a plotted pixel. -/
theorem pixelStores_byteAt (color : Fin 16) (dest : Nat) {s : Store}
    (hs : s ∈ pixelStores (cfb24 color) dest) {a : Nat} (ha : a ∈ s.bytes) :
    ∃ e < 3, a = dest + e ∧ s.byteAt a = plotted color e := by
  have bounds := Store.mem_bytes.mp ha
  simp only [pixelStores, List.mem_cons, List.not_mem_nil, or_false] at hs
  rcases hs with rfl | rfl
  · dsimp only at bounds
    refine ⟨a - dest, by omega, by omega, ?_⟩
    rw [plotted, if_neg (by omega)]
    rfl
  · dsimp only at bounds
    obtain rfl : a = dest + 2 := by omega
    refine ⟨2, by omega, rfl, ?_⟩
    rw [Store.byteAt, plotted, if_pos rfl, Nat.sub_self]

theorem pixelStores_covers (c : UInt32) (dest : Nat) {e : Nat} (he : e < 3) :
    ∃ s ∈ pixelStores c dest, dest + e ∈ s.bytes := by
  simp only [pixelStores, List.mem_cons, List.not_mem_nil, or_false, exists_eq_or_imp,
    exists_eq_left, Store.mem_bytes]
  omega

theorem putPixels_painted (room : d.mXres.toNat * 3 ≤ d.mNextLine) (range : d.InRange r)
    (color : Fin 16) {pixels : List (Int × Int)}
    (every : ∀ x y, (x, y) ∈ pixels ↔ r.Contains x y) (fb : Bytes) :
    ∃ after, putPixels d color pixels fb = .ok after ∧ Painted d r (plotted color) fb after := by
  refine ⟨_, putPixels_eq fb fun p hp => range.onScreen ((every p.1 p.2).mp hp), ?_, ?_⟩
  · intro x y contained e he
    apply write_of_agree
    · obtain ⟨s, hs, ha⟩ := pixelStores_covers (cfb24 color) (d.address 3 x y) he
      exact ⟨s, List.mem_flatMap.mpr ⟨(x, y), (every x y).mpr contained, hs⟩, ha⟩
    · intro s hs ha
      obtain ⟨⟨x', y'⟩, listed, hs⟩ := List.mem_flatMap.mp hs
      obtain ⟨e', he', place, byte⟩ := pixelStores_byteAt color _ hs ha
      dsimp only at place
      have contained' := (every x' y').mp listed
      have here : d.address 3 x y + e ∈ d.pixelBytes 3 x y :=
        ⟨Nat.le_add_right _ _, by omega⟩
      have there : d.address 3 x y + e ∈ d.pixelBytes 3 x' y' := ⟨by omega, by omega⟩
      have same : (x, y) = (x', y') := by
        by_contra differ
        have apart := FBDev.pixelBytes_disjoint room (range.onScreen contained)
          (range.onScreen contained') differ
        exact Set.disjoint_left.mp apart here there
      obtain ⟨rfl, rfl⟩ := Prod.mk.inj same
      obtain rfl : e = e' := by omega
      exact byte
  · intro a off
    apply write_of_untouched
    intro s hs ha
    obtain ⟨⟨x, y⟩, listed, hs⟩ := List.mem_flatMap.mp hs
    obtain ⟨e, he, rfl, -⟩ := pixelStores_byteAt color _ hs ha
    dsimp only at off
    exact off ⟨x, y, (every x y).mp listed, Nat.le_add_right _ _, by omega⟩

/-- Filling a rectangle agrees with plotting its pixels for black and dark red only: the
plotted word is the conjunction of two shifted colours. -/
theorem fillRect_eq_putPixels_iff (room : d.mXres.toNat * 3 ≤ d.mNextLine) (range : d.InRange r)
    (color : Fin 16) {pixels : List (Int × Int)}
    (every : ∀ x y, (x, y) ∈ pixels ↔ r.Contains x y) (fb : Bytes) :
    fillRect d r color fb = putPixels d color pixels fb ↔ color = 0 ∨ color = 4 := by
  obtain ⟨after, filling, painted⟩ := fillRect_painted room range color fb
  obtain ⟨after', plotting, painted'⟩ := putPixels_painted room range color every fb
  have colours : ∀ color : Fin 16,
      (∀ e < 3, filled color e = plotted color e) ↔ color = 0 ∨ color = 4 := by decide
  rw [filling, plotting, ← colours color, ← painted.eq_iff range painted']
  exact ⟨Except.ok.inj, congrArg _⟩

theorem fill_blue_differs :
    fillRect ⟨640, 480, 1920, 921600, some .fbLinear24⟩ ⟨2, 3, 2, 3⟩ 1 (fun _ => 0) ≠
      putPixels ⟨640, 480, 1920, 921600, some .fbLinear24⟩ 1 [(2, 3)] (fun _ => 0) := by
  intro same
  have byte := congrArg (fun result => result.toOption.map (· 5766)) same
  exact absurd byte (by decide)

theorem fill_red_agrees :
    fillRect ⟨640, 480, 1920, 921600, some .fbLinear24⟩ ⟨2, 3, 2, 3⟩ 4 (fun _ => 0) =
      putPixels ⟨640, 480, 1920, 921600, some .fbLinear24⟩ 4 [(2, 3)] (fun _ => 0) :=
  (fillRect_eq_putPixels_iff (by decide) (by decide) 4 (by
    intro x y
    simp only [List.mem_singleton, Prod.mk.injEq, Rect.Contains]
    omega) _).mpr (.inr rfl)

end Rectangle

end FBLinear24

end Ucimf.Driver
