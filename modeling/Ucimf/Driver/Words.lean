import Ucimf.Driver.RevRect

/-!
# The drivers of whole words

At 15, 16 and 32 bits a pixel is one word. What `FillRect`, `PutPixel`, `RevRect` and
`RstrRect` do can then be said pixel by pixel: the rectangle shows a picture, and no byte
outside of it has changed.
-/

namespace Ucimf.Driver

open ByteMemory

/-! ### Filling and plotting at 15 and 32 bits -/

/-- A `FillRect` that puts the words of `row` into each row. -/
def wordFill (bytes : Nat) (row : Nat → Nat → List Store) (d : FBDev) (r : Rect) (fb : Bytes) :
    Except Assertion Bytes :=
  if d.InRange r then
    .ok (write (rows (row r.width) d.mNextLine r.height (d.address bytes r.x1 r.y1)) fb)
  else .error .range

/-- A `PutPixel` that puts one word. -/
def wordPut (bytes value : Nat) (d : FBDev) (fb : Bytes) (p : Int × Int) :
    Except Assertion Bytes :=
  if d.OnScreen p.1 p.2 then .ok (write [⟨bytes, d.address bytes p.1 p.2, value⟩] fb)
  else .error .range

namespace FBLinear15

/-- `InitColorMap`, which runs after that of `FBLinear16` and replaces its map. -/
def cfb16 (i : Fin 16) : UInt16 :=
  let red : UInt32 := (red16.get i).toUInt32
  let green : UInt32 := (green16.get i).toUInt32
  let blue : UInt32 := (blue16.get i).toUInt32
  (((red &&& (0xf800 : UInt32)) >>> 1) ||| ((green &&& (0xf800 : UInt32)) >>> 6) |||
    ((blue &&& (0xf800 : UInt32)) >>> 11)).toUInt16

/-- Two pixels of a colour. -/
def fgx (color : Fin 16) : UInt32 :=
  (cfb16 color).toUInt32 ||| ((cfb16 color).toUInt32 <<< 16)

/-- Inherited from `FBLinear16`, with the map of this class. -/
def fillRect (d : FBDev) (r : Rect) (color : Fin 16) : Bytes → Except Assertion Bytes :=
  wordFill 2 (FBLinear16.fillRow (fgx color)) d r

def putPixel (d : FBDev) (color : Fin 16) : Bytes → Int × Int → Except Assertion Bytes :=
  wordPut 2 (cfb16 color).toNat d

end FBLinear15

namespace FBLinear32

/-- `InitColorMap`. -/
def cfb32 (i : Fin 16) : UInt32 :=
  let red : UInt32 := (red16.get i).toUInt32
  let green : UInt32 := (green16.get i).toUInt32
  let blue : UInt32 := (blue16.get i).toUInt32
  ((red &&& (0xff00 : UInt32)) <<< 8) ||| (green &&& (0xff00 : UInt32)) ||| (blue >>> 8)

def fillRect (d : FBDev) (r : Rect) (color : Fin 16) : Bytes → Except Assertion Bytes :=
  wordFill 4 (putWords 4 (cfb32 color).toNat) d r

def putPixel (d : FBDev) (color : Fin 16) : Bytes → Int × Int → Except Assertion Bytes :=
  wordPut 4 (cfb32 color).toNat d

end FBLinear32

inductive Words
  | fbLinear15
  | fbLinear16
  | fbLinear32
  deriving DecidableEq, Repr

namespace Words

def linear : Words → Linear
  | .fbLinear15 => .fbLinear15
  | .fbLinear16 => .fbLinear16
  | .fbLinear32 => .fbLinear32

def bytes (k : Words) : Nat := k.linear.bytes

/-- An entry of the colour map. -/
def cfb : Words → Fin 16 → Nat
  | .fbLinear15 => fun color => (FBLinear15.cfb16 color).toNat
  | .fbLinear16 => fun color => (FBLinear16.cfb16 color).toNat
  | .fbLinear32 => fun color => (FBLinear32.cfb32 color).toNat

/-- The virtual calls. -/
def fillRect : Words → FBDev → Rect → Fin 16 → Bytes → Except Assertion Bytes
  | .fbLinear15 => FBLinear15.fillRect
  | .fbLinear16 => FBLinear16.fillRect
  | .fbLinear32 => FBLinear32.fillRect

def putPixel : Words → FBDev → Fin 16 → Bytes → Int × Int → Except Assertion Bytes
  | .fbLinear15 => FBLinear15.putPixel
  | .fbLinear16 => FBLinear16.putPixel
  | .fbLinear32 => FBLinear32.putPixel

theorem bytes_pos (k : Words) : 0 < k.bytes := by
  cases k <;> decide

end Words

theorem FBLinear15.fgx_bytes : ∀ color : Fin 16,
    ∀ e < 4, byteOf (FBLinear15.fgx color).toNat e =
      byteOf (FBLinear15.cfb16 color).toNat (e % 2) := by
  decide

/-! ### Drawing inside a rectangle -/

/-- The bytes of a pixel. -/
abbrev Dot (bytes : Nat) := Fin bytes → UInt8

/-- The rectangle shows the picture, and no other byte has changed. -/
structure Drawn (d : FBDev) (bytes : Nat) (r : Rect) (picture : Int × Int → Dot bytes)
    (before after : Bytes) : Prop where
  inside : ∀ x y, r.Contains x y → ∀ e : Fin bytes,
    after (d.address bytes x y + e) = picture (x, y) e
  outside : ∀ a, a ∉ d.rectBytes bytes r → after a = before a

section Drawn
variable {d : FBDev} {r : Rect} {bytes value : Nat} {x y : Int}

theorem Rect.Contains.column (contained : r.Contains x y) : (x - r.x1).toNat < r.width := by
  obtain ⟨left, right, -, -⟩ := contained
  rw [Rect.width]
  omega

theorem Rect.Contains.row (contained : r.Contains x y) : (y - r.y1).toNat < r.height := by
  obtain ⟨-, -, top, bottom⟩ := contained
  rw [Rect.height]
  omega

/-- Where a pixel lies in the rows of the rectangle. -/
theorem FBDev.InRange.address_eq (range : d.InRange r) (contained : r.Contains x y) :
    d.address bytes x y = d.address bytes r.x1 r.y1 + (y - r.y1).toNat * d.mNextLine +
      (x - r.x1).toNat * bytes := by
  obtain ⟨⟨left, -, top, -⟩, -, -, -⟩ := range
  obtain ⟨hx, -, hy, -⟩ := contained
  have sameX : x.toNat = r.x1.toNat + (x - r.x1).toNat := by omega
  have sameY : y.toNat = r.y1.toNat + (y - r.y1).toNat := by omega
  rw [address, address, sameX, sameY, Nat.mul_add, Nat.mul_add, Nat.mul_comm (y - r.y1).toNat,
    Nat.mul_comm (x - r.x1).toNat]
  omega

theorem FBDev.InRange.dot_eq (range : d.InRange r) (contained : r.Contains x y) (e : Fin bytes) :
    d.address bytes x y + e = d.address bytes r.x1 r.y1 + (y - r.y1).toNat * d.mNextLine +
      ((x - r.x1).toNat * bytes + e) := by
  rw [range.address_eq contained, Nat.add_assoc]

theorem mem_rectBytes (contained : r.Contains x y) (e : Fin bytes) :
    d.address bytes x y + e ∈ d.rectBytes bytes r :=
  ⟨x, y, contained, Nat.le_add_right _ _, Nat.add_lt_add_left e.isLt _⟩

/-- Rows of one colour. -/
theorem drawn_rows {row : Nat → List Store} (range : d.InRange r)
    (apart : r.width * bytes ≤ d.mNextLine)
    (paints : ∀ dest, Paints (tint value bytes dest) dest (bytes * r.width) (row dest))
    (fb : Bytes) : Drawn d bytes r (fun _ e => byteOf value e) fb
      (write (rows row d.mNextLine r.height (d.address bytes r.x1 r.y1)) fb) := by
  have each : ∀ dest, Paints (fun a => byteOf value ((a - dest) % bytes)) dest (r.width * bytes)
      (row dest) := fun dest => Nat.mul_comm bytes r.width ▸ paints dest
  constructor
  · intro x y contained e
    rw [range.dot_eq contained e]
    refine (write_rows_apply (f := fun i => byteOf value (i % bytes)) apart each fb
      contained.row (row_lt contained.column e.isLt)).trans ?_
    rw [Nat.mul_add_mod_of_lt e.isLt]
  · intro a off
    rw [range.rectBytes_eq] at off
    exact write_rows_of_notMem (f := fun i => byteOf value (i % bytes)) each fb off

theorem drawn_wordFill {row : Nat → Nat → List Store} (range : d.InRange r)
    (apart : r.width * bytes ≤ d.mNextLine)
    (paints : ∀ width dest, Paints (tint value bytes dest) dest (bytes * width) (row width dest))
    (fb : Bytes) : ∃ after, wordFill bytes row d r fb = .ok after ∧
      Drawn d bytes r (fun _ e => byteOf value e) fb after :=
  ⟨_, if_pos range, drawn_rows range apart (paints r.width) fb⟩

/-- The rectangle of one pixel. -/
def dotRect (x y : Int) : Rect := ⟨x, y, x, y⟩

theorem dotRect_inRange (visible : d.OnScreen x y) : d.InRange (dotRect x y) :=
  ⟨visible, visible, le_rfl, le_rfl⟩

theorem drawn_wordPut (visible : d.OnScreen x y) (apart : bytes ≤ d.mNextLine) (fb : Bytes) :
    ∃ after, wordPut bytes value d fb (x, y) = .ok after ∧
      Drawn d bytes (dotRect x y) (fun _ e => byteOf value e) fb after := by
  have single : (dotRect x y).width = 1 := by simp [Rect.width, dotRect]
  have one : (dotRect x y).height = 1 := by simp [Rect.height, dotRect]
  have repeats : ∀ e < bytes, byteOf value e = byteOf value (e % bytes) :=
    fun e he => by rw [Nat.mod_eq_of_lt he]
  have paints : ∀ dest, Paints (tint value bytes dest) dest (bytes * (dotRect x y).width)
      [⟨bytes, dest, value⟩] := by
    intro dest
    rw [single, Nat.mul_one]
    exact paints_tint repeats dest 0
  have drawn := drawn_rows (dotRect_inRange visible) (by rwa [single, Nat.one_mul]) paints fb
  rw [one] at drawn
  exact ⟨_, if_pos visible, drawn⟩

theorem Linear.drawn_revRect (k : Linear) (range : d.InRange r)
    (apart : r.width * k.bytes ≤ d.mNextLine) (fb : Bytes) :
    ∃ after, k.revRect d r fb = .ok after ∧
      Drawn d k.bytes r (fun p e => fb (d.address k.bytes p.1 p.2 + e) ^^^ k.revMask) fb after := by
  obtain ⟨after, returned, inverted⟩ := k.revRect_inverted range apart fb
  exact ⟨after, returned, fun x y contained e => inverted.inside _ (mem_rectBytes contained e),
    inverted.outside⟩

/-! ### The save buffer, pixel by pixel -/

/-- The number of a pixel in a rectangle that is gone through row by row. -/
def Rect.index (r : Rect) (x y : Int) : Nat := (y - r.y1).toNat * r.width + (x - r.x1).toNat

theorem Rect.index_eq (r : Rect) (x y : Int) (e : Fin bytes) :
    r.index x y * bytes + e =
      (y - r.y1).toNat * (r.width * bytes) + ((x - r.x1).toNat * bytes + e) := by
  rw [Rect.index, Nat.add_mul, Nat.mul_assoc, Nat.add_assoc]

/-- The block holds the pixels of the rectangle, and the rest of the heap is as before. -/
structure Stored (d : FBDev) (bytes : Nat) (r : Rect) (block : Nat) (fb before after : Bytes) :
    Prop where
  dots : ∀ x y, r.Contains x y → ∀ e : Fin bytes,
    after (block + (r.index x y * bytes + e)) = fb (d.address bytes x y + e)
  outside : ∀ a, a ∉ r.blockBytes bytes block → after a = before a

theorem stored_packedSave (bytes : Nat) (range : d.InRange r) (block : Nat) (m : Memory) :
    ∃ done, packedSave bytes bytes bytes 1 d block r m = .ok done ∧
      done.memory.fb = m.fb ∧ done.memory.buffer = block ∧
      Stored d bytes r block m.fb m.heap done.memory.heap := by
  have pixel : bytes = 1 * bytes := (Nat.one_mul bytes).symm
  refine ⟨_, packedSave_eq range block m, rfl, rfl, ?_, ?_⟩
  · intro x y contained e
    rw [r.index_eq, range.dot_eq contained e, ← Nat.add_assoc]
    dsimp only [FBDev.saving]
    rw [Nat.mul_one]
    exact copy_block_apply m.fb m.heap le_rfl contained.row (row_lt contained.column e.isLt)
  · intro a off
    apply copy_of_untouched
    intro c hc ha
    exact off (saving_writes pixel hc ha)

theorem drawn_packedRstr (bytes : Nat) (range : d.InRange r)
    (apart : r.width * bytes ≤ d.mNextLine) {m : Memory} (full : m.buffer ≠ 0) :
    ∃ done, packedRstr bytes bytes bytes 1 d r m = .ok done ∧
      done.memory.heap = m.heap ∧ done.memory.buffer = 0 ∧
      Drawn d bytes r (fun p e => m.heap (m.buffer + (r.index p.1 p.2 * bytes + e)))
        m.fb done.memory.fb := by
  refine ⟨_, packedRstr_eq range full, rfl, rfl, ?_, ?_⟩
  · intro x y contained e
    rw [r.index_eq, range.dot_eq contained e, ← Nat.add_assoc m.buffer]
    dsimp only [FBDev.restoring]
    rw [Nat.mul_one]
    exact copy_block_apply m.heap m.fb apart contained.row (row_lt contained.column e.isLt)
  · intro a off
    rw [range.rectBytes_eq] at off
    dsimp only [FBDev.restoring]
    rw [Nat.mul_one]
    exact copy_block_of_notMem m.heap m.fb off

end Drawn

/-! ### The three drivers -/

namespace Words
variable {d : FBDev} {r : Rect} {x y : Int} (k : Words)

/-- A pixel of a colour. -/
def colour (color : Fin 16) : Dot k.bytes := fun e => byteOf (k.cfb color) e

theorem drawn_fillRect (range : d.InRange r) (apart : r.width * k.bytes ≤ d.mNextLine)
    (color : Fin 16) (fb : Bytes) : ∃ after, k.fillRect d r color fb = .ok after ∧
      Drawn d k.bytes r (fun _ => k.colour color) fb after := by
  cases k with
  | fbLinear15 =>
    exact drawn_wordFill range apart (FBLinear16.paints_fgx (FBLinear15.fgx_bytes color)) fb
  | fbLinear16 =>
    exact drawn_wordFill range apart
      (FBLinear16.paints_fillRow color) fb
  | fbLinear32 =>
    have whole : ∀ e < 4, byteOf (FBLinear32.cfb32 color).toNat e =
        byteOf (FBLinear32.cfb32 color).toNat (e % 4) := fun e he => by rw [Nat.mod_eq_of_lt he]
    exact drawn_wordFill range apart
      (fun width dest => paints_putWords whole (dvd_refl 4) width dest 0) fb

theorem drawn_putPixel (visible : d.OnScreen x y) (apart : k.bytes ≤ d.mNextLine)
    (color : Fin 16) (fb : Bytes) : ∃ after, k.putPixel d color fb (x, y) = .ok after ∧
      Drawn d k.bytes (dotRect x y) (fun _ => k.colour color) fb after := by
  cases k with
  | fbLinear15 | fbLinear16 | fbLinear32 => exact drawn_wordPut visible apart fb

theorem saveRect_eq : k.linear.saveRect = packedSave k.bytes k.bytes k.bytes 1 := by
  cases k <;> rfl

theorem rstrRect_eq : k.linear.rstrRect = packedRstr k.bytes k.bytes k.bytes 1 := by
  cases k <;> rfl

theorem revMask_eq : k.linear.revMask = 0xff := by
  cases k <;> rfl

/-- Off the screen every call fails alike. -/
theorem fillRect_off (off : ¬ d.InRange r) (color : Fin 16) (fb : Bytes) :
    k.fillRect d r color fb = .error .range := by
  cases k <;> exact if_neg off

theorem putPixel_off (off : ¬ d.OnScreen x y) (color : Fin 16) (fb : Bytes) :
    k.putPixel d color fb (x, y) = .error .range := by
  cases k <;> exact if_neg off

end Words

end Ucimf.Driver
