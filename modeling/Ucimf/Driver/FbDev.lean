import Ucimf.Support.Memory
import Mathlib.Data.Int.ModEq

/-!
# Opening the framebuffer

Every `GraphPort` calls `FBDev::TryOpen` again, and the geometry lives in statics: the
driver's constructor reads `mXres` before this call sets it, and `mNextLine` is set by
that constructor. All linear drivers address the pixel `(x, y)` at
`mNextLine * y + Bpp * x`.
-/

namespace Ucimf.Driver

open ByteMemory

/-- A value stored in an `int`. -/
def toInt (x : Int) : Int := x.bmod (2 ^ 32)

/-- A value stored in an `unsigned long`. -/
def toULong (x : Int) : Nat := (x % 2 ^ 64).toNat

theorem toInt_toInt_mul (x y : Int) : toInt (toInt x * y) = toInt (x * y) := Int.bmod_mul_bmod ..

/-- A negative `int` becomes a huge `unsigned long`. -/
theorem toULong_toInt {m : Nat} (small : m < 2 ^ 32) :
    toULong (toInt m) = if m < 2 ^ 31 then m else m + (2 ^ 64 - 2 ^ 32) := by
  rw [toInt, Int.bmod_def, toULong]
  split <;> split <;> omega

inductive FbType
  | packedPixels
  | planes
  | interleavedPlanes
  | text
  | vgaPlanes
  | unknown
  deriving DecidableEq, Repr

/-- The fields of `fb_fix_screeninfo` and `fb_var_screeninfo` that matter here. -/
structure ScreenInfo where
  type : FbType
  lineLength : UInt32
  smemLen : UInt32
  xres : UInt32
  yres : UInt32
  bitsPerPixel : UInt32
  greenLength : UInt32
  deriving DecidableEq, Repr

inductive OpenRc
  | normal
  | unsupport
  | failure
  deriving DecidableEq, Repr

inductive Linear
  | fbLinear8
  | fbLinear15
  | fbLinear16
  | fbLinear24
  | fbLinear32
  deriving DecidableEq, Repr

/-- The statics of `GraphDev` and `FBDev`. -/
structure FBDev where
  mXres : Int := 0
  mYres : Int := 0
  mNextLine : Nat := 0
  mpBufLen : Int := 0
  mpGraphDev : Option Linear := none
  deriving DecidableEq, Repr

namespace FBDev

/-- `mNextLine = mNextLine ? mNextLine : mXres * bytes`. -/
def construct (bytes : Nat) (d : FBDev) : FBDev :=
  if d.mNextLine = 0 then { d with mNextLine := toULong (toInt (d.mXres * bytes)) } else d

end FBDev

/-- The constructors; that of `FBLinear16` also runs for the derived `FBLinear15`. -/
def Linear.construct : Linear → FBDev → FBDev
  | .fbLinear8 => FBDev.construct 1
  | .fbLinear15 => fun d => (d.construct 2).construct 2
  | .fbLinear16 => FBDev.construct 2
  | .fbLinear24 => FBDev.construct 3
  | .fbLinear32 => FBDev.construct 4

/-- The driver `LinearSet` chooses. -/
def ScreenInfo.linear (info : ScreenInfo) : Option Linear :=
  match info.bitsPerPixel.toNat with
  | 8 => some .fbLinear8
  | 15 => some .fbLinear15
  | 16 => if info.greenLength = 5 then some .fbLinear15 else some .fbLinear16
  | 24 => some .fbLinear24
  | 32 => some .fbLinear32
  | _ => none

namespace FBDev

def linearSet (info : ScreenInfo) (d : FBDev) : OpenRc × FBDev :=
  match info.linear with
  | some k => (.normal, { k.construct d with mpGraphDev := some k })
  | none => (.unsupport, d)

/-- `TryOpen`: `found` tells whether a device file could be opened, `mapped` whether `mmap`
succeeded. -/
def tryOpen (found mapped : Bool) (info : ScreenInfo) (d : FBDev) : OpenRc × FBDev :=
  if found then
    match info.type with
    | .packedPixels =>
      match linearSet info d with
      | (.normal, d) =>
        let d := { d with
          mXres := toInt (info.lineLength / (info.bitsPerPixel / 8)).toNat
          mYres := toInt info.yres.toNat
          mpBufLen := toInt info.smemLen.toNat }
        -- with the `throw` commented out, the assignment to `mNextLine` became the body
        -- of `if (mpBuf == MAP_FAILED)`
        (.normal, if mapped then d else { d with mNextLine := info.lineLength.toNat })
      | (rc, d) => (rc, d)
    | _ => (.unsupport, d)
  else (.failure, d)

/-- The statics after `n` opens that found a device and could map it. -/
def opens (info : ScreenInfo) : Nat → FBDev
  | 0 => {}
  | n + 1 => (tryOpen true true info (opens info n)).2

end FBDev

/-- Bytes per pixel. -/
def ScreenInfo.bytes (info : ScreenInfo) : Nat := (info.bitsPerPixel.toNat + 7) / 8

/-- A framebuffer the linear drivers support: the visible part of a line fits in the line
and all lines fit in the memory. -/
structure ScreenInfo.Linearly (info : ScreenInfo) : Prop where
  packed : info.type = .packedPixels
  depth : info.bitsPerPixel.toNat ∈ [8, 15, 16, 24, 32]
  line : info.xres.toNat * info.bytes ≤ info.lineLength.toNat
  memory : info.lineLength.toNat * info.yres.toNat ≤ info.smemLen.toNat

/-! ### Addresses -/

namespace FBDev

variable {d : FBDev} {bytes : Nat}

/-- Where the linear drivers find the pixel `(x, y)`. -/
def address (d : FBDev) (bytes : Nat) (x y : Int) : Nat :=
  d.mNextLine * y.toNat + bytes * x.toNat

def pixelBytes (d : FBDev) (bytes : Nat) (x y : Int) : Set Nat :=
  Set.Ico (d.address bytes x y) (d.address bytes x y + bytes)

def OnScreen (d : FBDev) (x y : Int) : Prop := 0 ≤ x ∧ x < d.mXres ∧ 0 ≤ y ∧ y < d.mYres

instance (d : FBDev) (x y : Int) : Decidable (d.OnScreen x y) :=
  inferInstanceAs (Decidable (0 ≤ x ∧ x < d.mXres ∧ 0 ≤ y ∧ y < d.mYres))

theorem OnScreen.column {x y : Int} (h : d.OnScreen x y) : x.toNat < d.mXres.toNat := by
  obtain ⟨left, right, -, -⟩ := h
  omega

theorem OnScreen.row {x y : Int} (h : d.OnScreen x y) : y.toNat < d.mYres.toNat := by
  obtain ⟨-, -, top, bottom⟩ := h
  omega

theorem mem_pixelBytes {x y : Int} {a : Nat} : a ∈ d.pixelBytes bytes x y ↔
    ∃ e < bytes, a = y.toNat * d.mNextLine + (x.toNat * bytes + e) := by
  rw [pixelBytes, address, Nat.mul_comm d.mNextLine, Nat.mul_comm bytes]
  constructor
  · rintro ⟨low, high⟩
    exact ⟨a - (y.toNat * d.mNextLine + x.toNat * bytes), by omega, by omega⟩
  · rintro ⟨e, he, rfl⟩
    exact ⟨by omega, by omega⟩

/-- Rows at least as long as the screen is wide keep the pixels apart. -/
theorem pixelBytes_disjoint (room : d.mXres.toNat * bytes ≤ d.mNextLine) {x y x' y' : Int}
    (here : d.OnScreen x y) (there : d.OnScreen x' y') (differ : (x, y) ≠ (x', y')) :
    Disjoint (d.pixelBytes bytes x y) (d.pixelBytes bytes x' y') := by
  rw [Set.disjoint_left]
  intro a ha ha'
  obtain ⟨e, he, place⟩ := mem_pixelBytes.mp ha
  obtain ⟨e', he', place'⟩ := mem_pixelBytes.mp ha'
  have column := (row_lt here.column he).trans_le room
  have column' := (row_lt there.column he').trans_le room
  obtain ⟨row, rest⟩ := row_unique column column' (place.symm.trans place')
  obtain ⟨pixel, -⟩ := row_unique he he' rest
  obtain ⟨left, -, top, -⟩ := here
  obtain ⟨left', -, top', -⟩ := there
  exact differ (by rw [Prod.mk.injEq]; omega)

theorem pixelBytes_lt (room : d.mXres.toNat * bytes ≤ d.mNextLine) {x y : Int}
    (here : d.OnScreen x y) {a : Nat} (ha : a ∈ d.pixelBytes bytes x y) :
    a < d.mYres.toNat * d.mNextLine := by
  obtain ⟨e, he, rfl⟩ := mem_pixelBytes.mp ha
  exact row_lt here.row ((row_lt here.column he).trans_le room)

/-- What addressing relies on. -/
structure Faithful (d : FBDev) (info : ScreenInfo) : Prop where
  line : d.mNextLine = info.lineLength.toNat
  apart : ∀ x y x' y', d.OnScreen x y → d.OnScreen x' y' → (x, y) ≠ (x', y') →
    Disjoint (d.pixelBytes info.bytes x y) (d.pixelBytes info.bytes x' y')
  inside : ∀ x y, d.OnScreen x y → d.pixelBytes info.bytes x y ⊆ Set.Ico 0 info.smemLen.toNat

end FBDev

/-! ### Repeated opens -/

def Linear.bytes : Linear → Nat
  | .fbLinear8 => 1
  | .fbLinear15 | .fbLinear16 => 2
  | .fbLinear24 => 3
  | .fbLinear32 => 4

theorem Linear.construct_eq (k : Linear) (d : FBDev) : k.construct d = d.construct k.bytes := by
  cases k with
  | fbLinear15 =>
    -- the second constructor finds what the first one stored, or stores it again
    simp only [construct, bytes, FBDev.construct]
    split <;> simp_all
  | fbLinear8 | fbLinear16 | fbLinear24 | fbLinear32 => rfl

section Opens
variable {info : ScreenInfo}

theorem ScreenInfo.Linearly.linear (h : info.Linearly) :
    ∃ k, info.linear = some k ∧ k.bytes = info.bytes := by
  have depth := h.depth
  simp only [List.mem_cons, List.not_mem_nil, or_false] at depth
  unfold ScreenInfo.linear ScreenInfo.bytes
  rcases depth with depth | depth | depth | depth | depth <;> rw [depth]
  · exact ⟨_, rfl, rfl⟩
  · exact ⟨_, rfl, rfl⟩
  · by_cases green : info.greenLength = 5
    · exact ⟨.fbLinear15, by simp [green], rfl⟩
    · exact ⟨.fbLinear16, by simp [green], rfl⟩
  · exact ⟨_, rfl, rfl⟩
  · exact ⟨_, rfl, rfl⟩

/-- `bits_per_pixel / 8` is the pixel size at every depth but 15. -/
theorem ScreenInfo.Linearly.quotient (h : info.Linearly)
    (fifteen : info.bitsPerPixel.toNat ≠ 15) : info.bitsPerPixel.toNat / 8 = info.bytes := by
  have depth := h.depth
  simp only [List.mem_cons, List.not_mem_nil, or_false] at depth
  rw [ScreenInfo.bytes]
  omega

theorem wrapped_eq_iff {L : Nat} (small : L < 2 ^ 32) (bytes : Nat) :
    toULong (toInt (toInt (L / bytes : Nat) * bytes)) = L ↔ bytes ∣ L ∧ L < 2 ^ 31 := by
  have below : L / bytes * bytes ≤ L := Nat.div_mul_le_self L bytes
  rw [toInt_toInt_mul, ← Nat.cast_mul, toULong_toInt (below.trans_lt small)]
  constructor
  · intro same
    split at same
    · exact ⟨Dvd.intro_left _ same, by omega⟩
    · omega
  · rintro ⟨divides, small⟩
    rw [Nat.div_mul_cancel divides, if_pos small]

theorem wrapped_twice_iff {L : Nat} (small : L < 2 ^ 32) :
    toULong (toInt (toInt L * 2)) = L ↔ L = 0 := by
  rw [toInt_toInt_mul, toInt, Int.bmod_def, toULong]
  split <;> omega

namespace FBDev

theorem construct_mNextLine (d : FBDev) (bytes : Nat) : (d.construct bytes).mNextLine =
    if d.mNextLine = 0 then toULong (toInt (d.mXres * bytes)) else d.mNextLine := by
  unfold construct
  split <;> rfl

/-- What an open does to the statics. -/
theorem tryOpen_eq (h : info.Linearly) (d : FBDev) :
    (tryOpen true true info d).1 = .normal ∧
    (tryOpen true true info d).2.mXres =
      toInt (info.lineLength.toNat / (info.bitsPerPixel.toNat / 8) : Nat) ∧
    (tryOpen true true info d).2.mYres = toInt info.yres.toNat ∧
    (tryOpen true true info d).2.mNextLine = (d.construct info.bytes).mNextLine := by
  obtain ⟨k, chosen, same⟩ := h.linear
  have quotient : (info.lineLength / (info.bitsPerPixel / 8)).toNat =
      info.lineLength.toNat / (info.bitsPerPixel.toNat / 8) := by
    rw [UInt32.toNat_div, UInt32.toNat_div]
    rfl
  simp only [tryOpen, h.packed, linearSet, chosen, k.construct_eq, same, quotient, if_true]
  exact ⟨trivial, trivial, trivial, trivial⟩

theorem opens_size (h : info.Linearly) (n : Nat) :
    (opens info (n + 1)).mXres =
      toInt (info.lineLength.toNat / (info.bitsPerPixel.toNat / 8) : Nat) ∧
    (opens info (n + 1)).mYres = toInt info.yres.toNat := by
  obtain ⟨-, width, height, -⟩ := tryOpen_eq h (opens info n)
  exact ⟨width, height⟩

/-- The first constructor sees a screen without columns. -/
theorem opens_line_first (h : info.Linearly) : (opens info 1).mNextLine = 0 := by
  obtain ⟨-, -, -, line⟩ := tryOpen_eq h (opens info 0)
  rw [opens, line, construct_mNextLine]
  simp [opens, toULong, toInt]

/-- From the second open on, the line is the rounded screen width times the pixel size. -/
theorem opens_line_later (h : info.Linearly) (n : Nat) : (opens info (n + 2)).mNextLine =
    toULong (toInt (toInt (info.lineLength.toNat / (info.bitsPerPixel.toNat / 8) : Nat) *
      info.bytes)) := by
  induction n with
  | zero =>
    obtain ⟨-, -, -, line⟩ := tryOpen_eq h (opens info 1)
    rw [opens, line, construct_mNextLine, if_pos (opens_line_first h), (opens_size h 0).1]
  | succ n ih =>
    obtain ⟨-, -, -, line⟩ := tryOpen_eq h (opens info (n + 2))
    rw [opens, line, construct_mNextLine, (opens_size h (n + 1)).1]
    split
    · rfl
    · exact ih

theorem opens_line_iff (h : info.Linearly) (n : Nat) :
    (opens info (n + 1)).mNextLine = info.lineLength.toNat ↔ info.lineLength.toNat = 0 ∨
      (1 ≤ n ∧ info.bitsPerPixel.toNat ≠ 15 ∧ info.bytes ∣ info.lineLength.toNat ∧
        info.lineLength.toNat < 2 ^ 31) := by
  have small := info.lineLength.toNat_lt
  cases n with
  | zero =>
    rw [opens_line_first h]
    omega
  | succ n =>
    rw [opens_line_later h]
    by_cases fifteen : info.bitsPerPixel.toNat = 15
    · have twice := wrapped_twice_iff small
      simp only [ScreenInfo.bytes, fifteen, Nat.reduceAdd, Nat.reduceDiv, Nat.div_one,
        Nat.cast_ofNat, ne_eq, not_true, false_and, and_false, or_false]
      exact twice
    · rw [h.quotient fifteen, wrapped_eq_iff small]
      constructor
      · exact fun fits => .inr ⟨by omega, fifteen, fits⟩
      · rintro (empty | ⟨-, -, fits⟩)
        · rw [empty]
          exact ⟨dvd_zero _, by decide⟩
        · exact fits

/-- With the right line the screen is no wider than the line and no higher than reported. -/
theorem opens_room (h : info.Linearly) {n : Nat}
    (line : (opens info (n + 1)).mNextLine = info.lineLength.toNat) :
    (opens info (n + 1)).mXres.toNat * info.bytes ≤ info.lineLength.toNat ∧
      (opens info (n + 1)).mYres.toNat ≤ info.yres.toNat := by
  obtain ⟨width, height⟩ := opens_size h n
  have unwrapped : ∀ m : Nat, (toInt m).toNat ≤ m := by
    intro m
    rw [toInt, Int.bmod_def]
    split <;> omega
  refine ⟨?_, height ▸ unwrapped _⟩
  rcases (opens_line_iff h n).mp line with empty | ⟨-, fifteen, -, -⟩
  · rw [width, empty, Nat.zero_div]
    simp [toInt]
  · rw [width, h.quotient fifteen]
    exact (Nat.mul_le_mul_right _ (unwrapped _)).trans (Nat.div_mul_le_self _ _)

/-- After `n` opens the addresses are right in exactly these cases. -/
theorem faithful_iff (h : info.Linearly) {n : Nat} (opened : 1 ≤ n) :
    (opens info n).Faithful info ↔ info.lineLength.toNat = 0 ∨
      (2 ≤ n ∧ info.bitsPerPixel.toNat ≠ 15 ∧ info.bytes ∣ info.lineLength.toNat ∧
        info.lineLength.toNat < 2 ^ 31) := by
  obtain ⟨n, rfl⟩ := Nat.exists_eq_add_of_le' opened
  rw [show 2 ≤ n + 1 ↔ 1 ≤ n by omega, ← opens_line_iff h n]
  constructor
  · exact Faithful.line
  · intro line
    obtain ⟨wide, high⟩ := opens_room h line
    rw [← line] at wide
    refine ⟨line, fun x y x' y' here there differ => pixelBytes_disjoint wide here there differ,
      fun x y here a ha => ⟨a.zero_le, ?_⟩⟩
    calc a < (opens info (n + 1)).mYres.toNat * (opens info (n + 1)).mNextLine :=
          pixelBytes_lt wide here ha
      _ ≤ info.yres.toNat * info.lineLength.toNat := by
          rw [line]
          exact Nat.mul_le_mul_right _ high
      _ ≤ info.smemLen.toNat := by
          rw [Nat.mul_comm]
          exact h.memory

/-- 1366 x 768 pixels of 24 bits, the lines padded to a multiple of four bytes. -/
def padded24 : ScreenInfo :=
  ⟨.packedPixels, 4100, 3148800, 1366, 768, 24, 8⟩

theorem unfaithful : padded24.Linearly ∧ ¬ (opens padded24 1).Faithful padded24 ∧
    ¬ (opens padded24 3).Faithful padded24 :=
  ⟨⟨rfl, by decide, by decide, by decide⟩,
    fun faithful => absurd faithful.line (by decide),
    fun faithful => absurd faithful.line (by decide)⟩

theorem faithful_padded32 :
    (opens ⟨.packedPixels, 5504, 4227072, 1366, 768, 32, 8⟩ 3).Faithful
      ⟨.packedPixels, 5504, 4227072, 1366, 768, 32, 8⟩ :=
  (faithful_iff ⟨rfl, by decide, by decide, by decide⟩ (by decide)).mpr
    (.inr ⟨by decide, by decide, by decide, by decide⟩)

end FBDev

end Opens

end Ucimf.Driver
