import Mathlib.Data.Fin.Basic
import Mathlib.Logic.Function.Basic

/-!
# A planar graphics adapter

The video memory of a VGA adapter in a 16-colour mode: behind every address stand four
bytes, one for each plane, and a pixel is the bit at one place in all four. A byte the
processor reads fills the latches; a byte it writes goes through the registers of the
graphics controller, and the latches supply the bits that are masked out. The map mask of
the sequencer tells which planes are written at all.
-/

namespace Planar

abbrev Byte := BitVec 8

/-- The registers are numbered as the address register selects them. -/
structure Adapter where
  index : Byte
  register : Byte → Byte
  latch : Fin 4 → Byte
  mapMask : Byte
  cell : Nat → Fin 4 → Byte

def spread (b : Bool) : Byte := if b then BitVec.allOnes 8 else 0

/-- Bits 3 and 4 of the data rotate register: copy, AND, OR, XOR. -/
def logical (op data latch : Byte) : Byte :=
  match op.toNat / 8 % 4 with
  | 0 => data
  | 1 => data &&& latch
  | 2 => data ||| latch
  | _ => data ^^^ latch

def masked (mask data latch : Byte) : Byte := (data &&& mask) ||| (latch &&& ~~~mask)

namespace Adapter

/-- Set/reset, its enable bits, data rotate, mode, bit mask. -/
def setReset (t : Adapter) : Byte := t.register 0
def enableSetReset (t : Adapter) : Byte := t.register 1
def dataRotate (t : Adapter) : Byte := t.register 3
def mode (t : Adapter) : Byte := t.register 5
def bitMask (t : Adapter) : Byte := t.register 8

/-- The ports `0x3ce` and `0x3cf`. -/
def outIndex (t : Adapter) (v : Byte) : Adapter := { t with index := v }

def outData (t : Adapter) (v : Byte) : Adapter :=
  { t with register := Function.update t.register t.index v }

def read (t : Adapter) (a : Nat) : Adapter := { t with latch := t.cell a }

def rotated (t : Adapter) (v : Byte) : Byte := v.rotateRight (t.dataRotate.toNat % 8)

/-- What a write of `v` stores in a plane, by the write mode. -/
def stored (t : Adapter) (v : Byte) (p : Fin 4) : Byte :=
  let colour := spread (t.setReset.getLsbD p)
  match t.mode.toNat % 4 with
  | 0 =>
    let data := if t.enableSetReset.getLsbD p then colour else t.rotated v
    masked t.bitMask (logical t.dataRotate data (t.latch p)) (t.latch p)
  | 1 => t.latch p
  | 2 => masked t.bitMask (logical t.dataRotate (spread (v.getLsbD p)) (t.latch p)) (t.latch p)
  | _ => masked (t.bitMask &&& t.rotated v) (logical t.dataRotate colour (t.latch p)) (t.latch p)

def write (t : Adapter) (a : Nat) (v : Byte) : Adapter :=
  { t with cell := Function.update t.cell a fun p =>
      if t.mapMask.getLsbD p then t.stored v p else t.cell a p }

/-- A byte is read and written, so that the bits that are masked out stay. -/
def strike (t : Adapter) (s : Nat × Byte) : Adapter := (t.read s.1).write s.1 s.2

def strikes (t : Adapter) (ss : List (Nat × Byte)) : Adapter := ss.foldl strike t

/-- Bytes are written over what the latches happen to hold. -/
def stores (t : Adapter) (ss : List (Nat × Byte)) : Adapter :=
  ss.foldl (fun t s => t.write s.1 s.2) t

def bit (t : Adapter) (a : Nat) (p : Fin 4) (i : Nat) : Bool := (t.cell a p).getLsbD i

/-- All planes are written. -/
def Enabled (t : Adapter) : Prop := ∀ p : Fin 4, t.mapMask.getLsbD p = true

instance (t : Adapter) : Decidable t.Enabled :=
  inferInstanceAs (Decidable (∀ p : Fin 4, t.mapMask.getLsbD p = true))

/-- Write mode 3 without rotation and with all bits and planes enabled, under a logical
operation. -/
structure Drawing (t : Adapter) (op : Byte) : Prop where
  mode : t.mode = 3
  dataRotate : t.dataRotate = op
  bitMask : t.bitMask = 0xff
  enabled : t.Enabled

variable {t : Adapter} {a : Nat} {v : Byte} {p : Fin 4} {i : Nat}

theorem spread_bit (b : Bool) (inside : i < 8) : (spread b).getLsbD i = b := by
  cases b with
  | false => exact BitVec.getLsbD_zero
  | true =>
    rw [spread, if_pos rfl, BitVec.getLsbD_allOnes]
    exact decide_eq_true inside

theorem masked_bit (mask data latch : Byte) (inside : i < 8) :
    (masked mask data latch).getLsbD i =
      if mask.getLsbD i then data.getLsbD i else latch.getLsbD i := by
  rw [masked, BitVec.getLsbD_or, BitVec.getLsbD_and, BitVec.getLsbD_and, BitVec.getLsbD_not,
    decide_eq_true inside]
  cases mask.getLsbD i <;> simp

theorem stored_drawing {op : Byte} (h : t.Drawing op) (whole : op.toNat % 8 = 0) :
    t.stored v p =
      masked v (logical op (spread (t.setReset.getLsbD p)) (t.latch p)) (t.latch p) := by
  have mode : t.mode.toNat % 4 = 3 := by rw [h.mode]; rfl
  have rotated : t.rotated v = v := by
    rw [Adapter.rotated, h.dataRotate, whole, BitVec.rotateRight_def]
    simp
  have every : (0xff : Byte) &&& v = v := BitVec.allOnes_and
  unfold stored
  rw [mode, h.dataRotate, h.bitMask, rotated, every]
  rfl

/-- With the operation off, a write stores the colour in the bits it sets. -/
theorem stored_copy (h : t.Drawing 0) (inside : i < 8) :
    (t.stored v p).getLsbD i =
      if v.getLsbD i then t.setReset.getLsbD p else (t.latch p).getLsbD i := by
  rw [stored_drawing h rfl, masked_bit _ _ _ inside]
  have plain : (logical 0 (spread (t.setReset.getLsbD p)) (t.latch p)).getLsbD i =
      t.setReset.getLsbD p := spread_bit _ inside
  rw [plain]

/-- With XOR and all planes set, a write inverts the bits it sets. -/
theorem stored_invert (h : t.Drawing 0x18) (white : t.setReset.getLsbD p = true) (inside : i < 8) :
    (t.stored v p).getLsbD i =
      if v.getLsbD i then !(t.latch p).getLsbD i else (t.latch p).getLsbD i := by
  rw [stored_drawing h rfl, masked_bit _ _ _ inside, white]
  have flipped : (logical 0x18 (spread true) (t.latch p)).getLsbD i = !(t.latch p).getLsbD i := by
    show (spread true ^^^ t.latch p).getLsbD i = _
    rw [BitVec.getLsbD_xor, spread_bit true inside, Bool.true_xor]
  rw [flipped]

/-! ### Runs of writes -/

variable {ss : List (Nat × Byte)} {s : Nat × Byte}

/-- One of the writes sets the bit. -/
def covers (ss : List (Nat × Byte)) (a i : Nat) : Bool :=
  ss.any fun s => decide (s.1 = a) && s.2.getLsbD i

theorem covers_iff : covers ss a i = true ↔ ∃ v, (a, v) ∈ ss ∧ v.getLsbD i = true := by
  unfold covers
  rw [List.any_eq_true]
  constructor
  · rintro ⟨⟨b, v⟩, member, both⟩
    obtain ⟨here, set⟩ := Bool.and_eq_true_iff.mp both
    obtain rfl := of_decide_eq_true here
    exact ⟨v, member, set⟩
  · rintro ⟨v, member, set⟩
    exact ⟨(a, v), member, by rw [set]; simp⟩

theorem covers_append (ss ss' : List (Nat × Byte)) (a i : Nat) :
    covers (ss ++ ss') a i = (covers ss a i || covers ss' a i) := List.any_append

@[simp] theorem register_strikes (t : Adapter) (ss : List (Nat × Byte)) :
    (t.strikes ss).register = t.register := by
  induction ss generalizing t with
  | nil => rfl
  | cons s ss ih => exact ih (t.strike s)

@[simp] theorem register_stores (t : Adapter) (ss : List (Nat × Byte)) :
    (t.stores ss).register = t.register := by
  induction ss generalizing t with
  | nil => rfl
  | cons s ss ih => exact ih (t.write s.1 s.2)

@[simp] theorem mapMask_strikes (t : Adapter) (ss : List (Nat × Byte)) :
    (t.strikes ss).mapMask = t.mapMask := by
  induction ss generalizing t with
  | nil => rfl
  | cons s ss ih => exact ih (t.strike s)

@[simp] theorem mapMask_stores (t : Adapter) (ss : List (Nat × Byte)) :
    (t.stores ss).mapMask = t.mapMask := by
  induction ss generalizing t with
  | nil => rfl
  | cons s ss ih => exact ih (t.write s.1 s.2)

theorem Drawing.of_register {op : Byte} {t' : Adapter} (h : t.Drawing op)
    (same : t'.register = t.register) (planes : t'.mapMask = t.mapMask) : t'.Drawing op where
  mode := (congrFun same 5).trans h.mode
  dataRotate := (congrFun same 3).trans h.dataRotate
  bitMask := (congrFun same 8).trans h.bitMask
  enabled := fun p => planes ▸ h.enabled p

theorem bit_write (enabled : t.Enabled) (s : Nat × Byte) (a : Nat) (p : Fin 4) (i : Nat) :
    (t.write s.1 s.2).bit a p i = if s.1 = a then (t.stored s.2 p).getLsbD i else t.bit a p i := by
  unfold bit write
  by_cases here : s.1 = a
  · rw [if_pos here, here]
    simp [enabled p]
  · rw [if_neg here]
    simp [Function.update_of_ne (Ne.symm here)]

theorem bit_strike_copy (h : t.Drawing 0) (inside : i < 8) :
    (t.strike s).bit a p i =
      if s.1 = a ∧ s.2.getLsbD i = true then t.setReset.getLsbD p else t.bit a p i := by
  have drawing : (t.read s.1).Drawing 0 := h.of_register rfl rfl
  rw [strike, bit_write drawing.enabled, stored_copy drawing inside]
  by_cases here : s.1 = a
  · subst here
    simp [read, bit, setReset]
  · simp [here, read, bit]

theorem bit_strike_invert (h : t.Drawing 0x18) (white : t.setReset.getLsbD p = true)
    (inside : i < 8) : (t.strike s).bit a p i =
      if s.1 = a ∧ s.2.getLsbD i = true then !t.bit a p i else t.bit a p i := by
  have drawing : (t.read s.1).Drawing 0x18 := h.of_register rfl rfl
  rw [strike, bit_write drawing.enabled, stored_invert drawing white inside]
  by_cases here : s.1 = a
  · subst here
    simp [read, bit]
  · simp [here, read, bit]

theorem covers_cons : covers (s :: ss) a i = (decide (s.1 = a) && s.2.getLsbD i || covers ss a i) :=
  rfl

theorem bit_strikes_copy (h : t.Drawing 0) (inside : i < 8) :
    (t.strikes ss).bit a p i =
      if covers ss a i then t.setReset.getLsbD p else t.bit a p i := by
  induction ss generalizing t with
  | nil => rfl
  | cons s ss ih =>
    have next : (t.strike s).Drawing 0 := h.of_register rfl rfl
    have colour : (t.strike s).setReset = t.setReset := rfl
    rw [strikes, List.foldl_cons, ← strikes, ih next, bit_strike_copy h inside, colour, covers_cons]
    cases covers ss a i <;> by_cases here : s.1 = a <;> simp [here]

/-- Whole bytes need no latches. -/
theorem bit_stores_copy (h : t.Drawing 0) (whole : ∀ s ∈ ss, s.2 = BitVec.allOnes 8)
    (inside : i < 8) : (t.stores ss).bit a p i =
      if covers ss a i then t.setReset.getLsbD p else t.bit a p i := by
  induction ss generalizing t with
  | nil => rfl
  | cons s ss ih =>
    have next : (t.write s.1 s.2).Drawing 0 := h.of_register rfl rfl
    have colour : (t.write s.1 s.2).setReset = t.setReset := rfl
    have set : s.2.getLsbD i = true := by
      rw [whole s List.mem_cons_self, BitVec.getLsbD_allOnes]
      exact decide_eq_true inside
    rw [stores, List.foldl_cons, ← stores, ih next fun s' member => whole s' (.tail _ member),
      bit_write h.enabled, stored_copy h inside, set, colour, covers_cons, set]
    cases covers ss a i <;> by_cases here : s.1 = a <;> simp [here]

theorem not_covers_of_ne (apart : ∀ s' ∈ ss, s.1 ≠ s'.1) (here : s.1 = a) :
    covers ss a i = false := by
  rw [← Bool.not_eq_true]
  intro covered
  obtain ⟨v, member, -⟩ := covers_iff.mp covered
  exact apart _ member here

/-- Each address is written once. -/
theorem bit_strikes_invert (h : t.Drawing 0x18) (white : t.setReset.getLsbD p = true)
    (apart : ss.Pairwise fun s s' => s.1 ≠ s'.1) (inside : i < 8) :
    (t.strikes ss).bit a p i = if covers ss a i then !t.bit a p i else t.bit a p i := by
  induction ss generalizing t with
  | nil => rfl
  | cons s ss ih =>
    obtain ⟨first, rest⟩ := List.pairwise_cons.mp apart
    have next : (t.strike s).Drawing 0x18 := h.of_register rfl rfl
    rw [strikes, List.foldl_cons, ← strikes, ih next white rest,
      bit_strike_invert h white inside, covers_cons]
    by_cases here : s.1 = a
    · rw [not_covers_of_ne first here]
      simp [here]
    · simp [here]

/-! ### Pixels -/

/-- The pixel at the column `x` of the row `y`, where rows are `line` bytes apart. -/
def pixel (line : Nat) (t : Adapter) (x y : Nat) : Fin 4 → Bool :=
  fun p => t.bit (line * y + x / 8) p (7 - x % 8)

end Adapter

end Planar
