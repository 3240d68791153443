import Ucimf.Support.Memory

/-!
# String instructions over ports

An instruction that moves bytes between a port and memory, once or as often as a counter says,
with an index register that goes up or down. Two machines with index registers of different
widths do the same while their indices pass over the same addresses.
-/

namespace StringIo

open ByteMemory

universe u
variable {S : Type u} {w : Nat}

/-! ### Indices -/

/-- The index behind an access of `size` bytes. -/
def advance (size : Nat) (down : Bool) (i : BitVec w) : BitVec w :=
  if down then i - BitVec.ofNat w size else i + BitVec.ofNat w size

/-- The addresses of `n` accesses. -/
def addresses (linear : BitVec w → Nat) (size : Nat) (down : Bool) : Nat → BitVec w → List Nat
  | 0, _ => []
  | n + 1, i => linear i :: addresses linear size down n (advance size down i)

/-- `n` accesses, each at the address of the index. -/
def transfer (move : Nat → S → S) (linear : BitVec w → Nat) (size : Nat) (down : Bool) :
    Nat → BitVec w → S → BitVec w × S
  | 0, i, s => (i, s)
  | n + 1, i, s => transfer move linear size down n (advance size down i) (move (linear i) s)

theorem transfer_eq (move : Nat → S → S) (linear : BitVec w → Nat) (size : Nat) (down : Bool)
    (n : Nat) (i : BitVec w) (s : S) :
    transfer move linear size down n i s =
      ((advance size down)^[n] i,
        (addresses linear size down n i).foldl (fun s a => move a s) s) := by
  induction n generalizing i s with
  | zero => rfl
  | succ n ih => exact ih _ _

/-- The accesses stay within what the index can address. -/
def Within (size : Nat) (down : Bool) (n : Nat) (i : BitVec w) : Prop :=
  if down then (n - 1) * size ≤ i.toNat ∧ i.toNat + size ≤ 2 ^ w
  else i.toNat + n * size ≤ 2 ^ w

instance (size : Nat) (down : Bool) (n : Nat) (i : BitVec w) : Decidable (Within size down n i) :=
  inferInstanceAs (Decidable (if down then _ ∧ _ else _ ≤ _))

variable {size n : Nat} {down : Bool}

theorem Within.descends {i : BitVec w} (h : Within size true n i) :
    (n - 1) * size ≤ i.toNat ∧ i.toNat + size ≤ 2 ^ w := by
  rwa [Within, if_pos rfl] at h

theorem Within.ascends {i : BitVec w} (h : Within size false n i) : i.toNat + n * size ≤ 2 ^ w := by
  rwa [Within, if_neg Bool.false_ne_true] at h

theorem toNat_advance_down {i : BitVec w} (used : size ≤ i.toNat) :
    (advance size true i).toNat = i.toNat - size := by
  have small : size < 2 ^ w := lt_of_le_of_lt used i.isLt
  have same : (BitVec.ofNat w size).toNat = size := by
    rw [BitVec.toNat_ofNat, Nat.mod_eq_of_lt small]
  rw [advance, if_pos rfl, BitVec.toNat_sub_of_le, same]
  rwa [BitVec.le_def, same]

theorem toNat_advance_up {i : BitVec w} (room : i.toNat + size < 2 ^ w) :
    (advance size false i).toNat = i.toNat + size := by
  rw [advance, if_neg Bool.false_ne_true, BitVec.toNat_add, BitVec.toNat_ofNat, Nat.add_mod_mod,
    Nat.mod_eq_of_lt room]

/-- Behind the first access the rest still stays within. -/
theorem Within.tail {i : BitVec w} (positive : 0 < size) (h : Within size down (n + 2) i) :
    Within size down (n + 1) (advance size down i) := by
  have more : (n + 1) * size = n * size + size := Nat.succ_mul n size
  cases down with
  | true =>
    obtain ⟨low, high⟩ := h.descends
    rw [Nat.add_sub_cancel (n + 1) 1, more] at low
    rw [Within, if_pos rfl, toNat_advance_down (by omega), Nat.add_sub_cancel]
    omega
  | false =>
    have room := h.ascends
    have most : (n + 2) * size = (n + 1) * size + size := Nat.succ_mul (n + 1) size
    rw [Within, if_neg Bool.false_ne_true, toNat_advance_up (by omega)]
    omega

section Widths
variable {v base : Nat}

/-- Two indices of different widths pass over the same addresses while the narrower one stays
within its range. -/
theorem addresses_wider (positive : 0 < size) (room : base + 2 ^ w ≤ 2 ^ v) {i : BitVec w}
    (within : Within size down n i) :
    addresses BitVec.toNat size down n (BitVec.ofNat v (base + i.toNat)) =
      addresses (fun i => base + i.toNat) size down n i := by
  induction n generalizing i with
  | zero => rfl
  | succ n ih =>
    have same : ∀ j : BitVec w, (BitVec.ofNat v (base + j.toNat)).toNat = base + j.toNat := by
      intro j
      have small := j.isLt
      rw [BitVec.toNat_ofNat, Nat.mod_eq_of_lt (by omega)]
    have first := same i
    cases n with
    | zero => exact congrArg (· :: []) first
    | succ n =>
      have next : advance size down (BitVec.ofNat v (base + i.toNat)) =
          BitVec.ofNat v (base + (advance size down i).toNat) := by
        apply BitVec.eq_of_toNat_eq
        have small := i.isLt
        have more : (n + 1) * size = n * size + size := Nat.succ_mul n size
        cases down with
        | true =>
          have low := within.descends.1
          rw [Nat.add_sub_cancel (n + 1) 1, more] at low
          rw [toNat_advance_down (by rw [first]; omega), first, same,
            toNat_advance_down (by omega)]
          omega
        | false =>
          have high := within.ascends
          have most : (n + 1 + 1) * size = (n + 1) * size + size := Nat.succ_mul (n + 1) size
          rw [toNat_advance_up (by rw [first]; omega), first, same, toNat_advance_up (by omega)]
          omega
      have rest := ih (within.tail positive)
      rw [← next] at rest
      exact congrArg₂ (· :: ·) first rest

theorem setWidth_sub (narrow : w ≤ v) (i j : BitVec v) :
    (i - j).setWidth w = i.setWidth w - j.setWidth w := by
  rw [BitVec.sub_eq_add_neg, BitVec.sub_eq_add_neg, BitVec.setWidth_add _ _ narrow,
    BitVec.setWidth_neg_of_le narrow]

theorem setWidth_advance (narrow : w ≤ v) (i : BitVec v) :
    (advance size down i).setWidth w = advance size down (i.setWidth w) := by
  cases down with
  | true =>
    rw [advance, advance, if_pos rfl, if_pos rfl, setWidth_sub narrow,
      BitVec.setWidth_ofNat_of_le narrow]
  | false =>
    rw [advance, advance, if_neg Bool.false_ne_true, if_neg Bool.false_ne_true,
      BitVec.setWidth_add _ _ narrow, BitVec.setWidth_ofNat_of_le narrow]

theorem advance_add (i j : BitVec w) : advance size down (i + j) = advance size down i + j := by
  cases down with
  | true =>
    rw [advance, advance, if_pos rfl, if_pos rfl, BitVec.sub_eq_add_neg, BitVec.sub_eq_add_neg,
      BitVec.add_assoc, BitVec.add_comm j, ← BitVec.add_assoc]
  | false =>
    rw [advance, advance, if_neg Bool.false_ne_true, if_neg Bool.false_ne_true, BitVec.add_assoc,
      BitVec.add_comm j, ← BitVec.add_assoc]

/-- The low bits of the wider index, less its base, are the narrower index, wrapped or not. -/
theorem iterate_wider (narrow : w ≤ v) (base : BitVec v) (i : BitVec w) :
    ((advance size down)^[n] (base + i.setWidth v) - base).setWidth w =
      (advance size down)^[n] i := by
  have moved : ∀ j : BitVec w, (advance size down)^[n] (j + base.setWidth w) =
      (advance size down)^[n] j + base.setWidth w := by
    intro j
    exact Function.Commute.iterate_left (f := advance size down)
      (fun j => advance_add j (base.setWidth w)) n j
  have low : ((advance size down)^[n] (base + i.setWidth v)).setWidth w =
      (advance size down)^[n] ((base + i.setWidth v).setWidth w) := by
    exact Function.Semiconj.iterate_right (f := BitVec.setWidth w)
      (fun j => setWidth_advance narrow j) n _
  have start : (base + i.setWidth v).setWidth w = i + base.setWidth w := by
    rw [BitVec.setWidth_add _ _ narrow, BitVec.setWidth_setWidth_of_le _ narrow,
      BitVec.setWidth_eq, BitVec.add_comm]
  rw [setWidth_sub narrow, low, start, moved, BitVec.add_sub_cancel]

/-- A transfer with the wider index does what one with the narrower index does. -/
theorem transfer_wider (narrow : w ≤ v) (positive : 0 < size) (room : base + 2 ^ w ≤ 2 ^ v)
    {i : BitVec w} (within : Within size down n i) (move : Nat → S → S) (s : S) :
    let wide := transfer move BitVec.toNat size down n (BitVec.ofNat v base + i.setWidth v) s
    let narrow := transfer move (fun i : BitVec w => base + i.toNat) size down n i s
    (wide.1 - BitVec.ofNat v base).setWidth w = narrow.1 ∧ wide.2 = narrow.2 := by
  have start : BitVec.ofNat v base + i.setWidth v = BitVec.ofNat v (base + i.toNat) := by
    rw [BitVec.ofNat_add, BitVec.ofNat_toNat]
  dsimp only
  rw [transfer_eq, transfer_eq]
  constructor
  · exact iterate_wider narrow _ i
  · dsimp only
    rw [start, addresses_wider positive room within]

end Widths

/-! ### Ports -/

/-- Devices behind ports: what it does to read and to write a number of bytes. -/
structure Ports (D : Type u) where
  input : Nat → Nat → D → Nat × D
  output : Nat → Nat → Nat → D → D

variable {D : Type u} (ports : Ports D) (port : Nat)

/-- `size` bytes from a port to memory. -/
def fetch (size addr : Nat) (s : Bytes × D) : Bytes × D :=
  let (value, d) := ports.input port size s.2
  ((⟨size, addr, value⟩ : Store).apply s.1, d)

/-- `size` bytes of memory to a port. -/
def send (size addr : Nat) (s : Bytes × D) : Bytes × D :=
  (s.1, ports.output port size (load s.1 addr size) s.2)

end StringIo
