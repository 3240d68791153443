import Ucimf.Support.StringIo

/-!
# Port instructions in real mode

A program of the BIOS runs in virtual-8086 mode, where an access to a port faults.
`emulate` reads the instruction that faulted and makes the access in its place. Here it is
compared with what the processor itself does with the instruction in real mode.
-/

namespace Ucimf.Driver

open ByteMemory StringIo

/-- The registers of `context.vm`. -/
structure Regs where
  edi : BitVec 32
  esi : BitVec 32
  ebp : BitVec 32
  ebx : BitVec 32
  edx : BitVec 32
  ecx : BitVec 32
  eax : BitVec 32
  eip : BitVec 32
  esp : BitVec 32
  eflags : BitVec 32
  cs : BitVec 16
  ss : BitVec 16
  ds : BitVec 16
  es : BitVec 16
  fs : BitVec 16
  gs : BitVec 16
  deriving DecidableEq, Repr

/-- The registers, the memory of the process and the devices behind the ports. -/
structure Machine (D : Type) where
  regs : Regs
  mem : Bytes
  dev : D

variable {D : Type}

/-- `DIRECTION_FLAG`. -/
def Regs.down (r : Regs) : Bool := r.eflags &&& 0x400#32 ≠ 0

/-- `(unsigned int) seg << 4`. -/
def paragraph (seg : BitVec 16) : BitVec 32 := seg.setWidth 32 <<< 4

/-- `reg &= 0xffff0000; reg |= value & 0xffff`. -/
def putWord (reg value : BitVec 32) : BitVec 32 :=
  reg &&& 0xffff0000#32 ||| value &&& 0xffff#32

/-- The register with the `size` lowest bytes replaced. -/
def putBytes (size : Nat) (reg : BitVec 32) (value : Nat) : BitVec 32 :=
  if size = 1 then reg.extractLsb' 8 24 ++ BitVec.ofNat 8 value
  else if size = 2 then reg.extractLsb' 16 16 ++ BitVec.ofNat 16 value
  else BitVec.ofNat 32 value

namespace Machine

section Emulate
variable (ports : Ports D)

/-! ### The source -/

/-- The string instruction `ins` of the process, on `count` items at flat addresses. -/
def hostIns (count size : Nat) (m : Machine D) : Machine D :=
  let edx := m.regs.edx &&& 0xffff#32
  let edi := (m.regs.edi &&& 0xffff#32) + paragraph m.regs.ds
  let (edi, mem, dev) := transfer (fetch ports edx.toNat size) BitVec.toNat size m.regs.down
    count edi (m.mem, m.dev)
  let edi := edi - paragraph m.regs.ds
  { regs := { m.regs with edi := putWord m.regs.edi edi }, mem := mem, dev := dev }

/-- The string instruction `outs` of the process. -/
def hostOuts (count size : Nat) (m : Machine D) : Machine D :=
  let edx := m.regs.edx &&& 0xffff#32
  let esi := (m.regs.esi &&& 0xffff#32) + paragraph m.regs.ds
  let (esi, mem, dev) := transfer (send ports edx.toNat size) BitVec.toNat size m.regs.down
    count esi (m.mem, m.dev)
  let esi := esi - paragraph m.regs.ds
  { regs := { m.regs with esi := putWord m.regs.esi esi }, mem := mem, dev := dev }

/-- The number of items of `rep`. -/
def ecxWord (m : Machine D) : Nat := (m.regs.ecx &&& 0xffff#32).toNat

/-- `rep` leaves no count. -/
def clearCount (m : Machine D) : Machine D :=
  { m with regs := { m.regs with ecx := putWord m.regs.ecx 0 } }

def emIns (size : Nat) (m : Machine D) : Machine D := m.hostIns ports 1 size

def emRepIns (size : Nat) (m : Machine D) : Machine D :=
  (m.hostIns ports m.ecxWord size).clearCount

def emOuts (size : Nat) (m : Machine D) : Machine D := m.hostOuts ports 1 size

def emRepOuts (size : Nat) (m : Machine D) : Machine D :=
  (m.hostOuts ports m.ecxWord size).clearCount

/-- `em_inb`, `em_inw` and `em_inl`, by their size. -/
def emIn (size : Nat) (m : Machine D) : Machine D :=
  let (value, dev) := ports.input (m.regs.edx.setWidth 16).toNat size m.dev
  { m with regs := { m.regs with eax := putBytes size m.regs.eax value }, dev := dev }

def emInb (m : Machine D) : Machine D := m.emIn ports 1
def emInw (m : Machine D) : Machine D := m.emIn ports 2
def emInl (m : Machine D) : Machine D := m.emIn ports 4

/-- `em_outb`, `em_outw` and `em_outl`, by their size. -/
def emOut (size : Nat) (m : Machine D) : Machine D :=
  let value := m.regs.eax.toNat % 256 ^ size
  { m with dev := ports.output (m.regs.edx.setWidth 16).toNat size value m.dev }

def emOutb (m : Machine D) : Machine D := m.emOut ports 1
def emOutw (m : Machine D) : Machine D := m.emOut ports 2
def emOutl (m : Machine D) : Machine D := m.emOut ports 4

/-- The opcodes of `emulate`; `none` is its `return 0`. -/
def emPort (opcode : UInt8) (size rep : Bool) (m : Machine D) : Option (Machine D) :=
  if opcode = 0x6c then some (if rep then m.emRepIns ports 1 else m.emIns ports 1)
  else if opcode = 0x6d then
    some (if rep then if size then m.emRepIns ports 4 else m.emRepIns ports 2
      else if size then m.emIns ports 4 else m.emIns ports 2)
  else if opcode = 0x6e then some (if rep then m.emRepOuts ports 1 else m.emOuts ports 1)
  else if opcode = 0x6f then
    some (if rep then if size then m.emRepOuts ports 4 else m.emRepOuts ports 2
      else if size then m.emOuts ports 4 else m.emOuts ports 2)
  else if opcode = 0xec then some (m.emInb ports)
  else if opcode = 0xed then some (if size then m.emInl ports else m.emInw ports)
  else if opcode = 0xee then some (m.emOutb ports)
  else if opcode = 0xef then some (if size then m.emOutl ports else m.emOutw ports)
  else none

/-- The prefixes that are just ignored. -/
def ignored (b : UInt8) : Bool :=
  b = 0xf0 || b = 0xf2 || b = 0x26 || b = 0x2e || b = 0x36 || b = 0x3e || b = 0x64 || b = 0x65 ||
    b = 0x67

/-- `insn[i]`. -/
def insn (m : Machine D) (i : Nat) : UInt8 := m.mem ((paragraph m.regs.cs + m.regs.eip).toNat + i)

/-- The loop of `emulate`: whether the instruction was one of them, and the machine behind it. -/
def emulateFrom : Nat → Nat → Bool → Bool → Machine D → Option (Bool × Machine D)
  | 0, _, _, _, _ => none
  | fuel + 1, i, size, rep, m =>
    if m.insn i = 0x66 then emulateFrom fuel (i + 1) (!size) rep m
    else if m.insn i = 0xf3 then emulateFrom fuel (i + 1) size true m
    else if ignored (m.insn i) then emulateFrom fuel (i + 1) size rep m
    else match m.emPort ports (m.insn i) size rep with
      | none => some (false, m)
      | some m => some (true, { m with
          regs := { m.regs with eip := m.regs.eip + BitVec.ofNat 32 (i + 1) } })

def emulate (fuel : Nat) (m : Machine D) : Option (Bool × Machine D) :=
  m.emulateFrom ports fuel 0 false false

end Emulate

end Machine

/-! ### The processor -/

/-- The prefixes of an instruction. -/
def isPrefix (b : UInt8) : Bool :=
  b ∈ [0x66, 0x67, 0xf0, 0xf2, 0xf3, 0x26, 0x2e, 0x36, 0x3e, 0x64, 0x65]

/-- The segment register that a prefix names. -/
def segmentOf (b : UInt8) : Option (Regs → BitVec 16) :=
  match b with
  | 0x26 => some Regs.es
  | 0x2e => some Regs.cs
  | 0x36 => some Regs.ss
  | 0x3e => some Regs.ds
  | 0x64 => some Regs.fs
  | 0x65 => some Regs.gs
  | _ => none

/-- The segment that `outs` reads from. -/
def dataSegment (prefixes : List UInt8) : Regs → BitVec 16 :=
  (prefixes.reverse.findSome? segmentOf).getD Regs.ds

/-- The instructions that access a port whose number is in `DX`, with their size. -/
inductive PortInstr
  | ins (size : Nat)
  | outs (size : Nat)
  | inp (size : Nat)
  | out (size : Nat)
  deriving DecidableEq, Repr

def portInstr (prefixes : List UInt8) (opcode : UInt8) : Option PortInstr :=
  let operand := if 0x66 ∈ prefixes then 4 else 2
  match opcode with
  | 0x6c => some (.ins 1)
  | 0x6d => some (.ins operand)
  | 0x6e => some (.outs 1)
  | 0x6f => some (.outs operand)
  | 0xec => some (.inp 1)
  | 0xed => some (.inp operand)
  | 0xee => some (.out 1)
  | 0xef => some (.out operand)
  | _ => none

/-- A register of 32 bits with another low word. -/
def withWord (reg : BitVec 32) (word : BitVec 16) : BitVec 32 := reg.extractLsb' 16 16 ++ word

/-- The address of an offset in a segment. -/
def realAddress (seg offset : BitVec 16) : Nat := seg.toNat * 16 + offset.toNat

/-- What `rep` leaves of `CX`. -/
def counted (prefixes : List UInt8) (ecx : BitVec 32) : BitVec 32 :=
  if 0xf3 ∈ prefixes then withWord ecx 0 else ecx

/-- How often a string instruction is carried out. -/
def times (prefixes : List UInt8) (r : Regs) : Nat :=
  if 0xf3 ∈ prefixes then (r.ecx.setWidth 16).toNat else 1

/-- The accumulator with another value in its `size` lowest bytes: `AL`, `AX` or `EAX`. -/
def withLow (size : Nat) (reg : BitVec 32) (value : Nat) : BitVec 32 :=
  BitVec.ofNat 32 (reg.toNat / 256 ^ size * 256 ^ size + value % 256 ^ size)

namespace Machine

/-- What the processor does with an instruction, with offsets of 16 bits. -/
def realPort (ports : Ports D) (prefixes : List UInt8) (m : Machine D) : PortInstr → Machine D
  | .ins size =>
    let (di, mem, dev) := transfer (fetch ports (m.regs.edx.setWidth 16).toNat size)
      (realAddress m.regs.es) size m.regs.down (times prefixes m.regs)
      (m.regs.edi.setWidth 16) (m.mem, m.dev)
    { regs := { m.regs with edi := withWord m.regs.edi di, ecx := counted prefixes m.regs.ecx }
      mem := mem
      dev := dev }
  | .outs size =>
    let (si, mem, dev) := transfer (send ports (m.regs.edx.setWidth 16).toNat size)
      (realAddress (dataSegment prefixes m.regs)) size m.regs.down (times prefixes m.regs)
      (m.regs.esi.setWidth 16) (m.mem, m.dev)
    { regs := { m.regs with esi := withWord m.regs.esi si, ecx := counted prefixes m.regs.ecx }
      mem := mem
      dev := dev }
  | .inp size =>
    let (value, dev) := ports.input (m.regs.edx.setWidth 16).toNat size m.dev
    { m with regs := { m.regs with eax := withLow size m.regs.eax value }, dev := dev }
  | .out size =>
    let value := m.regs.eax.extractLsb' 0 (8 * size)
    { m with dev := ports.output (m.regs.edx.setWidth 16).toNat size value.toNat m.dev }

/-- The instruction pointer moves behind an instruction of `n` bytes. -/
def skip (n : Nat) (m : Machine D) : Machine D :=
  { m with regs := { m.regs with eip := m.regs.eip + BitVec.ofNat 32 n } }

/-- Byte `i` of the code at `CS:IP`. -/
def code (m : Machine D) (i : Nat) : UInt8 := m.mem (m.regs.cs.toNat * 16 + m.regs.eip.toNat + i)

/-- The instruction at `CS:IP` has these prefixes and this opcode: fifteen bytes at most, which
end below the limit of the segment. -/
structure Fetches (m : Machine D) (prefixes : List UInt8) (opcode : UInt8) : Prop where
  short : prefixes.length < 15
  inside : m.regs.eip.toNat + prefixes.length + 1 < 2 ^ 16
  prefixes_at : ∀ (i : Nat) (h : i < prefixes.length), m.code i = prefixes[i]
  prefixes_only : ∀ b ∈ prefixes, isPrefix b = true
  opcode_at : m.code prefixes.length = opcode
  opcode_only : isPrefix opcode = false

end Machine

/-- The operand size is given once, and the bus is not locked. A string instruction has offsets
of 16 bits that do not wrap and is not repeated by `repne`; `ins` finds its segment in `DS`, and
so does `outs`. -/
def Plain (prefixes : List UInt8) (r : Regs) (instr : PortInstr) : Prop :=
  prefixes.count 0x66 ≤ 1 ∧ 0xf0 ∉ prefixes ∧
    match instr with
    | .ins size => 0x67 ∉ prefixes ∧ 0xf2 ∉ prefixes ∧ r.es = r.ds ∧
      Within size r.down (times prefixes r) (r.edi.setWidth 16)
    | .outs size => 0x67 ∉ prefixes ∧ 0xf2 ∉ prefixes ∧ dataSegment prefixes r = r.ds ∧
      Within size r.down (times prefixes r) (r.esi.setWidth 16)
    | _ => True

/-! ### Words of registers -/

theorem and_word (x : BitVec 32) : x &&& 0xffff#32 = (x.setWidth 16).setWidth 32 := by
  apply BitVec.eq_of_toNat_eq
  have masked := Nat.and_two_pow_sub_one_eq_mod x.toNat 16
  have small : x.toNat % 2 ^ 16 < 2 ^ 32 := by omega
  rw [BitVec.toNat_and, BitVec.toNat_setWidth, BitVec.toNat_setWidth, Nat.mod_eq_of_lt small]
  exact masked

theorem toNat_and_word (x : BitVec 32) : (x &&& 0xffff#32).toNat = (x.setWidth 16).toNat := by
  have small := (x.setWidth 16).isLt
  rw [and_word, BitVec.toNat_setWidth, Nat.mod_eq_of_lt (by omega)]

theorem paragraph_eq (seg : BitVec 16) : paragraph seg = BitVec.ofNat 32 (seg.toNat * 16) := by
  apply BitVec.eq_of_toNat_eq
  have small := seg.isLt
  rw [paragraph, BitVec.toNat_shiftLeft, BitVec.toNat_setWidth, BitVec.toNat_ofNat,
    Nat.shiftLeft_eq, Nat.mod_eq_of_lt (by omega : seg.toNat < 2 ^ 32)]

theorem high_mask : ∀ i < 32, (0xffff0000#32).getLsbD i = decide (16 ≤ i) := by decide

theorem low_mask : ∀ i < 32, (0xffff#32).getLsbD i = decide (i < 16) := by decide

theorem putWord_eq (reg value : BitVec 32) :
    putWord reg value = withWord reg (value.setWidth 16) := by
  apply BitVec.eq_of_getLsbD_eq
  intro i inside
  rw [putWord, withWord, BitVec.getLsbD_or, BitVec.getLsbD_and, BitVec.getLsbD_and,
    high_mask i inside, low_mask i inside, BitVec.getLsbD_append, BitVec.getLsbD_setWidth,
    BitVec.getLsbD_extractLsb']
  rcases Nat.lt_or_ge i 16 with low | high
  · simp [low, Nat.not_le.mpr low]
  · have sum : 16 + (i - 16) = i := by omega
    have few : i - 16 < 16 := by omega
    simp [high, Nat.not_lt.mpr high, sum, few]

/-- The string instructions of the process, on flat addresses, do what those of the processor
do in a segment. -/
theorem host_transfer {S : Type} (move : Nat → S → S) (s : S) {size n : Nat} {down : Bool}
    (positive : 0 < size) (seg : BitVec 16) (index : BitVec 32)
    (within : Within size down n (index.setWidth 16)) :
    let host := transfer move BitVec.toNat size down n ((index &&& 0xffff#32) + paragraph seg) s
    let real := transfer move (realAddress seg) size down n (index.setWidth 16) s
    putWord index (host.1 - paragraph seg) = withWord index real.1 ∧ host.2 = real.2 := by
  have small := seg.isLt
  have room : seg.toNat * 16 + 2 ^ 16 ≤ 2 ^ 32 := by omega
  obtain ⟨low, same⟩ := transfer_wider (by decide) positive room within move s
  dsimp only
  rw [and_word, BitVec.add_comm, paragraph_eq, putWord_eq]
  exact ⟨congrArg (withWord index) low, same⟩

theorem toNat_append_low {n k : Nat} (high : BitVec n) (low : BitVec k) :
    (high ++ low).toNat = high.toNat * 2 ^ k + low.toNat := by
  rw [BitVec.toNat_append, ← Nat.shiftLeft_add_eq_or_of_lt low.isLt, Nat.shiftLeft_eq]

/-- The sizes of a port access. -/
def Sized (size : Nat) : Prop := size = 1 ∨ size = 2 ∨ size = 4

theorem putBytes_eq {size : Nat} (sized : Sized size) (reg : BitVec 32) (value : Nat) :
    putBytes size reg value = withLow size reg value := by
  apply BitVec.eq_of_toNat_eq
  have small := reg.isLt
  rw [withLow, BitVec.toNat_ofNat]
  rcases sized with rfl | rfl | rfl
  · have parts := toNat_append_low (reg.extractLsb' 8 24) (BitVec.ofNat 8 value)
    rw [BitVec.extractLsb'_toNat, BitVec.toNat_ofNat, Nat.shiftRight_eq_div_pow] at parts
    rw [putBytes, if_pos rfl, parts]
    omega
  · have parts := toNat_append_low (reg.extractLsb' 16 16) (BitVec.ofNat 16 value)
    rw [BitVec.extractLsb'_toNat, BitVec.toNat_ofNat, Nat.shiftRight_eq_div_pow] at parts
    rw [putBytes, if_neg (by decide), if_pos rfl, parts]
    omega
  · rw [putBytes, if_neg (by decide), if_neg (by decide), BitVec.toNat_ofNat]
    omega

/-- The bytes of the accumulator that `out` writes. -/
theorem toNat_low (size : Nat) (reg : BitVec 32) :
    (reg.extractLsb' 0 (8 * size)).toNat = reg.toNat % 256 ^ size := by
  rw [BitVec.extractLsb'_toNat, Nat.shiftRight_zero, Nat.pow_mul]

theorem clear_word (ecx : BitVec 32) : putWord ecx 0 = withWord ecx 0 := putWord_eq ecx 0

namespace Machine

variable {ports : Ports D} {m : Machine D} {p : List UInt8} {size : Nat}

theorem hostIns_eq (positive : 0 < size) {n : Nat}
    (within : Within size m.regs.down n (m.regs.edi.setWidth 16)) :
    m.hostIns ports n size =
      let real := transfer (fetch ports (m.regs.edx.setWidth 16).toNat size)
        (realAddress m.regs.ds) size m.regs.down n (m.regs.edi.setWidth 16) (m.mem, m.dev)
      { regs := { m.regs with edi := withWord m.regs.edi real.1 }, mem := real.2.1,
        dev := real.2.2 } := by
  obtain ⟨index, moved⟩ := host_transfer (fetch ports (m.regs.edx.setWidth 16).toNat size)
    (m.mem, m.dev) positive m.regs.ds m.regs.edi within
  rw [hostIns, toNat_and_word]
  exact congrArg₂ (fun (index : BitVec 32) (s : Bytes × D) => (⟨{ m.regs with edi := index }, s.1,
    s.2⟩ : Machine D)) index moved

theorem hostOuts_eq (positive : 0 < size) {n : Nat}
    (within : Within size m.regs.down n (m.regs.esi.setWidth 16)) :
    m.hostOuts ports n size =
      let real := transfer (send ports (m.regs.edx.setWidth 16).toNat size)
        (realAddress m.regs.ds) size m.regs.down n (m.regs.esi.setWidth 16) (m.mem, m.dev)
      { regs := { m.regs with esi := withWord m.regs.esi real.1 }, mem := real.2.1,
        dev := real.2.2 } := by
  obtain ⟨index, moved⟩ := host_transfer (send ports (m.regs.edx.setWidth 16).toNat size)
    (m.mem, m.dev) positive m.regs.ds m.regs.esi within
  rw [hostOuts, toNat_and_word]
  exact congrArg₂ (fun (index : BitVec 32) (s : Bytes × D) => (⟨{ m.regs with esi := index }, s.1,
    s.2⟩ : Machine D)) index moved

theorem ins_eq (positive : 0 < size) (plain : Plain p m.regs (.ins size)) :
    (if decide (0xf3 ∈ p) then m.emRepIns ports size else m.emIns ports size) =
      m.realPort ports p (.ins size) := by
  obtain ⟨-, -, -, -, segment, within⟩ := plain
  by_cases repeated : 0xf3 ∈ p
  · rw [times, if_pos repeated] at within
    rw [if_pos (decide_eq_true repeated), emRepIns, ecxWord, toNat_and_word,
      hostIns_eq positive within, clearCount, realPort]
    dsimp only
    rw [times, if_pos repeated, counted, if_pos repeated, clear_word, segment]
  · rw [times, if_neg repeated] at within
    rw [if_neg (by rwa [decide_eq_true_iff]), emIns, hostIns_eq positive within, realPort]
    dsimp only
    rw [times, if_neg repeated, counted, if_neg repeated, segment]

theorem outs_eq (positive : 0 < size) (plain : Plain p m.regs (.outs size)) :
    (if decide (0xf3 ∈ p) then m.emRepOuts ports size else m.emOuts ports size) =
      m.realPort ports p (.outs size) := by
  obtain ⟨-, -, -, -, segment, within⟩ := plain
  by_cases repeated : 0xf3 ∈ p
  · rw [times, if_pos repeated] at within
    rw [if_pos (decide_eq_true repeated), emRepOuts, ecxWord, toNat_and_word,
      hostOuts_eq positive within, clearCount, realPort]
    dsimp only
    rw [times, if_pos repeated, counted, if_pos repeated, clear_word, segment]
  · rw [times, if_neg repeated] at within
    rw [if_neg (by rwa [decide_eq_true_iff]), emOuts, hostOuts_eq positive within, realPort]
    dsimp only
    rw [times, if_neg repeated, counted, if_neg repeated, segment]

theorem in_eq (fine : Sized size) : m.emIn ports size = m.realPort ports p (.inp size) := by
  have same := putBytes_eq fine m.regs.eax
  simp only [emIn, realPort, same]

theorem out_eq : m.emOut ports size = m.realPort ports p (.out size) := by
  rw [emOut, realPort, toNat_low]

theorem operand_sized (p : List UInt8) : Sized (if 0x66 ∈ p then 4 else 2) := by
  split
  · exact .inr (.inr rfl)
  · exact .inr (.inl rfl)

theorem operand_positive (p : List UInt8) : 0 < if 0x66 ∈ p then 4 else 2 := by
  split <;> decide

theorem sized {A : Type} (f : Nat → A) (p : List UInt8) :
    (if decide (0x66 ∈ p) = true then f 4 else f 2) = f (if 0x66 ∈ p then 4 else 2) := by
  by_cases operand : 0x66 ∈ p
  · rw [if_pos (decide_eq_true operand), if_pos operand]
  · rw [if_neg (by rwa [decide_eq_true_iff]), if_neg operand]

/-- The opcodes one by one. -/
theorem emPort_eq {opcode : UInt8} {instr : PortInstr} (found : portInstr p opcode = some instr)
    (plain : Plain p m.regs instr) :
    m.emPort ports opcode (decide (0x66 ∈ p)) (decide (0xf3 ∈ p)) =
      some (m.realPort ports p instr) := by
  unfold portInstr at found
  dsimp only at found
  split at found
  case h_1 =>
    cases found
    exact congrArg some (ins_eq (by decide) plain)
  case h_2 =>
    cases found
    rw [← ins_eq (operand_positive p) plain, ← sized (fun size => m.emRepIns ports size) p,
      ← sized (fun size => m.emIns ports size) p]
    rfl
  case h_3 =>
    cases found
    exact congrArg some (outs_eq (by decide) plain)
  case h_4 =>
    cases found
    rw [← outs_eq (operand_positive p) plain, ← sized (fun size => m.emRepOuts ports size) p,
      ← sized (fun size => m.emOuts ports size) p]
    rfl
  case h_5 =>
    cases found
    exact congrArg some (in_eq (.inl rfl))
  case h_6 =>
    cases found
    rw [← in_eq (operand_sized p), ← sized (fun size => m.emIn ports size) p]
    rfl
  case h_7 =>
    cases found
    exact congrArg some out_eq
  case h_8 =>
    cases found
    rw [← out_eq, ← sized (fun size => m.emOut ports size) p]
    rfl
  case h_9 => cases found

theorem emPort_none {opcode : UInt8} (other : portInstr p opcode = none) (size rep : Bool) :
    m.emPort ports opcode size rep = none := by
  unfold portInstr at other
  dsimp only at other
  split at other
  case h_9 a b c d e f g h =>
    rw [emPort, if_neg a, if_neg b, if_neg c, if_neg d, if_neg e, if_neg f, if_neg g, if_neg h]
  all_goals cases other

/-! ### The prefixes -/

theorem insn_eq (inside : m.regs.eip.toNat < 2 ^ 16) (i : Nat) : m.insn i = m.code i := by
  have small := m.regs.cs.isLt
  rw [insn, code, paragraph_eq, BitVec.toNat_add, BitVec.toNat_ofNat,
    Nat.mod_eq_of_lt (by omega : m.regs.cs.toNat * 16 < 2 ^ 32), Nat.mod_eq_of_lt (by omega)]

theorem prefix_cases {b : UInt8} (other : isPrefix b = true) :
    b = 0x66 ∨ b = 0xf3 ∨ b ≠ 0x66 ∧ b ≠ 0xf3 ∧ ignored b = true := by
  by_cases operand : b = 0x66
  · exact .inl operand
  · by_cases repeated : b = 0xf3
    · exact .inr (.inl repeated)
    · refine .inr (.inr ⟨operand, repeated, ?_⟩)
      simp only [isPrefix, List.mem_cons, operand, repeated, decide_eq_true_eq, List.not_mem_nil,
        false_or, or_false] at other
      simp only [ignored, Bool.or_eq_true, decide_eq_true_eq]
      tauto

theorem not_prefix {b : UInt8} (other : isPrefix b = false) :
    b ≠ 0x66 ∧ b ≠ 0xf3 ∧ ¬ ignored b = true := by
  simp only [isPrefix, List.mem_cons, List.not_mem_nil, or_false, decide_eq_false_iff_not] at other
  simp only [ignored, Bool.or_eq_true, decide_eq_true_eq]
  tauto

theorem odd_succ (n : Nat) : decide ((n + 1) % 2 = 1) = !decide (n % 2 = 1) := by
  rw [← decide_not, decide_eq_decide]
  omega

/-- The loop over the prefixes keeps the parity of `0x66` and whether there was a `0xf3`. -/
theorem emulateFrom_prefixes {q : List UInt8} (only : ∀ b ∈ q, isPrefix b = true) {i : Nat}
    (here : ∀ (j : Nat) (h : j < q.length), m.insn (i + j) = q[j]) (fuel : Nat)
    (size rep : Bool) :
    m.emulateFrom ports (q.length + fuel) i size rep =
      m.emulateFrom ports fuel (i + q.length) (size ^^ decide (q.count 0x66 % 2 = 1))
        (rep || decide (0xf3 ∈ q)) := by
  induction q generalizing i size rep with
  | nil => simp
  | cons b q ih =>
    have first : m.insn i = b := here 0 (Nat.succ_pos _)
    have rest := @ih (fun b' member => only b' (.tail _ member)) (i + 1) (fun j h => by
      rw [Nat.add_assoc, Nat.add_comm 1]
      exact here (j + 1) (Nat.succ_lt_succ h))
    have length : i + (b :: q).length = i + 1 + q.length := by
      rw [List.length_cons]
      omega
    have fuels : (b :: q).length + fuel = q.length + fuel + 1 := by
      rw [List.length_cons]
      omega
    rw [fuels, emulateFrom, first, length]
    rcases prefix_cases (only b List.mem_cons_self) with rfl | rfl | ⟨operand, repeated, skipped⟩
    · have same : 0xf3 ∈ 0x66 :: q ↔ 0xf3 ∈ q := by simp
      rw [if_pos rfl, rest, List.count_cons_self, odd_succ, Bool.not_xor, Bool.xor_not,
        decide_eq_decide.mpr same]
    · have other : (0xf3 : UInt8) ≠ 0x66 := by decide
      rw [if_neg other, if_pos rfl, rest, List.count_cons_of_ne other,
        decide_eq_true List.mem_cons_self, Bool.true_or, Bool.or_true]
    · have same : 0xf3 ∈ b :: q ↔ 0xf3 ∈ q := by simp [Ne.symm repeated]
      rw [if_neg operand, if_neg repeated, if_pos skipped, rest, List.count_cons_of_ne operand,
        decide_eq_decide.mpr same]

/-- `emulate` makes the access that the processor would make, or leaves the machine alone when
the instruction is not one of them. -/
theorem emulate_realPort {opcode : UInt8} (fetched : m.Fetches p opcode)
    (plain : ∀ instr, portInstr p opcode = some instr → Plain p m.regs instr) {fuel : Nat}
    (enough : p.length < fuel) :
    m.emulate ports fuel = some (match portInstr p opcode with
      | some instr => (true, (m.realPort ports p instr).skip (p.length + 1))
      | none => (false, m)) := by
  obtain ⟨rest, rfl⟩ := Nat.exists_eq_add_of_lt enough
  have inside : m.regs.eip.toNat < 2 ^ 16 := by
    have limit := fetched.inside
    omega
  have here : ∀ (j : Nat) (h : j < p.length), m.insn (0 + j) = p[j] := by
    intro j h
    rw [Nat.zero_add, insn_eq inside, fetched.prefixes_at j h]
  have last : m.insn (0 + p.length) = opcode := by
    rw [Nat.zero_add, insn_eq inside, fetched.opcode_at]
  obtain ⟨operand, repeated, counts⟩ := not_prefix fetched.opcode_only
  rw [emulate, Nat.add_assoc, emulateFrom_prefixes fetched.prefixes_only here, emulateFrom, last,
    if_neg operand, if_neg repeated, if_neg counts]
  cases found : portInstr p opcode with
  | none => rw [emPort_none found]
  | some instr =>
    have single := (plain instr found).1
    have parity : decide (p.count 0x66 % 2 = 1) = decide (0x66 ∈ p) := by
      rw [decide_eq_decide, ← List.count_pos_iff]
      omega
    rw [Bool.false_xor, parity, Bool.false_or, emPort_eq found (plain instr found), Nat.zero_add]
    rfl

/-- `rep outsb` of two bytes at `0x20`. -/
def repOutsb : Machine (List Nat) where
  regs := ⟨0, 0x20, 0, 0, 0x3c9, 2, 0, 0x100, 0, 0, 0, 0, 0, 0, 0, 0⟩
  mem a := if a = 0x100 then 0xf3 else if a = 0x101 then 0x6e else if a = 0x20 then 7 else 9
  dev := []

theorem emulate_realPort_outsb :
    (repOutsb.emulate ⟨fun _ _ d => (0, d), fun _ _ value d => d ++ [value]⟩ 2).map
      (fun r => (r.2.dev, r.2.regs.esi, r.2.regs.eip)) = some ([7, 9], 0x22, 0x102) := by
  have fetched : repOutsb.Fetches [0xf3] 0x6e := by
    refine ⟨by decide, by decide, fun i h => ?_, List.forall_mem_singleton.mpr rfl, rfl, rfl⟩
    obtain rfl := Nat.lt_one_iff.mp h
    rfl
  have plain : ∀ instr, portInstr [0xf3] 0x6e = some instr →
      Plain [0xf3] repOutsb.regs instr := by
    intro instr found
    obtain rfl : .outs 1 = instr := Option.some.inj found
    exact ⟨by decide, by decide, by decide, by decide, rfl, by decide⟩
  rw [emulate_realPort fetched plain (by decide)]
  decide

end Machine

end Ucimf.Driver
