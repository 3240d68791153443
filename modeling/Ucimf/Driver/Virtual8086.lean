import Ucimf.Driver.RealMode
import Ucimf.Support.Resume

/-!
# Calls of the BIOS

`run_vm86` lets the processor go on in virtual-8086 mode until an instruction faults, carries
the instruction out and resumes. `LRMI_int` runs the handler of an interrupt so. Both end where
a processor comes by itself that faults at none of these instructions: one that may access the
ports, and that has an interrupt flag of its own for virtual-8086 mode.
-/

namespace Ucimf.Driver

open ByteMemory StringIo StateTransition Resume

variable {D : Type}

/-- `VIF_MASK | TF_MASK`. -/
def clearedFlags : BitVec 32 := 0x80100#32

/-- `DEFAULT_VM86_FLAGS`. -/
def defaultVm86Flags : BitVec 32 := 0x3200#32

/-- `RETURN_TO_32_INT`. -/
def returnTo32Int : Nat := 255

/-- What `vm86` returns: the fault was `int v`, an instruction that is not emulated by the
kernel, or something else. -/
inductive VReturn
  | intx (v : Nat)
  | unknown
  | other

namespace Machine

/-! ### The source -/

def pushw (i : BitVec 16) (m : Machine D) : Machine D :=
  let esp := m.regs.esp - 2
  { m with
    regs := { m.regs with esp := esp }
    mem := (⟨2, (paragraph m.regs.ss + esp).toNat, i.toNat⟩ : Store).apply m.mem }

def getIntSeg (m : Machine D) (i : Nat) : BitVec 16 := BitVec.ofNat 16 (load m.mem (i * 4 + 2) 2)

def getIntOff (m : Machine D) (i : Nat) : BitVec 16 := BitVec.ofNat 16 (load m.mem (i * 4) 2)

/-- The instruction pointer and the flags behind the three words that an interrupt pushes. -/
def enter (v : Nat) (m : Machine D) : Machine D :=
  { m with
    regs := { m.regs with
      cs := m.getIntSeg v
      eip := (m.getIntOff v).setWidth 32
      eflags := m.regs.eflags &&& ~~~clearedFlags } }

/-- The interrupts that the kernel leaves to `run_vm86`. -/
def interrupt (v : Nat) (m : Machine D) : Machine D :=
  let m := m.pushw (m.regs.eflags.setWidth 16)
  let m := m.pushw m.regs.cs
  let m := m.pushw (m.regs.eip.setWidth 16)
  m.enter v

section Source
variable (ports : Ports D) (vm86 : Machine D → Option (VReturn × Machine D)) (bytes : Nat)

/-- `run_vm86`; `bytes` is how far `emulate` reads. The call of `vm86` may not return. -/
def runVm86 : Nat → Machine D → Option (Bool × Machine D)
  | 0, _ => none
  | fuel + 1, m =>
    match vm86 m with
    | none => none
    | some (.intx v, m) =>
      if v = returnTo32Int then some (true, m) else runVm86 fuel (m.interrupt v)
    | some (.unknown, m) =>
      match m.emulate ports bytes with
      | none => none
      | some (false, m) => some (false, m)
      | some (true, m) => runVm86 fuel m
    | some (.other, m) => some (false, m)

end Source

/-! ### The processor that does not fault -/

/-- The flags with the one at bit `n` cleared. -/
def clearFlag (n : Nat) (flags : BitVec 32) : BitVec 32 := flags &&& ~~~(BitVec.twoPow 32 n)

/-- `VIF`. -/
def virtualInterrupt : Nat := 19

/-- `TF`. -/
def singleStep : Nat := 8

/-- The flags that an interrupt pushes in virtual-8086 mode: with the virtual interrupt flag in
the place of `IF`, and the highest `IOPL`. -/
def pushedFlags (m : Machine D) : BitVec 16 :=
  let rest := m.regs.eflags.setWidth 16 &&& 0xcdff#16
  0x3000#16 ||| (if m.regs.eflags.getLsbD virtualInterrupt then 0x200#16 else 0) ||| rest

/-- A push with a stack pointer of 16 bits. -/
def realPush (word : BitVec 16) (m : Machine D) : Machine D :=
  let sp := m.regs.esp.setWidth 16 - 2
  { m with
    regs := { m.regs with esp := withWord m.regs.esp sp }
    mem := (⟨2, realAddress m.regs.ss sp, word.toNat⟩ : Store).apply m.mem }

/-- An interrupt goes to the vector at `4 * v` with interrupts and single steps switched off. -/
def realInterrupt (v : Nat) (m : Machine D) : Machine D :=
  let m := m.realPush m.pushedFlags
  let m := m.realPush m.regs.cs
  let m := m.realPush (m.regs.eip.setWidth 16)
  { m with
    regs := { m.regs with
      cs := BitVec.ofNat 16 (load m.mem (4 * v + 2) 2)
      eip := BitVec.ofNat 32 (load m.mem (4 * v) 2)
      eflags := clearFlag singleStep (clearFlag virtualInterrupt m.regs.eflags) } }

/-- The prefixes at `CS:IP`; an instruction has fifteen bytes at most. -/
def prefixes (m : Machine D) : List UInt8 := ((List.range 14).map m.code).takeWhile isPrefix

/-- The instructions that fault in virtual-8086 mode. The one of the return routine is where
the machine stops. -/
def realTrap (ports : Ports D) (m : Machine D) : Option (Machine D) :=
  if m.code 0 = 0xcd then
    if (m.code 1).toNat = returnTo32Int then none
    else some ((m.skip 2).realInterrupt (m.code 1).toNat)
  else (portInstr m.prefixes (m.code m.prefixes.length)).map fun instr =>
    (m.realPort ports m.prefixes instr).skip (m.prefixes.length + 1)

/-- A step of the processor, which carries out all other instructions as `cpu` does. -/
def realStep (cpu : Machine D → Option (Machine D)) (ports : Ports D) (m : Machine D) :
    Option (Machine D) :=
  match cpu m with
  | some m' => some m'
  | none => m.realTrap ports

/-- An interrupt that is entered as `run_vm86` does it: there is room on the stack, and the flags
are those that are to be pushed. -/
structure Interruptible (m : Machine D) : Prop where
  inside : m.regs.eip.toNat + 2 < 2 ^ 16
  room : 6 ≤ m.regs.esp.toNat
  small : m.regs.esp.toNat < 2 ^ 16
  flags : m.regs.eflags.setWidth 16 = m.pushedFlags

/-- The instruction is one of those that are emulated: an interrupt, or an access to a port in
the plain form. -/
def Supported (m : Machine D) : Prop :=
  if m.code 0 = 0xcd then (m.code 1).toNat = returnTo32Int ∨ m.Interruptible
  else m.regs.eip.toNat + m.prefixes.length + 1 < 2 ^ 16 ∧
    ∃ instr, portInstr m.prefixes (m.code m.prefixes.length) = some instr ∧
      Plain m.prefixes m.regs instr

/-- What the fault at an instruction makes `vm86` return. -/
def trapOf (m : Machine D) : VReturn × Machine D :=
  if m.code 0 = 0xcd then (.intx (m.code 1).toNat, m.skip 2) else (.unknown, m)

/-- `vm86` lets the processor go on until it faults and returns the fault; nothing else comes
in between. -/
def Virtualizes (cpu : Machine D → Option (Machine D))
    (vm86 : Machine D → Option (VReturn × Machine D)) : Prop :=
  ∀ m r, vm86 m = some r ↔ ∃ m' ∈ eval cpu m, trapOf m' = r

/-! ### Interrupts -/

theorem withWord_small {reg : BitVec 32} (small : reg.toNat < 2 ^ 16) (word : BitVec 16) :
    withWord reg word = word.setWidth 32 := by
  apply BitVec.eq_of_toNat_eq
  have short := word.isLt
  have zero : (reg.extractLsb' 16 16).toNat = 0 := by
    rw [BitVec.extractLsb'_toNat, Nat.shiftRight_eq_div_pow, Nat.div_eq_of_lt small, Nat.zero_mod]
  rw [withWord, BitVec.toNat_append, zero, Nat.zero_shiftLeft, Nat.zero_or, BitVec.toNat_setWidth,
    Nat.mod_eq_of_lt (by omega)]

theorem toNat_esp_sub {esp : BitVec 32} (room : 2 ≤ esp.toNat) :
    (esp - 2).toNat = esp.toNat - 2 := by
  have two : (2 : BitVec 32).toNat = 2 := rfl
  have le : (2 : BitVec 32) ≤ esp := BitVec.le_def.mpr room
  rw [BitVec.toNat_sub_of_le le, two]

theorem pushw_eq {m : Machine D} (room : 2 ≤ m.regs.esp.toNat) (small : m.regs.esp.toNat < 2 ^ 16)
    (word : BitVec 16) : m.pushw word = m.realPush word := by
  have lower := toNat_esp_sub room
  have narrow : (m.regs.esp.setWidth 16 - 2).setWidth 32 = m.regs.esp - 2 := by
    apply BitVec.eq_of_toNat_eq
    have two : (2 : BitVec 16).toNat = 2 := rfl
    have same : (m.regs.esp.setWidth 16).toNat = m.regs.esp.toNat := by
      rw [BitVec.toNat_setWidth, Nat.mod_eq_of_lt small]
    have le : (2 : BitVec 16) ≤ m.regs.esp.setWidth 16 := by
      rw [BitVec.le_def, same]
      exact room
    rw [lower, BitVec.toNat_setWidth, BitVec.toNat_sub_of_le le, two, same,
      Nat.mod_eq_of_lt (by omega)]
  have offset : (m.regs.esp.setWidth 16 - 2).toNat = m.regs.esp.toNat - 2 := by
    rw [← lower, ← narrow, BitVec.toNat_setWidth, Nat.mod_eq_of_lt (by
      have short := (m.regs.esp.setWidth 16 - 2).isLt
      omega)]
  have address : (paragraph m.regs.ss + (m.regs.esp - 2)).toNat =
      realAddress m.regs.ss (m.regs.esp.setWidth 16 - 2) := by
    have short := m.regs.ss.isLt
    rw [realAddress, offset, paragraph_eq, BitVec.toNat_add, lower, BitVec.toNat_ofNat,
      Nat.mod_eq_of_lt (by omega : m.regs.ss.toNat * 16 < 2 ^ 32), Nat.mod_eq_of_lt (by omega)]
  rw [pushw, realPush]
  dsimp only
  rw [withWord_small small, narrow, address]

theorem toNat_esp_pushw {m : Machine D} (room : 2 ≤ m.regs.esp.toNat) (word : BitVec 16) :
    (m.pushw word).regs.esp.toNat = m.regs.esp.toNat - 2 := toNat_esp_sub room

/-- The handler is entered with the flags and at the vector of the processor. -/
theorem enter_eq (v : Nat) (m : Machine D) : m.enter v = { m with
    regs := { m.regs with
      cs := BitVec.ofNat 16 (load m.mem (4 * v + 2) 2)
      eip := BitVec.ofNat 32 (load m.mem (4 * v) 2)
      eflags := clearFlag singleStep (clearFlag virtualInterrupt m.regs.eflags) } } := by
  have word : load m.mem (4 * v) 2 < 2 ^ 16 := load_lt m.mem (4 * v) 2
  have narrow : (BitVec.ofNat 16 (load m.mem (4 * v) 2)).setWidth 32 =
      BitVec.ofNat 32 (load m.mem (4 * v) 2) := by
    apply BitVec.eq_of_toNat_eq
    rw [BitVec.toNat_setWidth, BitVec.toNat_ofNat, BitVec.toNat_ofNat, Nat.mod_eq_of_lt word]
  have masks : ~~~(BitVec.twoPow 32 virtualInterrupt) &&& ~~~(BitVec.twoPow 32 singleStep) =
      ~~~clearedFlags := by decide
  rw [enter, getIntSeg, getIntOff, Nat.mul_comm v 4, narrow, clearFlag, clearFlag,
    BitVec.and_assoc, masks]

/-- With room on the stack `run_vm86` enters an interrupt as the processor does. -/
theorem interrupt_eq {m : Machine D} (room : 6 ≤ m.regs.esp.toNat)
    (small : m.regs.esp.toNat < 2 ^ 16) (flagged : m.regs.eflags.setWidth 16 = m.pushedFlags)
    (v : Nat) : m.interrupt v = m.realInterrupt v := by
  have first := toNat_esp_pushw (m := m) (by omega) (m.regs.eflags.setWidth 16)
  have second := toNat_esp_pushw (m := m.pushw (m.regs.eflags.setWidth 16)) (by omega) m.regs.cs
  have flags := pushw_eq (m := m) (by omega) small (m.regs.eflags.setWidth 16)
  have code := pushw_eq (m := m.pushw (m.regs.eflags.setWidth 16)) (by omega) (by omega) m.regs.cs
  have pointer := pushw_eq (m := (m.pushw (m.regs.eflags.setWidth 16)).pushw m.regs.cs)
    (by omega) (by omega) (m.regs.eip.setWidth 16)
  rw [code, flags] at pointer
  calc m.interrupt v
      = enter v (((m.pushw (m.regs.eflags.setWidth 16)).pushw m.regs.cs).pushw
          (m.regs.eip.setWidth 16)) := rfl
    _ = enter v (((m.realPush m.pushedFlags).realPush m.regs.cs).realPush
          (m.regs.eip.setWidth 16)) := by rw [code, flags, pointer, flagged]
    _ = m.realInterrupt v := enter_eq v _

/-! ### Instructions -/

theorem prefixes_short (m : Machine D) : m.prefixes.length ≤ 14 := by
  have short := (List.takeWhile_prefix isPrefix (l := (List.range 14).map m.code)).length_le
  rwa [List.length_map, List.length_range] at short

theorem portInstr_opcode {p : List UInt8} {opcode : UInt8} {instr : PortInstr}
    (found : portInstr p opcode = some instr) : isPrefix opcode = false := by
  unfold portInstr at found
  dsimp only at found
  split at found
  case h_9 => cases found
  all_goals rfl

theorem fetches_prefixes {m : Machine D} {instr : PortInstr}
    (inside : m.regs.eip.toNat + m.prefixes.length + 1 < 2 ^ 16)
    (found : portInstr m.prefixes (m.code m.prefixes.length) = some instr) :
    m.Fetches m.prefixes (m.code m.prefixes.length) where
  short := by
    have few := m.prefixes_short
    omega
  inside := inside
  prefixes_at i h := by
    have start := List.takeWhile_prefix isPrefix (l := (List.range 14).map m.code)
    have same := start.getElem h
    rw [List.getElem_map, List.getElem_range] at same
    exact same.symm
  prefixes_only := List.all_eq_true.mp List.all_takeWhile
  opcode_at := rfl
  opcode_only := portInstr_opcode found

/-! ### The run -/

section Run
variable {cpu : Machine D → Option (Machine D)} {ports : Ports D}
  {vm86 : Machine D → Option (VReturn × Machine D)} {m m' : Machine D}

theorem reaches_native (reached : Reaches cpu m m') : Reaches (realStep cpu ports) m m' := by
  refine Relation.ReflTransGen.mono (fun a b next => ?_) _ _ reached
  have same : cpu a = some b := next
  change realStep cpu ports a = some b
  rw [realStep, same]

/-- A processor that stops in real mode comes to a fault in virtual-8086 mode. -/
theorem faults_of_stops (stops : m' ∈ eval (realStep cpu ports) m) : ∃ t, t ∈ eval cpu m := by
  refine evalInduction stops fun a _ ih => ?_
  cases own : cpu a with
  | none => exact ⟨a, mem_eval.mpr ⟨.refl, own⟩⟩
  | some b =>
    obtain ⟨t, later⟩ := ih b (by rw [realStep, own])
    have ahead : Reaches cpu a b := .single own
    exact ⟨t, reaches_eval ahead ▸ later⟩

/-- A round of `run_vm86`. -/
def vmRound (ports : Ports D) (vm86 : Machine D → Option (VReturn × Machine D)) (bytes : Nat)
    (m : Machine D) : Option (Round (Machine D) (Bool × Machine D)) :=
  match vm86 m with
  | none => none
  | some (.intx v, m) =>
    some (if v = returnTo32Int then .done (true, m) else .again (m.interrupt v))
  | some (.unknown, m) => (m.emulate ports bytes).map fun r =>
    if r.1 then .again r.2 else .done (false, r.2)
  | some (.other, m) => some (.done (false, m))

theorem runVm86_eq_loop (bytes fuel : Nat) (m : Machine D) :
    m.runVm86 ports vm86 bytes fuel = loop (vmRound ports vm86 bytes) fuel m := by
  induction fuel generalizing m with
  | zero => rfl
  | succ fuel ih =>
    rw [runVm86, loop, vmRound]
    cases vm86 m with
    | none => rfl
    | some r =>
      obtain ⟨ret, m'⟩ := r
      cases ret with
      | intx v =>
        dsimp only
        split
        · rfl
        · exact ih _
      | unknown =>
        dsimp only
        cases m'.emulate ports bytes with
        | none => rfl
        | some r =>
          obtain ⟨handled, m''⟩ := r
          cases handled with
          | false => rfl
          | true => exact ih m''
      | other => rfl

/-- A round makes steps of the processor, or it ends where the processor stops. -/
theorem faithful_vmRound (virtual : Virtualizes cpu vm86) {bytes : Nat} (enough : 14 < bytes)
    (supported : ∀ t, Reaches (realStep cpu ports) m t → cpu t = none → t.Supported) :
    Faithful (realStep cpu ports) (fun t => (true, t.skip 2)) m (vmRound ports vm86 bytes m) := by
  rw [vmRound]
  cases fault : vm86 m with
  | none =>
    intro stops
    obtain ⟨t, own⟩ := faults_of_stops (Part.get_mem stops)
    have returned := (virtual m (trapOf t)).mpr ⟨t, own, rfl⟩
    rw [fault] at returned
    cases returned
  | some r =>
    obtain ⟨t, own, rfl⟩ := (virtual m r).mp fault
    obtain ⟨reached, stopped⟩ := mem_eval.mp own
    have ahead : Reaches (realStep cpu ports) m t := reaches_native reached
    have here : realStep cpu ports t = t.realTrap ports := by rw [realStep, stopped]
    have fine := supported t ahead stopped
    rw [Supported] at fine
    rw [trapOf]
    by_cases interrupts : t.code 0 = 0xcd
    · rw [if_pos interrupts] at fine
      rw [if_pos interrupts]
      rw [realTrap, if_pos interrupts] at here
      dsimp only
      by_cases last : (t.code 1).toNat = returnTo32Int
      · rw [if_pos last] at here ⊢
        exact ⟨t, mem_eval.mpr ⟨ahead, here⟩, rfl⟩
      · rw [if_neg last] at here ⊢
        obtain ⟨-, room, small, flagged⟩ := fine.resolve_left last
        have entered := interrupt_eq (m := t.skip 2) room small flagged (t.code 1).toNat
        rw [entered]
        exact Relation.TransGen.tail' ahead here
    · rw [if_neg interrupts] at fine
      rw [if_neg interrupts]
      obtain ⟨inside, instr, found, plain⟩ := fine
      rw [realTrap, if_neg interrupts, found] at here
      have short := prefixes_short t
      have only : ∀ other, portInstr t.prefixes (t.code t.prefixes.length) = some other →
          Plain t.prefixes t.regs other := by
        intro other same
        rw [found] at same
        cases same
        exact plain
      have emulated : t.emulate ports bytes = _ :=
        emulate_realPort (fetches_prefixes inside found) only (by omega)
      rw [found] at emulated
      dsimp only at emulated ⊢
      rw [emulated]
      exact Relation.TransGen.tail' ahead here

/-- `run_vm86` ends exactly when the processor in real mode comes to the return routine, and
leaves the registers, the memory and the devices as it would. -/
theorem runVm86_iff (virtual : Virtualizes cpu vm86) {bytes : Nat} (enough : 14 < bytes)
    (supported : ∀ t, Reaches (realStep cpu ports) m t → cpu t = none → t.Supported)
    (r : Bool × Machine D) :
    (∃ fuel, m.runVm86 ports vm86 bytes fuel = some r) ↔
      ∃ t ∈ eval (realStep cpu ports) m, (true, t.skip 2) = r := by
  simp only [runVm86_eq_loop]
  apply loop_iff
  intro s reached
  apply faithful_vmRound virtual enough
  intro t further
  exact supported t (reached.trans further)

end Run

end Machine

/-! ### The calls -/

/-- `struct LRMI_regs`. -/
structure LrmiRegs where
  edi : BitVec 32
  esi : BitVec 32
  ebp : BitVec 32
  ebx : BitVec 32
  edx : BitVec 32
  ecx : BitVec 32
  eax : BitVec 32
  flags : BitVec 16
  es : BitVec 16
  ds : BitVec 16
  fs : BitVec 16
  gs : BitVec 16
  ip : BitVec 16
  cs : BitVec 16
  sp : BitVec 16
  ss : BitVec 16
  deriving DecidableEq, Repr

/-- Where `context` has the return routine and the stack. -/
structure Context where
  retSeg : BitVec 16
  retOff : BitVec 16
  stackSeg : BitVec 16
  stackOff : BitVec 16

/-- The registers of a call: `set_regs`, the code and the stack. -/
def setRegs (c : Context) (r : LrmiRegs) (cs ip : BitVec 16) : Regs where
  edi := r.edi
  esi := r.esi
  ebp := r.ebp
  ebx := r.ebx
  edx := r.edx
  ecx := r.ecx
  eax := r.eax
  eip := ip.setWidth 32
  esp := (if r.ss = 0 ∧ r.sp = 0 then c.stackOff else r.sp).setWidth 32
  eflags := defaultVm86Flags
  cs := cs
  ss := if r.ss = 0 ∧ r.sp = 0 then c.stackSeg else r.ss
  ds := r.ds
  es := r.es
  fs := r.fs
  gs := r.gs

def getRegs (v : Regs) (r : LrmiRegs) : LrmiRegs :=
  { r with
    edi := v.edi
    esi := v.esi
    ebp := v.ebp
    ebx := v.ebx
    edx := v.edx
    ecx := v.ecx
    eax := v.eax
    flags := v.eflags.setWidth 16
    es := v.es
    ds := v.ds
    fs := v.fs
    gs := v.gs }

namespace Machine

/-- The frame of a far call from the return routine. -/
def callFrame (c : Context) (r : LrmiRegs) (m : Machine D) : Machine D :=
  let m := { m with regs := setRegs c r r.cs r.ip }
  (m.pushw c.retSeg).pushw c.retOff

/-- The frame of an interrupt of the return routine. -/
def intFrame (c : Context) (i : Nat) (r : LrmiRegs) (m : Machine D) : Machine D :=
  let m := { m with regs := setRegs c r (m.getIntSeg i) (m.getIntOff i) }
  ((m.pushw (defaultVm86Flags.setWidth 16)).pushw c.retSeg).pushw c.retOff

/-- The handler is in the ROM. -/
def InRom (m : Machine D) (i : Nat) : Prop :=
  ¬ ((m.getIntSeg i).toNat < 0xa000 ∨
    0x100000 ≤ realAddress (m.getIntSeg i) (m.getIntOff i))

instance (m : Machine D) (i : Nat) : Decidable (m.InRom i) := inferInstanceAs (Decidable (¬ _))

section Calls
variable (ports : Ports D) (vm86 : Machine D → Option (VReturn × Machine D)) (bytes fuel : Nat)
  (c : Context)

/-- What a call returns, the registers it hands back, and the machine behind it. -/
def finish (r : LrmiRegs) (ran : Bool × Machine D) : Bool × LrmiRegs × Machine D :=
  (ran.1, getRegs ran.2.regs r, ran.2)

/-- `LRMI_call`. -/
def lrmiCall (r : LrmiRegs) (m : Machine D) : Option (Bool × LrmiRegs × Machine D) :=
  ((m.callFrame c r).runVm86 ports vm86 bytes fuel).map (finish r)

/-- `LRMI_int`. -/
def lrmiInt (i : Nat) (r : LrmiRegs) (m : Machine D) : Option (Bool × LrmiRegs × Machine D) :=
  if m.InRom i then ((m.intFrame c i r).runVm86 ports vm86 bytes fuel).map (finish r)
  else some (false, r, m)

end Calls

section Returns
variable {cpu : Machine D → Option (Machine D)} {ports : Ports D}
  {vm86 : Machine D → Option (VReturn × Machine D)} {m : Machine D} {bytes : Nat}

/-- A call ends exactly when the processor, entered with its frame, comes to the return
routine. -/
theorem finish_iff (virtual : Virtualizes cpu vm86) (enough : 14 < bytes)
    (supported : ∀ t, Reaches (realStep cpu ports) m t → cpu t = none → t.Supported)
    (r : LrmiRegs) (out : Bool × LrmiRegs × Machine D) :
    (∃ fuel, (m.runVm86 ports vm86 bytes fuel).map (finish r) = some out) ↔
      ∃ t ∈ eval (realStep cpu ports) m, (true, getRegs t.regs r, t.skip 2) = out := by
  constructor
  · rintro ⟨fuel, ended⟩
    obtain ⟨ran, stopped, rfl⟩ := Option.map_eq_some_iff.mp ended
    obtain ⟨t, there, rfl⟩ := (runVm86_iff virtual enough supported ran).mp ⟨fuel, stopped⟩
    exact ⟨t, there, rfl⟩
  · rintro ⟨t, there, rfl⟩
    obtain ⟨fuel, ended⟩ := (runVm86_iff virtual enough supported _).mpr ⟨t, there, rfl⟩
    exact ⟨fuel, by rw [ended]; rfl⟩

/-- The same of `LRMI_call`, which refuses nothing. -/
theorem lrmiCall_iff (virtual : Virtualizes cpu vm86) (enough : 14 < bytes) (c : Context)
    (r : LrmiRegs) (supported : ∀ t, Reaches (realStep cpu ports) (m.callFrame c r) t →
      cpu t = none → t.Supported) (out : Bool × LrmiRegs × Machine D) :
    (∃ fuel, m.lrmiCall ports vm86 bytes fuel c r = some out) ↔
      ∃ t ∈ eval (realStep cpu ports) (m.callFrame c r),
        (true, getRegs t.regs r, t.skip 2) = out :=
  finish_iff virtual enough supported r out

end Returns

/-! ### A handler -/

open Classical in
/-- The `vm86` of a processor. -/
noncomputable def kernel (cpu : Machine D → Option (Machine D)) (m : Machine D) :
    Option (VReturn × Machine D) :=
  (eval cpu m).toOption.map trapOf

theorem virtualizes_kernel (cpu : Machine D → Option (Machine D)) :
    Virtualizes cpu (kernel cpu) := by
  intro m r
  rw [kernel, Option.map_eq_some_iff]
  simp only [← Option.mem_def, Part.mem_toOption]

/-- Ports that remember what was written to them. -/
def loggedPorts : Ports (List (Nat × Nat)) where
  input _ _ log := (0, log)
  output port _ value log := log ++ [(port, value)]

/-- The vector of interrupt `0x10` leads to `sti` and `int 0x42` in the ROM, the one of `0x42`
to `out dx, al` and the end. -/
def videoRom : Machine (List (Nat × Nat)) where
  regs := setRegs ⟨0x1100, 0, 0x1000, 0x1000⟩ ⟨0, 0, 0, 0, 0, 0, 0, 0, 0, 0, 0, 0, 0, 0, 0, 0⟩ 0 0
  mem a := if a = 0x43 then 0xc0 else if a = 0x10a then 0x10 else if a = 0x10b then 0xc0
    else if a = 0xc0000 then 0xfb else if a = 0xc0001 then 0xcd else if a = 0xc0002 then 0x42
    else if a = 0xc0100 then 0xee else if a = 0xc0101 then 0xcd else if a = 0xc0102 then 0xff
    else 0
  dev := []

def videoContext : Context := ⟨0x1100, 0, 0x1000, 0x1000⟩

def videoRegs : LrmiRegs := ⟨0, 0, 0, 0, 0x3ce, 0, 0x12, 0, 0, 0, 0, 0, 0, 0, 0, 0⟩

/-- The machine behind `sti`, which sets the virtual interrupt flag. -/
def permitted (m : Machine D) : Machine D :=
  { m.skip 1 with regs := { (m.skip 1).regs with eflags := m.regs.eflags ||| 0x80000#32 } }

/-- A processor that knows `sti` and nothing else. -/
def stiOnly (m : Machine D) : Option (Machine D) :=
  if m.code 0 = 0xfb then some m.permitted else none

def videoStart : Machine (List (Nat × Nat)) := videoRom.intFrame videoContext 0x10 videoRegs

def videoNested : Machine (List (Nat × Nat)) := (videoStart.permitted.skip 2).realInterrupt 0x42

/-- The machine behind `out`. -/
def videoDone : Machine (List (Nat × Nat)) := (videoNested.realPort loggedPorts [] (.out 1)).skip 1

theorem step_start : realStep stiOnly loggedPorts videoStart = some videoStart.permitted := rfl

theorem step_permitted :
    realStep stiOnly loggedPorts videoStart.permitted = some videoNested := rfl

theorem step_nested : realStep stiOnly loggedPorts videoNested = some videoDone := rfl

theorem stop_video : realStep stiOnly loggedPorts videoDone = none := rfl

theorem reaches_video {t : Machine (List (Nat × Nat))}
    (reached : Reaches (realStep stiOnly loggedPorts) videoStart t) :
    t = videoStart ∨ t = videoStart.permitted ∨ t = videoNested ∨ t = videoDone := by
  induction reached with
  | refl => exact .inl rfl
  | tail _ next ih =>
    rcases ih with rfl | rfl | rfl | rfl
    · exact .inr (.inl (Option.some.inj (next.symm.trans step_start)))
    · exact .inr (.inr (.inl (Option.some.inj (next.symm.trans step_permitted))))
    · exact .inr (.inr (.inr (Option.some.inj (next.symm.trans step_nested))))
    · exact absurd (stop_video.symm.trans next) nofun

end Machine

end Ucimf.Driver
