import Mathlib.Init

/-!
# Keysyms and the kernel's keymap

A keysym `K( t, v )` is a type and a value. `Kernel` holds what the console's ioctls
answer: the keymap of up to 256 tables, the function-key strings and the meta mode.
-/

namespace Ucimf.Keyboard

/-- `KTYP` of a keysym; `other` stands for the types the code does not know. -/
inductive KeyType
  | ktLatin
  | ktFn
  | ktSpec
  | ktPad
  | ktDead
  | ktCons
  | ktCur
  | ktShift
  | ktMeta
  | ktAscii
  | ktLock
  | ktLetter
  | ktSlock
  | other (code : UInt8)
  deriving DecidableEq, Repr

structure Keysym where
  type : KeyType
  val : UInt8
  deriving DecidableEq, Repr

open KeyType

def kHole : Keysym := ⟨ktSpec, 0⟩
def kEnter : Keysym := ⟨ktSpec, 1⟩
def kCaps : Keysym := ⟨ktSpec, 7⟩
def kNum : Keysym := ⟨ktSpec, 8⟩
def kCapson : Keysym := ⟨ktSpec, 13⟩
def kBarenumlock : Keysym := ⟨ktSpec, 19⟩
def kNosuchmap : Keysym := ⟨ktSpec, 127⟩

def kFind : Keysym := ⟨ktFn, 20⟩
def kInsert : Keysym := ⟨ktFn, 21⟩
def kRemove : Keysym := ⟨ktFn, 22⟩
def kSelect : Keysym := ⟨ktFn, 23⟩
def kPgup : Keysym := ⟨ktFn, 24⟩
def kPgdn : Keysym := ⟨ktFn, 25⟩

def kP5 : Keysym := ⟨ktPad, 5⟩

def kDown : Keysym := ⟨ktCur, 0⟩
def kLeft : Keysym := ⟨ktCur, 1⟩
def kRight : Keysym := ⟨ktCur, 2⟩
def kUp : Keysym := ⟨ktCur, 3⟩

/-- `K_HEX0`: the values of `KT_ASCII` from here on are hexadecimal digits. -/
def kHex0 : Keysym := ⟨ktAscii, 10⟩

def nrKeys : Nat := 256
def nrShift : Nat := 9
def nrPad : Nat := 20
def nrAscii : Nat := 26

def kgShift : Nat := 0
def kgCtrl : Nat := 2
def kgCapsshift : Nat := 8

/-- Bits of `lock_state`. -/
def kNumlock : BitVec 8 := 2
def kCapslock : BitVec 8 := 4

/-- The values of `AC_START` and `AC_END`. -/
def acStart : UInt8 := 0x80
def acEnd : UInt8 := 0x97

abbrev Table := Nat → Keysym

structure Kernel where
  keymap : BitVec 8 → Option Table
  /-- `KDGKBSENT`. -/
  funcString : UInt8 → List UInt8
  /-- `KDGKBMETA` answers `K_METABIT`. -/
  metaBit : Bool

/-- `KDGKBENT`. An unallocated table has holes, and no first entry. -/
def Kernel.kdgkbent (k : Kernel) (table : BitVec 8) (index : Nat) : Keysym :=
  match k.keymap table with
  | some entries => entries index
  | none => if index = 0 then kNosuchmap else kHole

end Ucimf.Keyboard
