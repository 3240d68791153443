import Ucimf.OpenVanilla.Imf

/-!
# The key of a terminal string

The bridges to OpenVanilla and SunPinyin each carry a copy of one table of escape sequences.
The copies differ in the codes they assign and in where they look for the tilde and the digit
of a page key. The variables of the key are declared without a value.
-/

namespace Ucimf.Decoder

open OpenVanilla OpenVanilla.OVImf

/-- The codes of the named keys. -/
structure KeyCodes where
  enter : Int
  escape : Int
  space : Int
  delete : Int
  backSpace : Int
  up : Int
  down : Int
  right : Int
  left : Int
  pageUp : Int
  pageDown : Int

/-- The variables of a key; `none` as long as nothing is assigned. -/
structure Locals where
  keychar : Option Int
  keycode : Option Int
  modifier : Option Int
  deriving DecidableEq, Repr

namespace Locals

def unassigned : Locals := ⟨none, none, none⟩

def assigned (keychar keycode modifier : Int) : Locals :=
  ⟨some keychar, some keycode, some modifier⟩

def Definite (l : Locals) : Prop :=
  l.keychar.isSome ∧ l.keycode.isSome ∧ l.modifier.isSome

instance (l : Locals) : Decidable l.Definite := inferInstanceAs (Decidable (_ ∧ _ ∧ _))

/-- What is read: an unassigned variable has the value that lies on the stack. -/
def read (l : Locals) (stack : Key) : Key :=
  ⟨l.keychar.getD stack.keychar, l.keycode.getD stack.keycode, l.modifier.getD stack.modifier⟩

theorem definite_assigned (keychar keycode modifier : Int) :
    (assigned keychar keycode modifier).Definite :=
  ⟨rfl, rfl, rfl⟩

theorem not_definite_unassigned : ¬ unassigned.Definite := fun definite => nomatch definite.1

theorem Definite.read_eq {l : Locals} (definite : l.Definite) (stack stack' : Key) :
    l.read stack = l.read stack' := by
  obtain ⟨keychar, hchar⟩ := Option.isSome_iff_exists.mp definite.1
  obtain ⟨keycode, hcode⟩ := Option.isSome_iff_exists.mp definite.2.1
  obtain ⟨modifier, hmodifier⟩ := Option.isSome_iff_exists.mp definite.2.2
  simp only [read, hchar, hcode, hmodifier, Option.getD_some]

end Locals

/-- `buf[i]`, which is NUL at the length of the string. -/
def charAt (buf : Text) (i : Nat) : UInt8 := buf.getD i 0

/-- A copy of the table: its codes, the code of a character, and the places of the tilde and
the digit in the sequences of four bytes. -/
structure Table where
  codes : KeyCodes
  ofChar : Int → Int
  tilde : Nat
  digit : Nat

/-- The assignments at the head of `process_input`. -/
def Table.assigns (t : Table) (buf : Text) : Locals :=
  if buf.length = 1 then
    let keychar := (charAt buf 0).toInt8.toInt
    .assigned keychar (t.ofChar keychar) 0
  else if buf.length = 3 ∧ charAt buf 0 = 27 ∧ charAt buf 1 = 91 then
    if charAt buf 2 = 65 then .assigned 0 t.codes.up 0
    else if charAt buf 2 = 66 then .assigned 0 t.codes.down 0
    else if charAt buf 2 = 67 then .assigned 0 t.codes.right 0
    else if charAt buf 2 = 68 then .assigned 0 t.codes.left 0
    else .unassigned
  else if buf.length = 4 ∧ charAt buf 0 = 27 ∧ charAt buf 1 = 91 ∧ charAt buf t.tilde = 126 then
    if charAt buf t.digit = 53 then .assigned 0 t.codes.pageUp 0
    else if charAt buf t.digit = 54 then .assigned 0 t.codes.pageDown 0
    else .unassigned
  else .assigned 0 0 0

/-! ### OpenVanilla -/

def ovkPageUp : Int := 11
def ovkPageDown : Int := 12

def ovkCodes : KeyCodes where
  enter := ovkReturn
  escape := ovkEsc
  space := ovkSpace
  delete := ovkDelete
  backSpace := ovkBackspace
  up := ovkUp
  down := ovkDown
  right := ovkRight
  left := ovkLeft
  pageUp := ovkPageUp
  pageDown := ovkPageDown

def openVanilla : Table where
  codes := ovkCodes
  ofChar := stdinToOpenvanilaKeycode
  tilde := 4
  digit := 3

/-! ### SunPinyin -/

/-- The `IM_VK_*` codes are those of the SunPinyin headers. -/
def stdinToSunpinyinKeycode (vk : KeyCodes) (keychar : Int) : Int :=
  if keychar = 13 then vk.enter
  else if keychar = 27 then vk.escape
  else if keychar = 32 then vk.space
  else if keychar = 126 then vk.delete
  else if keychar = 127 then vk.backSpace
  else keychar

def sunPinyin (vk : KeyCodes) : Table where
  codes := vk
  ofChar := stdinToSunpinyinKeycode vk
  tilde := 3
  digit := 2

structure CKeyEvent where
  code : Int
  value : BitVec 32
  deriving DecidableEq, Repr

/-- The calls of a view on its window handler that `process_input` sees the effect of:
`updatePreedit` with the bytes it converted, `commit` with the converted text. -/
inductive WinCall
  | updatePreedit (handledBytes : Int)
  | commit (ss : Text)
  deriving DecidableEq, Repr

/-- The calls a view makes during one `onKeyEvent`. -/
abbrev CIMIView := CKeyEvent → List WinCall

structure UcimfWindowHandler where
  view : CIMIView
  prdtLen : Int
  commitBuf : Text

namespace UcimfWindowHandler

def call (h : UcimfWindowHandler) : WinCall → UcimfWindowHandler
  | .updatePreedit handledBytes => { h with prdtLen := handledBytes }
  | .commit ss => { h with commitBuf := ss }

/-- The keys that are returned at once while nothing is composed. -/
def passThrough (h : UcimfWindowHandler) (vk : KeyCodes) (keycode : Int) : Option Text :=
  if h.prdtLen = 0 then
    if keycode = vk.backSpace then some [0x7f]
    else if keycode = vk.enter then some [0x0d]
    else if keycode = vk.right then some [0x1b, 0x5b, 0x43]
    else if keycode = vk.left then some [0x1b, 0x5b, 0x44]
    else none
  else none

/-- `keyvalue`; no value is both below `0x20` and above `0x7E`. -/
def keyvalue (keychar : Int) : BitVec 32 :=
  let value := BitVec.ofInt 32 keychar
  if value < 0x20 ∧ 0x7e < value then 0 else value

def takeCommit (h : UcimfWindowHandler) : Text × UcimfWindowHandler :=
  if h.commitBuf.length > 0 then (h.commitBuf, { h with commitBuf := [] }) else ([], h)

/-- The key of the input as it is read. -/
def decodeKey (vk : KeyCodes) (stack : Key) (buf : Text) : Key :=
  ((sunPinyin vk).assigns buf).read stack

def keyEventOf (key : Key) : CKeyEvent := ⟨key.keycode, keyvalue key.keychar⟩

def processInput (vk : KeyCodes) (h : UcimfWindowHandler) (stack : Key) (buf : Text) :
    Text × UcimfWindowHandler :=
  let key := decodeKey vk stack buf
  match h.passThrough vk key.keycode with
  | some result => (result, h)
  | none => ((h.view (keyEventOf key)).foldl call h).takeCommit

end UcimfWindowHandler

end Ucimf.Decoder
