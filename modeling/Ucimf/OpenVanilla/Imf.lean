import Mathlib.Data.List.Basic

/-!
# The OpenVanilla bridge

An input-method module is asked with a key event and works on a buffer: it appends to it,
clears it and sends it. What is sent goes through the static string `commit_buf`, from where
`process_input` returns it.
-/

namespace Ucimf.OpenVanilla

abbrev Text := List UInt8

/-- The `ovk*` codes `process_input` uses. -/
def ovkBackspace : Int := 8
def ovkTab : Int := 9
def ovkReturn : Int := 13
def ovkEsc : Int := 27
def ovkLeft : Int := 28
def ovkRight : Int := 29
def ovkUp : Int := 30
def ovkDown : Int := 31
def ovkSpace : Int := 32
def ovkDelete : Int := 127

structure OVImfKeyCode where
  chr : Int
  shift : Bool
  capslock : Bool
  ctrl : Bool
  alt : Bool
  deriving DecidableEq, Repr

/-- What the buffer asks of the preedit widget. -/
inductive PreeditCall
  | append (s : Text)
  | clear
  | render
  deriving DecidableEq, Repr

structure OVImfBuffer where
  buf : Text
  prdt : List PreeditCall

/-- What a module may call on the buffer; `s` is the text of a C string. -/
inductive BufferCall
  | append (s : Text)
  | clear
  | update
  | send
  deriving DecidableEq, Repr

/-- The calls a module issues on the buffer during one `keyEvent`. -/
abbrev OVInputMethod := OVImfKeyCode → List BufferCall

structure OVImf where
  im : Option OVInputMethod
  commitBuf : Text
  preedit : OVImfBuffer

namespace OVImfBuffer

def clear (b : OVImfBuffer) : OVImfBuffer := { buf := [], prdt := b.prdt ++ [.clear] }

def append (b : OVImfBuffer) (s : Text) : OVImfBuffer :=
  { buf := b.buf ++ s, prdt := b.prdt ++ [.append s] }

def update (b : OVImfBuffer) : OVImfBuffer := { b with prdt := b.prdt ++ [.render] }

def isEmpty (b : OVImfBuffer) : Bool := b.buf.isEmpty

end OVImfBuffer

namespace OVImf

def commitBuffer (o : OVImf) (input : Text) : OVImf := { o with commitBuf := input }

/-- One call on the buffer; `send` commits its text and clears it. -/
def issue (o : OVImf) : BufferCall → OVImf
  | .append s => { o with preedit := o.preedit.append s }
  | .clear => { o with preedit := o.preedit.clear }
  | .update => { o with preedit := o.preedit.update }
  | .send =>
    let o := o.commitBuffer o.preedit.buf
    { o with preedit := o.preedit.clear }

def stdinToOpenvanilaKeycode (keychar : Int) : Int :=
  if keychar = 9 then ovkTab
  else if keychar = 13 then ovkReturn
  else if keychar = 27 then ovkEsc
  else if keychar = 32 then ovkSpace
  else if keychar = 126 then ovkDelete
  else if keychar = 127 then ovkBackspace
  else keychar

/-- The local variables of `process_input`. -/
structure Key where
  keychar : Int
  keycode : Int
  modifier : Int
  deriving DecidableEq, Repr

/-- The key of the input. An unknown escape sequence leaves the variables as they were found
on the stack. The sequences of four bytes are compared at `buf[4]`, which is the terminating
NUL, so that page up and page down are never recognised. -/
def decodeKey (stack : Key) (buf : Text) : Key :=
  match buf with
  | [b] => ⟨b.toInt8.toInt, stdinToOpenvanilaKeycode b.toInt8.toInt, 0⟩
  | [27, 91, b] =>
    if b = 65 then ⟨0, ovkUp, 0⟩
    else if b = 66 then ⟨0, ovkDown, 0⟩
    else if b = 67 then ⟨0, ovkRight, 0⟩
    else if b = 68 then ⟨0, ovkLeft, 0⟩
    else stack
  | _ => ⟨0, 0, 0⟩

/-- The key event of a key: `setCode` and the modifiers. -/
def keyEventOf (key : Key) : OVImfKeyCode :=
  { chr := key.keycode, shift := key.modifier = 1, capslock := false,
    ctrl := key.modifier = 4,
    alt := key.modifier = 2 ∨ key.modifier = 4 ∨ key.modifier = 8 }

/-- The keys that are returned at once while the buffer is empty. -/
def passThrough (preedit : OVImfBuffer) (event : OVImfKeyCode) : Option Text :=
  if preedit.isEmpty = true ∧ event.chr = ovkBackspace then some [0x7f]
  else if preedit.isEmpty = true ∧ event.chr = ovkReturn then some [0x0d]
  else if preedit.isEmpty = true ∧ event.chr = ovkRight then some [0x1b, 0x5b, 0x43]
  else if preedit.isEmpty = true ∧ event.chr = ovkLeft then some [0x1b, 0x5b, 0x44]
  else none

/-- What was committed is returned, and `commit_buf` is empty again. -/
def takeCommit (o : OVImf) : Text × OVImf :=
  if o.commitBuf.length > 0 then (o.commitBuf, { o with commitBuf := [] }) else ([], o)

def processInput (o : OVImf) (stack : Key) (buf : Text) : Text × OVImf :=
  match o.im with
  | none => ([], o)
  | some im =>
    let event := keyEventOf (decodeKey stack buf)
    match passThrough o.preedit event with
    | some result => (result, o)
    | none => ((im event).foldl issue o).takeCommit

end OVImf

end Ucimf.OpenVanilla
