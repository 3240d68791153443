import Ucimf.Keyboard.TermString

/-!
# The input method session

`ucimf_process_raw` decodes the bytes it is given down to the last key event, runs the
shortcuts or hands the event's string to the input method, and writes the answer over the
bytes it was called with. The input methods are known by what they return from
`process_input` after the calls made so far.
-/

namespace Ucimf.Raw

open Keyboard

/-- What stops the program: `kc` and `down` read before they are set, an access past the end
of an array, or a loop that never ends. -/
inductive Fault
  | uninitialized
  | overrun
  | hang
  deriving DecidableEq, Repr

/-- What the input methods get to see. `clear` empties the preedit, the lookup choice and
the status. -/
inductive Call
  | processInput (imf : Nat) (input : List UInt8)
  | switchIm (imf : Nat)
  | switchImReverse (imf : Nat)
  | refresh (imf : Nat)
  | clear
  deriving DecidableEq, Repr

structure Session where
  kb : KeyState
  focus : Bool
  /-- `cwmmap` holds a window. -/
  attached : Bool
  imf : Option Nat
  imfs : List Nat
  currentImf : Nat
  calls : List Call

/-- What the input method called last returns from `process_input`; nothing if it is trapped. -/
abbrev Answer := List Call → List UInt8

/-- `KEY_*` of the shortcuts. -/
def keySpace : Nat := 57
def keyLeftshift : Nat := 42
def keyRightshift : Nat := 54
def keyF9 : Nat := 67
def keyLeftctrl : Nat := 29
def keyRightctrl : Nat := 97

namespace Session

def call (s : Session) (c : Call) : Session := { s with calls := s.calls ++ [c] }

@[simp] theorem kb_call (s : Session) (c : Call) : (s.call c).kb = s.kb := rfl

def setFocus (s : Session) (focus : Bool) : Session :=
  if focus ≠ s.focus ∧ s.attached = true then { s with focus := focus } else s

@[simp] theorem kb_setFocus (s : Session) (focus : Bool) : (s.setFocus focus).kb = s.kb := by
  unfold setFocus
  split <;> rfl

def refreshImf (s : Session) : Session :=
  match s.imf with
  | some imf => s.call (.refresh imf)
  | none => s

@[simp] theorem kb_refreshImf (s : Session) : s.refreshImf.kb = s.kb := by
  unfold refreshImf
  split <;> rfl

/-- `imf = nextImf()`. -/
def nextImf (s : Session) : Session :=
  if s.imfs = [] then { s with imf := none }
  else
    let current := if s.imfs.length ≤ s.currentImf + 1 then 0 else s.currentImf + 1
    { s with currentImf := current, imf := s.imfs[current]? }

@[simp] theorem kb_nextImf (s : Session) : s.nextImf.kb = s.kb := by
  unfold nextImf
  split <;> rfl

/-- The focused input method is asked to switch; otherwise the focus is taken. -/
def switchFocused (s : Session) (request : Nat → Call) : Session :=
  match s.imf with
  | some imf => if s.focus then s.call (request imf) else s.setFocus true
  | none => s.setFocus true

@[simp] theorem kb_switchFocused (s : Session) (request : Nat → Call) :
    (s.switchFocused request).kb = s.kb := by
  unfold switchFocused
  repeat' split
  all_goals simp

/-- `ucimf_switch`: the session and what is left in the buffer. -/
def ucimfSwitch (s : Session) (buf : List UInt8) : Session × List UInt8 :=
  match buf with
  | [27, 91, 50, 52, 126] => ((s.setFocus !s.focus).refreshImf, [])
  | [27, 91, 50, 51, 126] => if s.focus then (s.switchFocused .switchIm, []) else (s, buf)
  | [27, 91, 50, 49, 126] => if s.focus then (s.switchFocused .switchImReverse, []) else (s, buf)
  | _ => (s, buf)

end Session

/-- What a call puts in place of its input: zeros, or the text of an input method. -/
inductive Reply
  | cleared
  | text (output : List UInt8)
  deriving DecidableEq, Repr

/-- The keysym of a key event and its string. -/
def translate (k : Kernel) (kb : KeyState) (kc : Nat) (down : Bool) : List UInt8 × KeyState :=
  let sym := kb.keycodeToKeysym k kc down
  sym.2.keysymToTermString k sym.1 down

/-- The string is handed to the focused input method. -/
def Session.deliver (answer : Answer) (s : Session) (input : List UInt8) : Session × Reply :=
  match s.imf with
  | some imf =>
    if s.focus = false ∨ input = [] then (s, .text [])
    else
      let s := s.call (.processInput imf input)
      (s, .text (answer s.calls))
  | none => (s, .text [])

/-- The shortcuts, and the way to the input method of every other press. -/
def dispatch (answer : Answer) (s : Session) (str : List UInt8) (kc : Nat) (down : Bool) :
    Session × Reply :=
  let ctrl := 0 < s.kb.shiftDown kgCtrl
  if down = false then (s, .cleared)
  else if kc = keySpace ∧ ctrl then (s, .cleared)
  else if kc = keyLeftshift ∧ ctrl then (s.switchFocused .switchIm, .cleared)
  else if kc = keyRightshift ∧ ctrl then (s.switchFocused .switchImReverse, .cleared)
  else if kc = keyF9 then ((s.call .clear).nextImf.refreshImf, .cleared)
  else if kc = keyLeftctrl ∨ kc = keyRightctrl then (s, .cleared)
  else s.deliver answer str

/-- The body of `ucimf_process_raw` behind the decoding loop; the string is copied to
`char str[128]`. -/
def processKey (k : Kernel) (answer : Answer) (s : Session) (kc : Nat) (down : Bool) :
    Except Fault (Session × Reply) :=
  let str := translate k s.kb kc down
  if 128 ≤ str.1.length then .error .overrun
  else .ok (dispatch answer { s with kb := str.2 } str.1 kc down)

/-- A byte by itself: the keycode in its low bits, and whether it is a press. -/
def single (b : UInt8) : Nat × Bool := ((b &&& 0x7f).toNat, b &&& 0x80 = 0)

/-- The decoding loop: `kc` and `down` of the last event. -/
def decode : List UInt8 → Option (Nat × Bool) → Option (Nat × Bool)
  | [], last => last
  | [b], _ => some (single b)
  | [_, b], _ => some (single b)
  | b :: b₁ :: b₂ :: rest, _ =>
    if b &&& 0x7f = 0 ∧ b₁ &&& 0x80 ≠ 0 ∧ b₂ &&& 0x80 ≠ 0 then
      decode rest (some (((b₁ &&& 0x7f).toNat <<< 7) ||| (b₂ &&& 0x7f).toNat, b &&& 0x80 = 0))
    else decode (b₁ :: b₂ :: rest) (some (single b))

/-- The reply is written over the buffer without regard to its size. -/
def writeBack (mem : List UInt8) (n : Nat) : Reply → Except Fault (List UInt8 × Nat)
  | .cleared => .ok (List.replicate n 0 ++ mem.drop n, 0)
  | .text output =>
    if mem.length < output.length then .error .overrun
    else .ok (output ++ (mem.set 0 0).drop output.length, output.length)

def rawReply (k : Kernel) (answer : Answer) (s : Session) (bytes : List UInt8) :
    Except Fault (Session × Reply) :=
  match decode bytes none with
  | none => .error .uninitialized
  | some (kc, down) => processKey k answer s kc down

/-- `mem` is the memory from `buf` to the end of its array, `n` the value of `*p_ret`. -/
def ucimfProcessRaw (k : Kernel) (answer : Answer) (s : Session) (mem : List UInt8) (n : Nat) :
    Except Fault (Session × List UInt8 × Nat) :=
  if mem.length < n then .error .overrun
  else do
    let (s, reply) ← rawReply k answer s (mem.take n)
    let (mem, n) ← writeBack mem n reply
    .ok (s, mem, n)

end Ucimf.Raw
