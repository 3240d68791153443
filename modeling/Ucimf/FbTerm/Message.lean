import Ucimf.Raw.Session

/-!
# Messages from FbTerm

The server reads a buffer full of messages and handles them where they stand, each behind
the length of the one before. The keys of a `SendKey` message are translated in place.
-/

namespace Ucimf.FbTerm

open Keyboard Raw

inductive MessageType
  | connect
  | disconnect
  | active
  | deactive
  | sendKey
  | putText
  | setWin
  | ackWin
  | cursorPosition
  | fbTermInfo
  | termMode
  | showUI
  | hideUI
  | ackHideUI
  | fillRect
  | drawText
  | ping
  | ackPing
  deriving DecidableEq, Repr

/-- The types in the order of their codes. -/
def messageTypes : List MessageType :=
  [.connect, .disconnect, .active, .deactive, .sendKey, .putText, .setWin, .ackWin,
    .cursorPosition, .fbTermInfo, .termMode, .showUI, .hideUI, .ackHideUI, .fillRect, .drawText,
    .ping, .ackPing]

/-- What the server writes to FbTerm. -/
inductive Sent
  | putText (text : List UInt8)
  | ackHideUI
  deriving DecidableEq, Repr

structure Server where
  session : Session
  /-- `imfd` is not `-1`. -/
  connected : Bool
  imActive : Bool
  exit : Bool
  /-- The messages handled so far, as they stood in the buffer. -/
  dispatched : List (List UInt8)
  sent : List Sent

/-- An `unsigned short` at an offset. -/
def word (buf : List UInt8) (i : Nat) : Option Nat :=
  match buf[i]?, buf[i + 1]? with
  | some low, some high => some (low.toNat + 256 * high.toNat)
  | _, _ => none

/-- `OFFSET(Message, keys)`. -/
def keysOffset : Nat := 4

/-- The key sequence of F12, which toggles the focus. -/
def f12 : List UInt8 := [27, 91, 50, 52, 126]

namespace Server

def write (v : Server) (m : Sent) : Server :=
  if v.connected then { v with sent := v.sent ++ [m] } else v

@[simp] theorem dispatched_write (v : Server) (m : Sent) :
    (v.write m).dispatched = v.dispatched := by
  unfold write
  split <;> rfl

def putImText (v : Server) (text : List UInt8) (len : Nat) : Server :=
  if v.connected = false ∨ v.imActive = false ∨ len = 0 ∨ 65535 < keysOffset + len then v
  else v.write (.putText (text.take len))

@[simp] theorem dispatched_putImText (v : Server) (text : List UInt8) (len : Nat) :
    (v.putImText text len).dispatched = v.dispatched := by
  unfold putImText
  split
  · rfl
  · exact dispatched_write _ _

/-- The messages that do not touch the buffer. A cursor position only moves windows, and the
callbacks of `FbTermInfo`, `ShowUI`, `HideUI` and `TermMode` are null. -/
def notify (v : Server) : Option MessageType → Server
  | some .disconnect => { v with connected := false, exit := true }
  | some .active =>
    let session := { v.session with kb := v.session.kb.initKeycodeState }
    { v with imActive := true, session := (session.ucimfSwitch f12).1 }
  | some .deactive => { v with imActive := false, session := (v.session.ucimfSwitch f12).1 }
  | some .hideUI => v.write .ackHideUI
  | _ => v

@[simp] theorem dispatched_notify (v : Server) (type : Option MessageType) :
    (v.notify type).dispatched = v.dispatched := by
  unfold notify
  split <;> first
    | rfl
    | exact dispatched_write _ _

end Server

/-- `process_raw_key` on the memory from the keys on. -/
def processRawKey (k : Kernel) (answer : Answer) (v : Server) (mem : List UInt8) (len : Nat) :
    Except Fault (Server × List UInt8) :=
  if len = 0 then .ok (v, mem)
  else do
    let (session, mem, n) ← ucimfProcessRaw k answer v.session mem len
    .ok (({ v with session := session }).putImText (mem.take n) (n % 65536), mem)

/-- `process_message` on the message at `cur`. A length below the header's leaves a huge
number of keys. -/
def processMessage (k : Kernel) (answer : Answer) (v : Server) (buf : List UInt8) (cur : Nat) :
    Except Fault (Server × List UInt8) :=
  match word buf cur, word buf (cur + 2) with
  | some code, some len =>
    let v := { v with dispatched := v.dispatched ++ [(buf.drop cur).take len] }
    if messageTypes[code]? = some .sendKey then
      if v.imActive = false then .ok (v, buf)
      else if len < keysOffset then .error .overrun
      else do
        let keys := cur + keysOffset
        let (v, mem) ← processRawKey k answer v (buf.drop keys) (len - keysOffset)
        .ok (v, buf.take keys ++ mem)
    else .ok (v.notify messageTypes[code]?, buf)
  | _, _ => .error .overrun

/-- `process_messages` between `cur` and `stop`. The length is read again after a message was
handled; a length of zero keeps the loop at one message for ever. -/
def processMessages (k : Kernel) (answer : Answer) :
    Nat → Server → List UInt8 → Nat → Nat → Except Fault (Server × List UInt8)
  | 0, _, _, _, _ => .error .hang
  | fuel + 1, v, buf, cur, stop =>
    if cur < stop then
      match word buf (cur + 2) with
      | none => .error .overrun
      | some len =>
        if len ≤ stop - cur then do
          let (v, buf) ← processMessage k answer v buf cur
          match word buf (cur + 2) with
          | none => .error .overrun
          | some len =>
            if len = 0 then .error .hang
            else processMessages k answer fuel v buf (cur + len) stop
        else .ok (v, buf)
    else .ok (v, buf)

/-- `check_im_message` after `received` has been read to the start of the buffer. -/
def checkImMessage (k : Kernel) (answer : Answer) (v : Server) (received rest : List UInt8) :
    Except Fault (Server × List UInt8) :=
  processMessages k answer (received.length + 1) v (received ++ rest) 0 received.length

end Ucimf.FbTerm
