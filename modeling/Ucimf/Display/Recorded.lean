import Ucimf.Display.Desk
import Ucimf.Support.Traced

/-!
# The calls of SaveRect and RstrRect

A port that records the calls it makes of the driver, and the manager on it. A method returns what
it returns without the record (`result_exec`).
-/

namespace Ucimf.Display

open Outcome GraphPort

variable {ι Px : Type}

/-- `SaveRect` with what it filled the buffer with, and `RstrRect` with what it was handed. -/
inductive RectCall (Px : Type)
  | saveRect (b : Buffer) (x1 y1 x2 y2 : Int) (filled : List Px)
  | rstrRect (b : Buffer) (x1 y1 x2 y2 : Int) (buffer : Option (List Px))

abbrev Recorded (Px : Type) := Traced (RectCall Px) Fault

namespace Recorded

open Traced

/-- A shape calls neither `SaveRect` nor `RstrRect`. -/
def port : Port (Recorded Px) (View Px) (Shape Px) where
  pane := View.port.pane
  setVisible := View.port.setVisible
  setPos := View.port.setPos
  setSize := View.port.setSize
  markPseudo := View.port.markPseudo
  null := View.port.null
  forget b v := silent (View.port.forget b v)
  saveRect b x1 y1 x2 y2 v :=
    match v.dev.saveRect x1 y1 x2 y2 with
    | .ok saved =>
      call (.saveRect b x1 y1 x2 y2 saved) (View.port.saveRect b x1 y1 x2 y2 v)
    | .error e => silent (.error e)
  rstrRect b x1 y1 x2 y2 v :=
    call (.rstrRect b x1 y1 x2 y2 (v.win.gp.buf b)) (View.port.rstrRect b x1 y1 x2 y2 v)
  xMax := View.port.xMax
  yMax := View.port.yMax
  draw sp x y v := silent (View.port.draw sp x y v)
  nullShift := silent View.port.nullShift

section Manager
variable [LinearOrder ι]

/-- The calls made for a window are recorded in its name. -/
def on (s : Desk ι Px) (w : ι) (f : View Px → Recorded Px (View Px)) :
    Traced (ι × RectCall Px) Fault (Desk ι Px) := do
  let v ← (f (s.view w)).named w
  silent (.ok (s.put w v))

def manager : Manager (Recorded Px) (Traced (ι × RectCall Px) Fault) (Desk ι Px) (View Px) ι
    (Shape Px) (Point → Px) where
  port _ := port
  on := on
  cwm := Desk.manager.cwm
  setCwm := Desk.manager.setCwm
  prevFocus := Desk.manager.prevFocus
  setPrevFocus := Desk.manager.setPrevFocus
  setWm := Desk.manager.setWm
  painted := Desk.manager.painted

/-- A session from a state on. -/
def run (s : Desk ι Px) (ops : List (Op ι Px)) : Traced (ι × RectCall Px) Fault (Desk ι Px) :=
  ops.foldlM manager.exec s

end Manager

/-! ### Erasure -/

theorem port_erased : (port : Port (Recorded Px) (View Px) (Shape Px)).Relates View.port id Eq
    fun t x => t.result = x where
  toLifting := erasure
  pane same := congrArg _ same
  setVisible same _ := congrArg (View.port.setVisible · _) same
  setPos same _ _ := congrArg (View.port.setPos · _ _) same
  setSize same _ _ := congrArg (View.port.setSize · _ _) same
  markPseudo same _ := congrArg (View.port.markPseudo · _) same
  null same b := congrArg (View.port.null b) same
  forget same b := congrArg (View.port.forget b) same
  saveRect := by
    rintro v _ rfl b x1 y1 x2 y2
    dsimp only [port]
    cases saved : v.dev.saveRect x1 y1 x2 y2 with
    | ok buf => rfl
    | error e =>
      dsimp only [View.port]
      rw [saved]
      rfl
  rstrRect := by
    rintro v _ rfl b x1 y1 x2 y2
    rfl
  xMax _ := rfl
  yMax _ := rfl
  draw same sp x y := congrArg (View.port.draw sp x y) same
  nullShift := rfl

variable [LinearOrder ι] {s : Desk ι Px}

theorem manager_erased : (manager : Manager (Recorded Px) _ (Desk ι Px) _ ι _ _).Relates
    Desk.manager id id Eq fun t x => t.result = x where
  toLifting := erasure
  on := by
    rintro s _ rfl w f f' uniform
    change (on s w f).result = s.on w f'
    rw [on, result_bind, result_named, uniform port_erased _ _ rfl]
    rfl
  cwm same := congrArg _ same
  setCwm same _ := congrArg (Desk.manager.setCwm · _) same
  prevFocus same := congrArg _ same
  setPrevFocus same _ := congrArg (Desk.manager.setPrevFocus · _) same
  setWm same _ := congrArg (Desk.manager.setWm · _) same
  painted same _ := congrArg (Desk.manager.painted · _) same

theorem result_setFocus (newFocus : Bool) :
    (manager.setFocus s newFocus).result = s.setFocus newFocus :=
  manager_erased.setFocus rfl newFocus

theorem result_exec (op : Op ι Px) : (manager.exec s op).result = s.exec op := by
  have erased := manager_erased.exec (s := s) rfl op
  rwa [op.map_id] at erased

theorem result_run (ops : List (Op ι Px)) : (run s ops).result = ops.foldlM Desk.exec s := by
  apply erasure.foldlM _ rfl
  rintro s _ op rfl
  exact result_exec op

end Recorded

end Ucimf.Display
