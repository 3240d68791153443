import Ucimf.Display.Render

/-!
# The window manager over all windows

`Desk` is the framebuffer, every window and the one `Cwm`. The key order of `cwmmap`, which
the source takes from the addresses of the windows, is the order of `ι`; the loops of
`set_position` and `set_focus` visit the windows in that order.
-/

namespace Ucimf.Display

open Outcome

variable {ι Px : Type}

structure Desk (ι Px : Type) where
  dev : GraphDev Px
  win : ι → Window Px
  cwm : Cwm ι
  prevFocus : Bool

namespace Desk

def view (s : Desk ι Px) (w : ι) : View Px := ⟨s.dev, s.win w⟩

@[simp] theorem view_win (s : Desk ι Px) (w : ι) : (s.view w).win = s.win w := rfl

variable [LinearOrder ι]

def put (s : Desk ι Px) (w : ι) (v : View Px) : Desk ι Px :=
  { s with dev := v.dev, win := Function.update s.win w v.win }

/-- Run a method of one window. -/
def on (s : Desk ι Px) (w : ι) (f : View Px → Except Fault (View Px)) :
    Except Fault (Desk ι Px) := do
  let v ← f (s.view w)
  .ok (s.put w v)

/-- `Cwm::Cwm` over an open device, before anything is attached. -/
def start (dev : GraphDev Px) : Desk ι Px where
  dev := dev
  win := fun _ => Window.new true
  cwm := { xres := dev.xres, yres := dev.yres, cursorX := 0, cursorY := 0, focus := false,
           cwmmap := [] }
  prevFocus := false

def painted (s : Desk ι Px) (picture : Point → Px) : Desk ι Px :=
  { s with dev := { s.dev with pixel := picture } }

/-- The manager of the windows on pixels. -/
def manager : Manager (Except Fault) (Except Fault) (Desk ι Px) (View Px) ι (Shape Px)
    (Point → Px) where
  port _ := View.port
  on := on
  cwm := cwm
  setCwm s c := { s with cwm := c }
  prevFocus := prevFocus
  setPrevFocus s flag := { s with prevFocus := flag }
  setWm s w := { s with win := Function.update s.win w { s.win w with wm := true } }
  painted := painted

/-- The loop of `set_position` over a part of the map. -/
def updateAll (s : Desk ι Px) (entries : List (ι × Shift)) : Except Fault (Desk ι Px) :=
  manager.updateAll s entries

def withCursor (s : Desk ι Px) (newX newY : Int) : Desk ι Px :=
  { s with cwm := { s.cwm with cursorX := newX, cursorY := newY } }

def setPosition (s : Desk ι Px) (newX newY : Int) : Except Fault (Desk ι Px) :=
  manager.setPosition s newX newY

/-- The loop of `set_focus` over a part of the map. -/
def showAll (s : Desk ι Px) (entries : List (ι × Shift)) : Except Fault (Desk ι Px) :=
  manager.showAll s entries

def hideAll (s : Desk ι Px) (entries : List (ι × Shift)) : Except Fault (Desk ι Px) :=
  manager.hideAll s entries

def withFocus (s : Desk ι Px) (newFocus : Bool) : Desk ι Px :=
  { s with cwm := { s.cwm with focus := newFocus } }

def setFocus (s : Desk ι Px) (newFocus : Bool) : Except Fault (Desk ι Px) :=
  manager.setFocus s newFocus

def attachWindow (s : Desk ι Px) (w : ι) (sh : Shift) : Desk ι Px := manager.attachWindow s w sh

def ucimfCursorPosition (s : Desk ι Px) (x y : Int) : Except Fault (Desk ι Px) :=
  s.setPosition x y

def ucimfRefreshBegin (s : Desk ι Px) : Except Fault (Desk ι Px) := manager.ucimfRefreshBegin s

def ucimfRefreshEnd (s : Desk ι Px) : Except Fault (Desk ι Px) := manager.ucimfRefreshEnd s

end Desk

/-- The calls a client of the library can make, and a write of the terminal. -/
abbrev Op (ι Px : Type) := Request ι (Drawing Px) (Point → Px)

namespace Desk

variable [LinearOrder ι]

def exec (s : Desk ι Px) (op : Op ι Px) : Except Fault (Desk ι Px) := manager.exec s op

theorem attachWindow_def (s : Desk ι Px) (w : ι) (sh : Shift) : s.attachWindow w sh =
    { s with
      cwm := { s.cwm with cwmmap := Cwm.assign w sh s.cwm.cwmmap }
      win := Function.update s.win w { s.win w with wm := true } } := rfl

theorem updateAll_def (s : Desk ι Px) (entries : List (ι × Shift)) : s.updateAll entries =
    entries.foldlM (fun s entry => s.on entry.1 (entry.2.update s.cwm)) s := rfl

theorem showAll_def (s : Desk ι Px) (entries : List (ι × Shift)) : s.showAll entries =
    entries.foldlM (fun s entry => s.on entry.1 Window.show) s := rfl

theorem hideAll_def (s : Desk ι Px) (entries : List (ι × Shift)) : s.hideAll entries =
    entries.foldlM (fun s entry => s.on entry.1 Window.hide) s := rfl

theorem setPosition_def (s : Desk ι Px) (x y : Int) : s.setPosition x y =
    if x ≠ s.cwm.cursorX ∨ y ≠ s.cwm.cursorY then (s.withCursor x y).updateAll s.cwm.cwmmap
    else .ok s := rfl

theorem setFocus_def (s : Desk ι Px) (newFocus : Bool) : s.setFocus newFocus =
    if newFocus ≠ s.cwm.focus ∧ s.cwm.cwmmap ≠ [] then
      if newFocus = true then (s.withFocus newFocus).showAll s.cwm.cwmmap
      else (s.withFocus newFocus).hideAll s.cwm.cwmmap
    else .ok s := rfl

theorem ucimfRefreshEnd_def (s : Desk ι Px) : s.ucimfRefreshEnd = s.setFocus s.prevFocus := rfl

section Put
variable (s : Desk ι Px) (w : ι) (v : View Px)

@[simp] theorem put_win_self : (s.put w v).win w = v.win := Function.update_self _ _ _

@[simp] theorem put_win_of_ne {u : ι} (other : u ≠ w) : (s.put w v).win u = s.win u :=
  Function.update_of_ne other _ _

/-- What holds of the new window and of each other one holds of all. -/
theorem put_win_cases {s : Desk ι Px} {w : ι} {v : View Px} {P : ι → Window Px → Prop}
    (own : P w v.win) (others : ∀ u, u ≠ w → P u (s.win u)) (u : ι) : P u ((s.put w v).win u) := by
  by_cases same : u = w
  · subst same
    rwa [put_win_self]
  · rw [put_win_of_ne s w v same]
    exact others u same

@[simp] theorem put_dev : (s.put w v).dev = v.dev := rfl

@[simp] theorem view_put : (s.put w v).view w = v := by
  rw [view, put_win_self]
  rfl

@[simp] theorem put_view : s.put w (s.view w) = s := by
  simp [put, view]

end Put

theorem on_ok {s : Desk ι Px} {w : ι} {f : View Px → Except Fault (View Px)} {v : View Px}
    (returned : f (s.view w) = .ok v) : s.on w f = .ok (s.put w v) := by
  rw [on, returned]
  rfl

theorem ends_on {tolerated : Fault → Prop} {s : Desk ι Px} {w : ι}
    {f : View Px → Except Fault (View Px)} {Q : Desk ι Px → Prop}
    (h : Ends tolerated (f (s.view w)) fun v => Q (s.put w v)) :
    Ends tolerated (s.on w f) Q := h.bind fun _ hv => hv

end Desk

end Ucimf.Display
