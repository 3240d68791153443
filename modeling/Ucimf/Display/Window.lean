import Ucimf.Display.Methods

/-!
# Windows, graph ports and widgets on pixels

`View` is one window with the device it draws on, and `View.port` is its graph port: a save buffer
is a list of pixels. The methods of `GraphPort`, `Window` and `Widget` are those over any port,
on this one.
-/

namespace Ucimf.Display

variable {ι Px : Type}

structure GraphPort (Px : Type) where
  pseudo : Bool
  bufBg : Option (List Px)
  bufFg : Option (List Px)
  /-- `gdev` is not null. -/
  gdev : Bool

structure Window (Px : Type) where
  visible : Bool
  posX : Int
  posY : Int
  width : Int
  height : Int
  gp : GraphPort Px
  /-- `wm` is not null. -/
  wm : Bool

/-- `Window::Window` and `GraphPort::GraphPort`, with the device open or not. -/
def Window.new (gdev : Bool) : Window Px where
  visible := false
  posX := 0
  posY := 0
  width := 0
  height := 0
  gp := { pseudo := true, bufBg := none, bufFg := none, gdev := gdev }
  wm := false

@[simps] def Window.pane (W : Window Px) : Pane where
  visible := W.visible
  posX := W.posX
  posY := W.posY
  width := W.width
  height := W.height
  pseudo := W.gp.pseudo
  gdev := W.gp.gdev
  wm := W.wm

/-- One window and the device it draws on. -/
structure View (Px : Type) where
  dev : GraphDev Px
  win : Window Px

/-- The inclusive rectangle of a window. -/
def Window.rect (W : Window Px) : Set Point :=
  box W.posX W.posY (W.posX + W.width) (W.posY + W.height)

instance (W : Window Px) : DecidablePred (· ∈ W.rect) :=
  inferInstanceAs (DecidablePred (· ∈ box W.posX W.posY (W.posX + W.width) (W.posY + W.height)))

namespace GraphPort

def buf (gp : GraphPort Px) : Buffer → Option (List Px)
  | .bg => gp.bufBg
  | .fg => gp.bufFg

def setBuf (gp : GraphPort Px) (value : Option (List Px)) : Buffer → GraphPort Px
  | .bg => { gp with bufBg := value }
  | .fg => { gp with bufFg := value }

theorem buf_setBuf (gp : GraphPort Px) (value : Option (List Px)) (b : Buffer) :
    (gp.setBuf value b).buf = Function.update gp.buf b value := by
  funext c
  cases b with
  | bg => cases c <;> rfl
  | fg => cases c <;> rfl

theorem setBuf_buf (gp : GraphPort Px) (b : Buffer) : gp.setBuf (gp.buf b) b = gp := by
  cases b with
  | bg => rfl
  | fg => rfl

theorem gdev_setBuf (gp : GraphPort Px) (value : Option (List Px)) (b : Buffer) :
    (gp.setBuf value b).gdev = gp.gdev := by
  cases b with
  | bg => rfl
  | fg => rfl

theorem setBuf_setBuf (gp : GraphPort Px) (old value : Option (List Px)) (b : Buffer) :
    (gp.setBuf old b).setBuf value b = gp.setBuf value b := by
  cases b with
  | bg => rfl
  | fg => rfl

end GraphPort

open GraphPort

/-- A shape: its extent and the pixels its `draw` puts, relative to its origin. -/
structure Shape (Px : Type) where
  xMax : Int
  yMax : Int
  ink : List (Int × Int × Px)

/-- The calls `gp->draw( x, y, sp )` one run of `Widget::draw` makes. -/
abbrev Drawing (Px : Type) := List (Int × Int × Shape Px)

/-- `Shape::draw` after `setXY( x, y )`. -/
def Shape.draw (sp : Shape Px) (x y : Int) (dev : GraphDev Px) : Except Fault (GraphDev Px) :=
  sp.ink.foldlM (fun d dot => d.putPixel (x + dot.1) (y + dot.2.1) dot.2.2) dev

/-- The graph port on a device of pixels. -/
def View.port : Port (Except Fault) (View Px) (Shape Px) where
  pane v := v.win.pane
  setVisible v visible := { v with win := { v.win with visible := visible } }
  setPos v x y := { v with win := { v.win with posX := x, posY := y } }
  setSize v width height := { v with win := { v.win with width := width, height := height } }
  markPseudo v flag := { v with win := { v.win with gp := { v.win.gp with pseudo := flag } } }
  null b v := (v.win.gp.buf b).isNone
  forget b v := .ok { v with win := { v.win with gp := v.win.gp.setBuf none b } }
  saveRect b x1 y1 x2 y2 v := do
    let saved ← v.dev.saveRect x1 y1 x2 y2
    .ok { v with win := { v.win with gp := v.win.gp.setBuf (some saved) b } }
  rstrRect b x1 y1 x2 y2 v := do
    let dev ← v.dev.rstrRect x1 y1 x2 y2 (v.win.gp.buf b)
    .ok { dev := dev, win := { v.win with gp := v.win.gp.setBuf none b } }
  xMax sp := sp.xMax
  yMax sp := sp.yMax
  draw sp x y v := do
    let dev ← sp.draw x y v.dev
    .ok { v with dev := dev }
  nullShift := .error .nullShift

namespace GraphPort

def push (b : Buffer) : View Px → Except Fault (View Px) := View.port.pushBuf b
def pop (b : Buffer) : View Px → Except Fault (View Px) := View.port.popBuf b

def pushBgBuf : View Px → Except Fault (View Px) := push .bg
def pushFgBuf : View Px → Except Fault (View Px) := push .fg
def popBgBuf : View Px → Except Fault (View Px) := pop .bg
def popFgBuf : View Px → Except Fault (View Px) := pop .fg

end GraphPort

def Window.show (v : View Px) : Except Fault (View Px) := View.port.show v

def Window.hide (v : View Px) : Except Fault (View Px) := View.port.hide v

def Window.xy (v : View Px) (newX newY : Int) : Except Fault (View Px) := View.port.xy newX newY v

def Shift.update (sh : Shift) (c : Cwm ι) (v : View Px) : Except Fault (View Px) :=
  View.port.shiftUpdate sh c v

section
variable [DecidableEq ι]

def Cwm.update (c : Cwm ι) (cw : ι) (v : View Px) : Except Fault (View Px) :=
  View.port.update c cw v

def Window.wh (c : Cwm ι) (w : ι) (v : View Px) (newWidth newHeight : Int) :
    Except Fault (View Px) :=
  View.port.wh c w newWidth newHeight v

def Window.measure (c : Cwm ι) (w : ι) (v : View Px) (maxX maxY : Int) :
    Except Fault (View Px) :=
  View.port.measure c w maxX maxY v

def GraphPort.setPseudo (c : Cwm ι) (w : ι) (v : View Px) (flag : Bool) :
    Except Fault (View Px) :=
  View.port.setPseudo c w flag v

def GraphPort.draw (c : Cwm ι) (w : ι) (v : View Px) (x y : Int) (sp : Shape Px) :
    Except Fault (View Px) :=
  View.port.drawShape c w x y sp v

def Widget.draw (c : Cwm ι) (w : ι) (content : Drawing Px) (v : View Px) :
    Except Fault (View Px) :=
  View.port.drawAll c w content v

def Widget.render (c : Cwm ι) (w : ι) (content : Drawing Px) (v : View Px) :
    Except Fault (View Px) :=
  View.port.render c w content v

end

end Ucimf.Display
