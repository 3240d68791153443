import Ucimf.Display.Device
import Ucimf.Display.Bookkeeping

/-!
# The library over any driver

`GraphDev` is an abstract class: a graph port keeps two buffer pointers, hands them to virtual
functions and never looks at a pixel. Here are the port and the manager over such functions. On
every driver that does what the device does, the methods do what they do on the pixels
(`Backend.Follows.manager`).
-/

namespace Ucimf.Display

open Outcome GraphPort

variable {ι D C P Px : Type}

/-- A driver as the library sees it: its virtual functions, and which buffer pointers are null.
The terminal writes to the same screen. -/
structure Backend (D N C P : Type) where
  call : D → DevCall N C → Except Fault D
  null : D → N → Bool
  written : D → P → D

/-- One window and the driver it draws on. -/
structure Site (D : Type) where
  drv : D
  win : Pane

/-- A shape by the calls it makes: one `FillRect`, or a `PutPixel` for each dot of an outline or a
text. -/
inductive Figure (C : Type)
  | fill (width height : Nat) (color : C)
  | dots (sp : Shape C)

def Shape.tinted (colour : C → Px) (sp : Shape C) : Shape Px where
  xMax := sp.xMax
  yMax := sp.yMax
  ink := sp.ink.map fun dot => (dot.1, dot.2.1, colour dot.2.2)

/-- The shape of a figure in the pixels of a device. -/
def Figure.shape (colour : C → Px) : Figure C → Shape Px
  | .fill width height color => Rect.shape ⟨width, height, colour color, true⟩
  | .dots sp => sp.tinted colour

def Figure.xMax : Figure C → Int
  | .fill width _ _ => width
  | .dots sp => sp.xMax

def Figure.yMax : Figure C → Int
  | .fill _ height _ => height
  | .dots sp => sp.yMax

/-- The drawing in the pixels of a device. -/
def Figure.drawing (colour : C → Px) (content : List (Int × Int × Figure C)) : Drawing Px :=
  content.map fun item => (item.1, item.2.1, item.2.2.shape colour)

/-- The driver, every window and the one `Cwm`. -/
structure Host (D ι : Type) where
  drv : D
  win : ι → Pane
  cwm : Cwm ι
  prevFocus : Bool

namespace Backend

section
variable (k : Backend D (ι × Buffer) C P)

/-- A call of the driver. -/
def issue (call : DevCall (ι × Buffer) C) (s : Site D) : Except Fault (Site D) := do
  let drv ← k.call s.drv call
  .ok { s with drv := drv }

/-- `Shape::draw`. -/
def paint (sp : Figure C) (x y : Int) (drv : D) : Except Fault D :=
  match sp with
  | .fill width height color => k.call drv (.fillRect x y (x + width) (y + height) color)
  | .dots sp => sp.ink.foldlM
    (fun drv dot => k.call drv (.putPixel (x + dot.1) (y + dot.2.1) dot.2.2)) drv

/-- The graph port of a window. -/
def port (w : ι) : Port (Except Fault) (Site D) (Figure C) where
  pane s := s.win
  setVisible s visible := { s with win := { s.win with visible := visible } }
  setPos s x y := { s with win := { s.win with posX := x, posY := y } }
  setSize s width height := { s with win := { s.win with width := width, height := height } }
  markPseudo s flag := { s with win := { s.win with pseudo := flag } }
  null b s := k.null s.drv (w, b)
  forget b := k.issue (.forget (w, b))
  saveRect b x1 y1 x2 y2 := k.issue (.saveRect (w, b) x1 y1 x2 y2)
  rstrRect b x1 y1 x2 y2 := k.issue (.rstrRect (w, b) x1 y1 x2 y2)
  xMax := Figure.xMax
  yMax := Figure.yMax
  draw sp x y s := do
    let drv ← k.paint sp x y s.drv
    .ok { s with drv := drv }
  nullShift := .error .nullShift

variable [LinearOrder ι]

def manager : Manager (Except Fault) (Except Fault) (Host D ι) (Site D) ι (Figure C) P where
  port := k.port
  on h w f := do
    let s ← f ⟨h.drv, h.win w⟩
    .ok { h with drv := s.drv, win := Function.update h.win w s.win }
  cwm := Host.cwm
  setCwm h c := { h with cwm := c }
  prevFocus := Host.prevFocus
  setPrevFocus h flag := { h with prevFocus := flag }
  setWm h w := { h with win := Function.update h.win w { h.win w with wm := true } }
  painted h p := { h with drv := k.written h.drv p }

end

/-- The driver does what the device does, where that does not read behind a buffer. -/
structure Follows {N : Type} [DecidableEq N] (k : Backend D N C P) (colour : C → Px)
    (invert : Px → Px) (picture : P → Point → Px) (R : D → Device N Px → Prop) : Prop where
  call : ∀ {x a}, R x a → ∀ call,
    Tracks (· = .overrun) R (k.call x call) (a.exec colour invert call)
  null : ∀ {x a}, R x a → ∀ n, k.null x n = true ↔ a.buffer n = none
  written : ∀ {x a}, R x a → ∀ p,
    R (k.written x p) { a with dev := { a.dev with pixel := picture p } }

end Backend

/-! ### One window -/

/-- The device under a window, and the buffers of the other windows. -/
def View.device [DecidableEq ι] (v : View Px) (w : ι) (rest : ι → Buffer → Option (List Px)) :
    Device (ι × Buffer) Px where
  dev := v.dev
  buffer := fun n => Function.update rest w v.win.gp.buf n.1 n.2

def Desk.device (s : Desk ι Px) : Device (ι × Buffer) Px where
  dev := s.dev
  buffer := fun n => (s.win n.1).gp.buf n.2

/-- A window on the driver is the window on the device. -/
structure Site.Hosts [DecidableEq ι] (R : D → Device (ι × Buffer) Px → Prop) (w : ι)
    (rest : ι → Buffer → Option (List Px)) (s : Site D) (v : View Px) : Prop where
  win : s.win = v.win.pane
  drv : R s.drv (v.device w rest)

/-- The library on the driver is in the state of the library on the device. -/
structure Host.Shows (R : D → Device (ι × Buffer) Px → Prop) (h : Host D ι) (s : Desk ι Px) :
    Prop where
  win : ∀ u, h.win u = (s.win u).pane
  cwm : h.cwm = s.cwm
  prevFocus : h.prevFocus = s.prevFocus
  drv : R h.drv s.device

theorem View.update_device [DecidableEq ι] (v : View Px) (w : ι)
    (rest : ι → Buffer → Option (List Px)) (b : Buffer) (value : Option (List Px)) :
    Function.update (v.device w rest).buffer (w, b) value =
      fun n => Function.update rest w (v.win.gp.setBuf value b).buf n.1 n.2 := by
  funext ⟨u, c⟩
  by_cases other : u = w
  · subst other
    rw [buf_setBuf]
    by_cases same : c = b
    · subst same
      simp
    · simp [View.device, same]
  · simp [View.device, other]

section Follows
variable [DecidableEq ι] {k : Backend D (ι × Buffer) C P} {colour : C → Px} {invert : Px → Px}
  {picture : P → Point → Px} {R : D → Device (ι × Buffer) Px → Prop} {w : ι}
  {rest : ι → Buffer → Option (List Px)} {s : Site D} {v : View Px}

theorem View.device_buffer (v : View Px) (w : ι) (rest : ι → Buffer → Option (List Px))
    (b : Buffer) : (v.device w rest).buffer (w, b) = v.win.gp.buf b := by
  simp [View.device]

/-- A change of the window that leaves its buffers alone. -/
theorem Site.Hosts.changed (h : s.Hosts R w rest v) {win : Pane} {W : Window Px}
    (same : win = W.pane) (port : W.gp.buf = v.win.gp.buf) :
    Site.Hosts R w rest { s with win := win } { v with win := W } where
  win := same
  drv := by
    rw [View.device, port]
    exact h.drv

theorem Window.pane_setBuf (W : Window Px) (b : Buffer) (value : Option (List Px)) :
    Window.pane { W with gp := W.gp.setBuf value b } = W.pane := by
  cases b <;> rfl

variable (follows : k.Follows colour invert picture R)
include follows

/-- A figure drawn on the driver is its shape drawn on the device. -/
theorem Backend.Follows.paint {drv : D} {a : Device (ι × Buffer) Px} (h : R drv a) (sp : Figure C)
    (x y : Int) : Tracks (· = .overrun) (fun drv dev => R drv { a with dev := dev })
      (k.paint sp x y drv) ((sp.shape colour).draw x y a.dev) := by
  cases sp with
  | fill width height color =>
    have filled := follows.call h (.fillRect x y (x + width) (y + height) color)
    have drawn := Rect.draw_filled ⟨width, height, colour color, true⟩ rfl (Int.natCast_nonneg _)
      (Int.natCast_nonneg _) x y a.dev
    rw [Figure.shape, drawn]
    exact filled.of_map
  | dots sp =>
    rw [Backend.paint, Figure.shape, Shape.draw, Shape.tinted, List.foldlM_map]
    refine Tracks.lifting.foldlM (R := fun drv dev => R drv { a with dev := dev }) ?_ h sp.ink
    intro drv dev dot related
    exact (follows.call related (.putPixel (x + dot.1) (y + dot.2.1) dot.2.2)).of_map

theorem Backend.Follows.forget (h : s.Hosts R w rest v) (b : Buffer) :
    Tracks (· = .overrun) (Site.Hosts R w rest) ((k.port w).forget b s)
      (View.port.forget b v) := by
  obtain ⟨drv, forgot, cleared⟩ := follows.call h.drv (.forget (w, b))
  rw [View.update_device] at cleared
  refine ⟨{ s with drv := drv }, ?_, h.win.trans (v.win.pane_setBuf b none).symm, cleared⟩
  dsimp only [Backend.port, Backend.issue]
  rw [forgot]
  rfl

theorem Backend.Follows.saveRect (h : s.Hosts R w rest v) (b : Buffer) (x1 y1 x2 y2 : Int) :
    Tracks (· = .overrun) (Site.Hosts R w rest) ((k.port w).saveRect b x1 y1 x2 y2 s)
      (View.port.saveRect b x1 y1 x2 y2 v) := by
  have saved := follows.call h.drv (.saveRect (w, b) x1 y1 x2 y2)
  refine saved.of_map.bind fun drv filled related => .ok ⟨?_, ?_⟩
  · exact h.win.trans (v.win.pane_setBuf b _).symm
  · rwa [View.update_device] at related

theorem Backend.Follows.rstrRect (h : s.Hosts R w rest v) (b : Buffer) (x1 y1 x2 y2 : Int) :
    Tracks (· = .overrun) (Site.Hosts R w rest) ((k.port w).rstrRect b x1 y1 x2 y2 s)
      (View.port.rstrRect b x1 y1 x2 y2 v) := by
  have restored := follows.call h.drv (.rstrRect (w, b) x1 y1 x2 y2)
  rw [Device.exec, View.device_buffer] at restored
  refine restored.of_map.bind fun drv dev related => .ok ⟨?_, ?_⟩
  · exact h.win.trans (v.win.pane_setBuf b none).symm
  · rwa [View.update_device] at related

/-- The port of a window on the driver and the one on the device. -/
theorem Backend.Follows.port (w : ι) (rest : ι → Buffer → Option (List Px)) :
    (k.port w).Relates View.port (Figure.shape colour) (Site.Hosts R w rest)
      (Tracks (· = .overrun) (Site.Hosts R w rest)) where
  toLifting := Tracks.lifting
  pane h := h.win
  setVisible h _ := h.changed (by rw [h.win]; rfl) rfl
  setPos h _ _ := h.changed (by rw [h.win]; rfl) rfl
  setSize h _ _ := h.changed (by rw [h.win]; rfl) rfl
  markPseudo h _ := h.changed (by rw [h.win]; rfl) rfl
  null h b := by
    have null := follows.null h.drv (w, b)
    rw [View.device_buffer, ← Option.isNone_iff_eq_none] at null
    exact Bool.eq_iff_iff.mpr null
  forget h b := follows.forget h b
  saveRect h b x1 y1 x2 y2 := follows.saveRect h b x1 y1 x2 y2
  rstrRect h b x1 y1 x2 y2 := follows.rstrRect h b x1 y1 x2 y2
  xMax sp := by cases sp <;> rfl
  yMax sp := by cases sp <;> rfl
  draw h sp x y := (follows.paint h.drv sp x y).bind fun _ _ related => .ok ⟨h.win, related⟩
  nullShift := .error _

end Follows

/-! ### All windows -/

section Manager
variable [LinearOrder ι] {k : Backend D (ι × Buffer) C P} {colour : C → Px} {invert : Px → Px}
  {picture : P → Point → Px} {R : D → Device (ι × Buffer) Px → Prop} {h : Host D ι} {s : Desk ι Px}

/-- The buffers of the windows. -/
def Desk.buffers (s : Desk ι Px) (u : ι) : Buffer → Option (List Px) := (s.win u).gp.buf

theorem Host.Shows.site (shows : h.Shows R s) (w : ι) :
    Site.Hosts R w s.buffers ⟨h.drv, h.win w⟩ (s.view w) where
  win := shows.win w
  drv := by
    have own : Function.update s.buffers w (s.view w).win.gp.buf = s.buffers :=
      Function.update_eq_self w s.buffers
    rw [View.device, own]
    exact shows.drv

theorem Host.Shows.on (shows : h.Shows R s) {w : ι} {f : Site D → Except Fault (Site D)}
    {g : View Px → Except Fault (View Px)}
    (method : Tracks (· = .overrun) (Site.Hosts R w s.buffers) (f ⟨h.drv, h.win w⟩)
      (g (s.view w))) :
    Tracks (· = .overrun) (Host.Shows R) (k.manager.on h w f) (s.on w g) := by
  apply method.bind
  intro site v hosts
  refine .ok ⟨?_, shows.cwm, shows.prevFocus, ?_⟩
  · apply Desk.put_win_cases (P := fun u W => Function.update h.win w site.win u = W.pane)
    · rw [Function.update_self]
      exact hosts.win
    · intro u other
      rw [Function.update_of_ne other]
      exact shows.win u
  · have ports : (s.put w v).device = v.device w s.buffers := by
      apply congrArg (Device.mk v.dev)
      funext ⟨u, b⟩
      by_cases same : u = w
      · subst same
        simp
      · simp [same, Desk.buffers]
    rw [ports]
    exact hosts.drv

theorem Host.Shows.setWm (shows : h.Shows R s) (w : ι) :
    Host.Shows R (k.manager.setWm h w) (Desk.manager.setWm s w) := by
  have ports : (Desk.manager.setWm s w).device = s.device := by
    apply congrArg (Device.mk s.dev)
    funext ⟨u, b⟩
    by_cases same : u = w
    · subst same
      simp [Desk.manager]
    · simp [Desk.manager, same]
  refine ⟨fun u => ?_, shows.cwm, shows.prevFocus, ports ▸ shows.drv⟩
  by_cases same : u = w
  · subst same
    simp [Backend.manager, Desk.manager, shows.win u, Window.pane]
  · simp [Backend.manager, Desk.manager, same, shows.win u]

variable (follows : k.Follows colour invert picture R)
include follows

/-- The library on the driver and the library on the device. -/
theorem Backend.Follows.manager : k.manager.Relates Desk.manager (Figure.shape colour) picture
    (Host.Shows R) (Tracks (· = .overrun) (Host.Shows R)) where
  toLifting := Tracks.lifting
  on := by
    intro h s shows w f f' uniform
    exact shows.on (uniform (follows.port w s.buffers) _ _ (shows.site w))
  cwm shows := shows.cwm
  setCwm shows _ := ⟨shows.win, rfl, shows.prevFocus, shows.drv⟩
  prevFocus shows := shows.prevFocus
  setPrevFocus shows _ := ⟨shows.win, shows.cwm, rfl, shows.drv⟩
  setWm shows w := shows.setWm w
  painted shows p := ⟨shows.win, shows.cwm, shows.prevFocus, follows.written shows.drv p⟩

end Manager

end Ucimf.Display
