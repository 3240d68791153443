import Ucimf.Display.GraphDev
import Ucimf.Support.Lifting
import Mathlib.Order.Defs.LinearOrder

/-!
# The methods of the windows and the manager

A method of `Window`, `Widget`, `Shift` or `Cwm` reads and writes the fields of a window and makes
calls of the driver; it never looks at a pixel or into a buffer. Here are the methods over any
graph port, as programs of any monad. What relates two ports relates the methods on them
(`Port.Relates`), and so for two managers (`Manager.Relates`).
-/

namespace Ucimf.Display

inductive Shift
  | statusShift (xGap yGap : Int)
  | preeditShift (xGap yGap : Int)
  | lookupChoiceShift (xGap yGap : Int)
  deriving DecidableEq, Repr

structure Cwm (ι : Type) where
  xres : Int
  yres : Int
  cursorX : Int
  cursorY : Int
  focus : Bool
  /-- `cwmmap` in the order of its keys. -/
  cwmmap : List (ι × Shift)

namespace Cwm

variable {ι : Type}

/-- The common body of the three `Shift::update` functions: the cursor plus the gap,
pushed back from the right edge and flipped above the cursor at the bottom one. -/
def beside (c : Cwm ι) (xGap yGap width height : Int) : Int × Int :=
  let xres := c.xres - 16
  let yres := c.yres - 16
  let x := c.cursorX
  let y := c.cursorY
  let overX := x + width - xres
  let overY := y + height - yres
  let shiftX := if overX + xGap > 0 then -1 * overX else xGap
  let shiftY := if overY + yGap > 0 then yGap * -1 - height else yGap
  (x + shiftX, y + shiftY)

/-- `cwmmap[w] = sh` on a map kept in the order of its keys. -/
def assign [LinearOrder ι] (w : ι) (sh : Shift) : List (ι × Shift) → List (ι × Shift)
  | [] => [(w, sh)]
  | entry :: rest =>
    if w < entry.1 then (w, sh) :: entry :: rest
    else if w = entry.1 then (w, sh) :: rest
    else entry :: assign w sh rest

end Cwm

/-- Where each shift puts a window of the given size. -/
def Shift.target {ι : Type} (c : Cwm ι) (width height : Int) : Shift → Int × Int
  | .statusShift xGap yGap => c.beside xGap yGap width height
  | .preeditShift xGap yGap => c.beside xGap yGap width height
  | .lookupChoiceShift xGap yGap => c.beside xGap yGap width height

/-- The two save buffers, `buf_bg` and `buf_fg`. -/
inductive GraphPort.Buffer
  | bg
  | fg
  deriving DecidableEq, Repr

open GraphPort

/-- The fields of a window and of its graph port, without what the buffers hold. -/
structure Pane where
  visible : Bool
  posX : Int
  posY : Int
  width : Int
  height : Int
  pseudo : Bool
  /-- `gdev` is not null. -/
  gdev : Bool
  /-- `wm` is not null. -/
  wm : Bool

/-- A graph port as the methods of its window see it. The states are those of the window and the
driver together; `S` is what a widget draws. -/
structure Port (M : Type → Type) (σ S : Type) where
  pane : σ → Pane
  setVisible : σ → Bool → σ
  setPos : σ → Int → Int → σ
  setSize : σ → Int → Int → σ
  markPseudo : σ → Bool → σ
  /-- The pointer of the buffer is null. -/
  null : Buffer → σ → Bool
  /-- The assignment of `0` to the pointer, which leaves its block behind. -/
  forget : Buffer → σ → M σ
  saveRect : Buffer → Int → Int → Int → Int → σ → M σ
  rstrRect : Buffer → Int → Int → Int → Int → σ → M σ
  xMax : S → Int
  yMax : S → Int
  /-- `Shape::draw` after `setXY( x, y )`. -/
  draw : S → Int → Int → σ → M σ
  /-- The program ends at a null `Shift*`. -/
  nullShift : M σ

namespace Port

variable {M : Type → Type} {σ S ι : Type} [Monad M] (k : Port M σ S)

/-- `push_bg_buf` and `push_fg_buf`: forget the old buffer, then save the rectangle. -/
def pushBuf (b : Buffer) (s : σ) : M σ := do
  let s ← k.forget b s
  let p := k.pane s
  if p.gdev then k.saveRect b p.posX p.posY (p.posX + p.width) (p.posY + p.height) s
  else pure s

/-- `pop_bg_buf` and `pop_fg_buf`: restore the rectangle and null the pointer. -/
def popBuf (b : Buffer) (s : σ) : M σ :=
  let p := k.pane s
  if k.null b s then pure s
  else if p.gdev then k.rstrRect b p.posX p.posY (p.posX + p.width) (p.posY + p.height) s
  else pure s

def «show» (s : σ) : M σ :=
  if (k.pane s).visible = false then do
    let s ← k.pushBuf .bg (k.setVisible s true)
    k.popBuf .fg s
  else pure s

def hide (s : σ) : M σ :=
  if (k.pane s).visible = true then do
    let s ← k.pushBuf .fg (k.setVisible s false)
    k.popBuf .bg s
  else pure s

def xy (newX newY : Int) (s : σ) : M σ := do
  let prevVisible := (k.pane s).visible
  let s ← k.hide s
  let s := k.setPos s newX newY
  if prevVisible = true then k.show s else pure s

def shiftUpdate (sh : Shift) (c : Cwm ι) (s : σ) : M σ :=
  let goal := sh.target c (k.pane s).width (k.pane s).height
  k.xy goal.1 goal.2 s

section
variable [DecidableEq ι] (c : Cwm ι) (w : ι)

/-- `cwmmap[cw]` of a window that is not in the map is a null `Shift*`. The constructors
of the shifts all set their own `cwm`, so the test `s->cwm != 0` succeeds. -/
def update (s : σ) : M σ :=
  match c.cwmmap.lookup w with
  | some sh => k.shiftUpdate sh c s
  | none => k.nullShift

def wh (newWidth newHeight : Int) (s : σ) : M σ := do
  let prevVisible := (k.pane s).visible
  let s ← k.hide s
  let s := k.setSize s newWidth newHeight
  let s ← (if (k.pane s).wm then k.update c w s else pure s)
  if prevVisible = true then k.show s else pure s

def measure (maxX maxY : Int) (s : σ) : M σ :=
  let p := k.pane s
  let maxWidth := if maxX > p.width then maxX else p.width
  let maxHeight := if maxY > p.height then maxY else p.height
  let isLarger := decide (maxX > p.width) || decide (maxY > p.height)
  if isLarger then k.wh c w maxWidth maxHeight s else pure s

def setPseudo (flag : Bool) (s : σ) : M σ := do
  let s ← (if flag ≠ (k.pane s).pseudo ∧ flag = true then k.wh c w 0 0 s else pure s)
  pure (k.markPseudo s flag)

/-- `GraphPort::draw`. -/
def drawShape (x y : Int) (sp : S) (s : σ) : M σ :=
  let p := k.pane s
  if p.pseudo = true then k.measure c w (x + k.xMax sp) (y + k.yMax sp) s
  else if p.gdev then k.draw sp (p.posX + x) (p.posY + y) s
  else pure s

/-- `Widget::draw`: the calls `gp->draw( x, y, sp )` it makes. -/
def drawAll (content : List (Int × Int × S)) (s : σ) : M σ :=
  content.foldlM (fun s item => k.drawShape c w item.1 item.2.1 item.2.2 s) s

def render (content : List (Int × Int × S)) (s : σ) : M σ := do
  let prevVisible := (k.pane s).visible
  -- the size first
  let s ← k.hide s
  let s ← k.setPseudo c w true s
  let s ← k.drawAll c w content s
  -- then the picture
  let s ← k.pushBuf .bg s
  let s ← k.setPseudo c w false s
  let s ← k.drawAll c w content s
  let s ← k.pushBuf .fg s
  let s ← k.popBuf .bg s
  if prevVisible = true then k.show s else pure s

end

end Port

/-- The calls a client of the library can make, and a write of the terminal. `D` is what a widget
draws, `P` what the terminal writes. -/
inductive Request (ι D P : Type)
  | attachWindow (w : ι) (sh : Shift)
  | showWindow (w : ι)
  | hideWindow (w : ι)
  | xy (w : ι) (x y : Int)
  | render (w : ι) (content : D)
  | cursorPosition (x y : Int)
  | setFocus (newFocus : Bool)
  | refreshBegin
  | refreshEnd
  | paint (picture : P)

/-- After `ucimf_init` a client renders, moves the cursor, switches the focus and brackets its own
output. -/
def Listed {ι D P : Type} : Request ι D P → Prop
  | .attachWindow _ _ | .showWindow _ | .hideWindow _ | .xy _ _ _ => False
  | .render _ _ | .cursorPosition _ _ | .setFocus _ | .refreshBegin | .refreshEnd | .paint _ => True

/-- All windows, the driver under them and the one `Cwm`. A method of a window is run by `on`. -/
structure Manager (M N : Type → Type) (τ σ ι S P : Type) where
  port : ι → Port M σ S
  on : τ → ι → (σ → M σ) → N τ
  cwm : τ → Cwm ι
  setCwm : τ → Cwm ι → τ
  prevFocus : τ → Bool
  setPrevFocus : τ → Bool → τ
  /-- The pointer `wm` of a window is set. -/
  setWm : τ → ι → τ
  /-- The terminal writes. -/
  painted : τ → P → τ

namespace Manager

variable {M N : Type → Type} {τ σ ι S P : Type} [Monad M] [Monad N]
  (m : Manager M N τ σ ι S P)

/-- The loop of `set_position` over a part of the map. -/
def updateAll (s : τ) (entries : List (ι × Shift)) : N τ :=
  entries.foldlM (fun s entry =>
    m.on s entry.1 ((m.port entry.1).shiftUpdate entry.2 (m.cwm s))) s

def setPosition (s : τ) (newX newY : Int) : N τ :=
  let c := m.cwm s
  if newX ≠ c.cursorX ∨ newY ≠ c.cursorY then
    m.updateAll (m.setCwm s { c with cursorX := newX, cursorY := newY }) c.cwmmap
  else pure s

/-- The loop of `set_focus` over a part of the map. -/
def showAll (s : τ) (entries : List (ι × Shift)) : N τ :=
  entries.foldlM (fun s entry => m.on s entry.1 (m.port entry.1).show) s

def hideAll (s : τ) (entries : List (ι × Shift)) : N τ :=
  entries.foldlM (fun s entry => m.on s entry.1 (m.port entry.1).hide) s

def setFocus (s : τ) (newFocus : Bool) : N τ :=
  let c := m.cwm s
  if newFocus ≠ c.focus ∧ c.cwmmap ≠ [] then
    if newFocus = true then m.showAll (m.setCwm s { c with focus := newFocus }) c.cwmmap
    else m.hideAll (m.setCwm s { c with focus := newFocus }) c.cwmmap
  else pure s

def ucimfRefreshBegin (s : τ) : N τ :=
  m.setFocus (m.setPrevFocus s (m.cwm s).focus) false

def ucimfRefreshEnd (s : τ) : N τ := m.setFocus s (m.prevFocus s)

variable [LinearOrder ι]

def attachWindow (s : τ) (w : ι) (sh : Shift) : τ :=
  let c := m.cwm s
  m.setWm (m.setCwm s { c with cwmmap := Cwm.assign w sh c.cwmmap }) w

def exec (s : τ) : Request ι (List (Int × Int × S)) P → N τ
  | .attachWindow w sh => pure (m.attachWindow s w sh)
  | .showWindow w => m.on s w (m.port w).show
  | .hideWindow w => m.on s w (m.port w).hide
  | .xy w x y => m.on s w ((m.port w).xy x y)
  | .render w content => m.on s w ((m.port w).render (m.cwm s) w content)
  | .cursorPosition x y => m.setPosition s x y
  | .setFocus newFocus => m.setFocus s newFocus
  | .refreshBegin => m.ucimfRefreshBegin s
  | .refreshEnd => m.ucimfRefreshEnd s
  | .paint picture => pure (m.painted s picture)

end Manager

/-! ### Ports that agree -/

section Relates
variable {M M' : Type → Type} {σ σ' S S' ι : Type} [Monad M] [Monad M']

/-- Related states show one pane, and every operation of a port leads from related states to
related results. -/
structure Port.Relates (k : Port M σ S) (k' : Port M' σ' S') (shape : S → S')
    (R : σ → σ' → Prop) (T : M σ → M' σ' → Prop) : Prop extends Lifting R T where
  pane : ∀ {s s'}, R s s' → k.pane s = k'.pane s'
  setVisible : ∀ {s s'}, R s s' → ∀ v, R (k.setVisible s v) (k'.setVisible s' v)
  setPos : ∀ {s s'}, R s s' → ∀ x y, R (k.setPos s x y) (k'.setPos s' x y)
  setSize : ∀ {s s'}, R s s' → ∀ w h, R (k.setSize s w h) (k'.setSize s' w h)
  markPseudo : ∀ {s s'}, R s s' → ∀ flag, R (k.markPseudo s flag) (k'.markPseudo s' flag)
  null : ∀ {s s'}, R s s' → ∀ b, k.null b s = k'.null b s'
  forget : ∀ {s s'}, R s s' → ∀ b, T (k.forget b s) (k'.forget b s')
  saveRect : ∀ {s s'}, R s s' → ∀ b x1 y1 x2 y2,
    T (k.saveRect b x1 y1 x2 y2 s) (k'.saveRect b x1 y1 x2 y2 s')
  rstrRect : ∀ {s s'}, R s s' → ∀ b x1 y1 x2 y2,
    T (k.rstrRect b x1 y1 x2 y2 s) (k'.rstrRect b x1 y1 x2 y2 s')
  xMax : ∀ sp, k.xMax sp = k'.xMax (shape sp)
  yMax : ∀ sp, k.yMax sp = k'.yMax (shape sp)
  draw : ∀ {s s'}, R s s' → ∀ sp x y, T (k.draw sp x y s) (k'.draw (shape sp) x y s')
  nullShift : T k.nullShift k'.nullShift

variable {k : Port M σ S} {k' : Port M' σ' S'} {shape : S → S'} {R : σ → σ' → Prop}
  {T : M σ → M' σ' → Prop} {s : σ} {s' : σ'}

namespace Port.Relates

variable (h : k.Relates k' shape R T)
include h

theorem pushBuf (r : R s s') (b : Buffer) : T (k.pushBuf b s) (k'.pushBuf b s') := by
  apply h.bind (h.forget r b)
  intro t t' r
  rw [h.pane r]
  dsimp only
  split
  · exact h.saveRect r b _ _ _ _
  · exact h.pure r

theorem popBuf (r : R s s') (b : Buffer) : T (k.popBuf b s) (k'.popBuf b s') := by
  unfold Port.popBuf
  rw [h.pane r, h.null r]
  dsimp only
  split
  · exact h.pure r
  · split
    · exact h.rstrRect r b _ _ _ _
    · exact h.pure r

theorem «show» (r : R s s') : T (k.show s) (k'.show s') := by
  unfold Port.show
  rw [h.pane r]
  split
  · exact h.bind (h.pushBuf (h.setVisible r true) .bg) fun _ _ r => h.popBuf r .fg
  · exact h.pure r

theorem hide (r : R s s') : T (k.hide s) (k'.hide s') := by
  unfold Port.hide
  rw [h.pane r]
  split
  · exact h.bind (h.pushBuf (h.setVisible r false) .fg) fun _ _ r => h.popBuf r .bg
  · exact h.pure r

/-- A window that was shown before is shown again. -/
theorem shown_again (r : R s s') (prevVisible : Bool) :
    T (if prevVisible = true then k.show s else Pure.pure s)
      (if prevVisible = true then k'.show s' else Pure.pure s') := by
  split
  · exact h.show r
  · exact h.pure r

theorem xy (r : R s s') (x y : Int) : T (k.xy x y s) (k'.xy x y s') := by
  unfold Port.xy
  rw [h.pane r]
  exact h.bind (h.hide r) fun _ _ r => h.shown_again (h.setPos r x y) _

theorem shiftUpdate (r : R s s') (sh : Shift) (c : Cwm ι) :
    T (k.shiftUpdate sh c s) (k'.shiftUpdate sh c s') := by
  unfold Port.shiftUpdate
  rw [h.pane r]
  exact h.xy r _ _

variable [DecidableEq ι] (c : Cwm ι) (w : ι)

theorem update (r : R s s') : T (k.update c w s) (k'.update c w s') := by
  unfold Port.update
  cases c.cwmmap.lookup w with
  | some sh => exact h.shiftUpdate r sh c
  | none => exact h.nullShift

theorem wh (r : R s s') (width height : Int) :
    T (k.wh c w width height s) (k'.wh c w width height s') := by
  unfold Port.wh
  rw [h.pane r]
  apply h.bind (h.hide r)
  intro t t' r
  have sized := h.setSize r width height
  dsimp only
  rw [h.pane sized]
  refine h.bind ?_ fun _ _ r => h.shown_again r _
  split
  · exact h.update c w sized
  · exact h.pure sized

theorem measure (r : R s s') (maxX maxY : Int) :
    T (k.measure c w maxX maxY s) (k'.measure c w maxX maxY s') := by
  unfold Port.measure
  rw [h.pane r]
  dsimp only
  split
  · exact h.wh c w r _ _
  · exact h.pure r

theorem setPseudo (r : R s s') (flag : Bool) :
    T (k.setPseudo c w flag s) (k'.setPseudo c w flag s') := by
  unfold Port.setPseudo
  rw [h.pane r]
  refine h.bind ?_ fun _ _ r => h.pure (h.markPseudo r flag)
  split
  · exact h.wh c w r 0 0
  · exact h.pure r

theorem drawShape (r : R s s') (x y : Int) (sp : S) :
    T (k.drawShape c w x y sp s) (k'.drawShape c w x y (shape sp) s') := by
  unfold Port.drawShape
  rw [h.pane r, h.xMax, h.yMax]
  dsimp only
  split
  · exact h.measure c w r _ _
  · split
    · exact h.draw r sp _ _
    · exact h.pure r

theorem drawAll (r : R s s') (content : List (Int × Int × S)) :
    T (k.drawAll c w content s)
      (k'.drawAll c w (content.map fun item => (item.1, item.2.1, shape item.2.2)) s') := by
  unfold Port.drawAll
  rw [List.foldlM_map]
  exact h.foldlM (fun _ _ item r => h.drawShape c w r item.1 item.2.1 item.2.2) r content

theorem render (r : R s s') (content : List (Int × Int × S)) :
    T (k.render c w content s)
      (k'.render c w (content.map fun item => (item.1, item.2.1, shape item.2.2)) s') := by
  unfold Port.render
  rw [h.pane r]
  refine h.bind (h.hide r) fun _ _ hidden => ?_
  refine h.bind (h.setPseudo c w hidden true) fun _ _ unmeasured => ?_
  refine h.bind (h.drawAll c w unmeasured content) fun _ _ measured => ?_
  refine h.bind (h.pushBuf measured .bg) fun _ _ saved => ?_
  refine h.bind (h.setPseudo c w saved false) fun _ _ ready => ?_
  refine h.bind (h.drawAll c w ready content) fun _ _ painted => ?_
  refine h.bind (h.pushBuf painted .fg) fun _ _ pictured => ?_
  exact h.bind (h.popBuf pictured .bg) fun _ _ cleaned => h.shown_again cleaned _

end Port.Relates

/-- A method keeps every relation that the ports keep. -/
def Port.Uniform (k : Port M σ S) (k' : Port M' σ' S') (shape : S → S') (f : σ → M σ)
    (f' : σ' → M' σ') : Prop :=
  ∀ {R : σ → σ' → Prop} {T : M σ → M' σ' → Prop}, k.Relates k' shape R T →
    ∀ s s', R s s' → T (f s) (f' s')

end Relates

/-! ### Managers that agree -/

section Managers
variable {M M' N N' : Type → Type} {τ τ' σ σ' S S' P P' ι : Type} [Monad M] [Monad M'] [Monad N]
  [Monad N']

/-- A request in the drawings and pictures of another manager. -/
def Request.map {D D' : Type} (drawing : D → D') (picture : P → P') :
    Request ι D P → Request ι D' P'
  | .attachWindow w sh => .attachWindow w sh
  | .showWindow w => .showWindow w
  | .hideWindow w => .hideWindow w
  | .xy w x y => .xy w x y
  | .render w content => .render w (drawing content)
  | .cursorPosition x y => .cursorPosition x y
  | .setFocus newFocus => .setFocus newFocus
  | .refreshBegin => .refreshBegin
  | .refreshEnd => .refreshEnd
  | .paint p => .paint (picture p)

theorem Listed.map {D D' : Type} {request : Request ι D P} (listed : Listed request)
    (drawing : D → D') (picture : P → P') : Listed (request.map drawing picture) := by
  cases request with
  | attachWindow | showWindow | hideWindow | xy => exact absurd listed id
  | render | cursorPosition | setFocus | refreshBegin | refreshEnd | paint => trivial

theorem Request.map_id (request : Request ι (List (Int × Int × S)) P) :
    request.map (List.map fun item => (item.1, item.2.1, id item.2.2)) id = request := by
  cases request with
  | render w content => exact congrArg (Request.render w) (List.map_id content)
  | _ => rfl

/-- The same for two managers: what a method of a window does, uniformly in the ports, leads from
related states to related results. -/
structure Manager.Relates (m : Manager M N τ σ ι S P) (m' : Manager M' N' τ' σ' ι S' P')
    (shape : S → S') (picture : P → P') (R : τ → τ' → Prop) (T : N τ → N' τ' → Prop) : Prop
    extends Lifting R T where
  on : ∀ {s s'}, R s s' → ∀ {w f f'}, (m.port w).Uniform (m'.port w) shape f f' →
    T (m.on s w f) (m'.on s' w f')
  cwm : ∀ {s s'}, R s s' → m.cwm s = m'.cwm s'
  setCwm : ∀ {s s'}, R s s' → ∀ c, R (m.setCwm s c) (m'.setCwm s' c)
  prevFocus : ∀ {s s'}, R s s' → m.prevFocus s = m'.prevFocus s'
  setPrevFocus : ∀ {s s'}, R s s' → ∀ flag, R (m.setPrevFocus s flag) (m'.setPrevFocus s' flag)
  setWm : ∀ {s s'}, R s s' → ∀ w, R (m.setWm s w) (m'.setWm s' w)
  painted : ∀ {s s'}, R s s' → ∀ p, R (m.painted s p) (m'.painted s' (picture p))

namespace Manager.Relates

variable {m : Manager M N τ σ ι S P} {m' : Manager M' N' τ' σ' ι S' P'} {shape : S → S'}
  {picture : P → P'} {R : τ → τ' → Prop} {T : N τ → N' τ' → Prop} {s : τ} {s' : τ'}
  (h : m.Relates m' shape picture R T)
include h

theorem setPosition (r : R s s') (x y : Int) : T (m.setPosition s x y) (m'.setPosition s' x y) := by
  unfold Manager.setPosition
  rw [h.cwm r]
  dsimp only
  split
  · apply h.foldlM _ (h.setCwm r _)
    intro s s' entry r
    rw [h.cwm r]
    exact h.on r fun related _ _ r => related.shiftUpdate r entry.2 _
  · exact h.pure r

theorem setFocus (r : R s s') (newFocus : Bool) :
    T (m.setFocus s newFocus) (m'.setFocus s' newFocus) := by
  unfold Manager.setFocus
  rw [h.cwm r]
  dsimp only
  split
  · split
    · apply h.foldlM _ (h.setCwm r _)
      intro s s' entry r
      exact h.on r fun related _ _ r => related.show r
    · apply h.foldlM _ (h.setCwm r _)
      intro s s' entry r
      exact h.on r fun related _ _ r => related.hide r
  · exact h.pure r

/-- A request leads from related states to related results. -/
theorem exec [LinearOrder ι] (r : R s s') (request : Request ι (List (Int × Int × S)) P) :
    T (m.exec s request) (m'.exec s' (request.map
      (List.map fun item => (item.1, item.2.1, shape item.2.2)) picture)) := by
  cases request with
  | attachWindow w sh =>
    apply h.pure
    unfold Manager.attachWindow
    rw [h.cwm r]
    exact h.setWm (h.setCwm r _) w
  | showWindow w => exact h.on r fun related _ _ r => related.show r
  | hideWindow w => exact h.on r fun related _ _ r => related.hide r
  | xy w x y => exact h.on r fun related _ _ r => related.xy r x y
  | render w content =>
    unfold Request.map Manager.exec
    dsimp only
    rw [h.cwm r]
    exact h.on r fun related _ _ r => related.render _ w r content
  | cursorPosition x y => exact h.setPosition r x y
  | setFocus newFocus => exact h.setFocus r newFocus
  | refreshBegin =>
    apply h.setFocus
    rw [h.cwm r]
    exact h.setPrevFocus r _
  | refreshEnd =>
    unfold Request.map Manager.exec Manager.ucimfRefreshEnd
    dsimp only
    rw [h.prevFocus r]
    exact h.setFocus r _
  | paint p => exact h.pure (h.painted r p)

end Manager.Relates

end Managers

end Ucimf.Display
