import Ucimf.Display.Widgets
import Ucimf.Display.Session
import Mathlib.Data.List.Fold

/-!
# Layout

Whatever stops a method of a window, one that returns leaves a known frame: `show` and
`hide` keep it, `xy` moves it, and `render` computes it anew from the drawing, the shift
and the cursor, so that nothing of the earlier contents is left in it.
-/

namespace Ucimf.Display

open Outcome GraphPort Transition

variable {ι Px : Type}

/-- Nothing is promised about the faults. -/
def AnyFault (_ : Fault) : Prop := True

/-! ### The methods of a window -/

section Methods
variable {v : View Px}

theorem push_alike (b : Buffer) (v : View Px) :
    Ends AnyFault (push b v) fun v' => v'.Alike v ∧ v'.win.visible = v.win.visible := by
  rw [push_def]
  split
  · cases saved : v.dev.saveRect v.win.posX v.win.posY (v.win.posX + v.win.width)
        (v.win.posY + v.win.height) with
    | ok buf => cases b <;> exact ⟨⟨rfl, rfl, rfl, rfl, rfl⟩, rfl⟩
    | error e => trivial
  · cases b <;> exact ⟨⟨rfl, rfl, rfl, rfl, rfl⟩, rfl⟩

theorem rstrRect_size (d : GraphDev Px) (x1 y1 x2 y2 : Int) (buffer : Option (List Px)) :
    Ends AnyFault (d.rstrRect x1 y1 x2 y2 buffer) fun d' =>
      d'.xres = d.xres ∧ d'.yres = d.yres := by
  unfold GraphDev.rstrRect
  split
  · cases buffer with
    | none => trivial
    | some buf =>
      dsimp only
      split
      · exact ⟨rfl, rfl⟩
      · trivial
  · trivial

theorem pop_alike (b : Buffer) (v : View Px) :
    Ends AnyFault (pop b v) fun v' => v'.Alike v ∧ v'.win.visible = v.win.visible := by
  cases held : v.win.gp.buf b with
  | none =>
    rw [pop_none b held]
    exact ⟨.refl v, rfl⟩
  | some saved =>
    rw [pop_some held]
    split
    · apply (rstrRect_size _ _ _ _ _ _).bind
      rintro dev ⟨xres, yres⟩
      cases b <;> exact ⟨⟨rfl, rfl, rfl, xres, yres⟩, rfl⟩
    · exact ⟨.refl v, rfl⟩

/-- The common body of `show` and `hide`. -/
theorem swap_alike (b b' : Buffer) (flag : Bool) (v : View Px) :
    Ends AnyFault (push b { v with win := { v.win with visible := flag } } >>= pop b') fun v' =>
      v'.Alike v ∧ v'.win.visible = flag := by
  apply (push_alike b _).bind
  rintro pushed ⟨alike, visible⟩
  apply (pop_alike b' pushed).mono
  rintro popped ⟨alike', visible'⟩
  exact ⟨alike'.trans (alike.trans ⟨rfl, rfl, rfl, rfl, rfl⟩), visible'.trans visible⟩

theorem show_alike (v : View Px) :
    Ends AnyFault (Window.show v) fun v' => v'.Alike v ∧ v'.win.visible = true := by
  cases shown : v.win.visible with
  | false =>
    rw [show_of_hidden shown]
    exact swap_alike .bg .fg true v
  | true =>
    rw [show_of_visible shown]
    exact ⟨.refl v, shown⟩

theorem hide_alike (v : View Px) :
    Ends AnyFault (Window.hide v) fun v' => v'.Alike v ∧ v'.win.visible = false := by
  cases shown : v.win.visible with
  | true =>
    rw [hide_of_visible shown]
    exact swap_alike .fg .bg false v
  | false =>
    rw [hide_of_hidden shown]
    exact ⟨.refl v, shown⟩

theorem xy_alike (v : View Px) (x y : Int) :
    Ends AnyFault (Window.xy v x y) fun v' =>
      v'.Alike (v.moved x y) ∧ v'.win.visible = v.win.visible := by
  rw [xy_eq]
  apply (hide_alike v).bind
  rintro low ⟨alike, hid⟩
  cases shown : v.win.visible with
  | true =>
    rw [if_pos rfl]
    apply (show_alike (low.moved x y)).mono
    rintro v' ⟨alike', visible⟩
    exact ⟨alike'.trans (alike.moved x y), visible⟩
  | false =>
    rw [if_neg Bool.false_ne_true]
    exact ⟨alike.moved x y, hid⟩

section Render
variable [DecidableEq ι] (c : Cwm ι) (w : ι)

theorem draw_alike (content : Drawing Px) (v : View Px) (real : v.win.gp.pseudo = false) :
    Ends AnyFault (Widget.draw c w content v) fun v' =>
      v'.Alike v ∧ v'.win.visible = v.win.visible := by
  refine Ends.foldlM (fun _ (v' : View Px) => v'.Alike v ∧ v'.win.visible = v.win.visible) ?_
    ⟨.refl v, rfl⟩
  rintro item _ v' ⟨alike, visible⟩
  change Ends AnyFault (GraphPort.draw c w v' item.1 item.2.1 item.2.2) _
  rw [draw_of_real (alike.pseudo.trans real)]
  split
  · apply ((Shape.draw_ends _ _ _ _).weaken fun _ _ => trivial).bind
    rintro dev rfl
    exact ⟨⟨alike.frame, alike.wm, alike.pseudo, alike.xres, alike.yres⟩, visible⟩
  · exact ⟨alike, visible⟩

/-- What `render` does to the frame of a window. -/
structure View.Rendered (content : Drawing Px) (v v' : View Px) : Prop where
  frame : v'.win.frame = c.rendered w v.win content
  wm : v'.win.wm = v.win.wm
  pseudo : v'.win.gp.pseudo = false
  xres : v'.dev.xres = v.dev.xres
  yres : v'.dev.yres = v.dev.yres
  visible : v'.win.visible = v.win.visible

/-- A `render` that returns has measured the window and given it its place. -/
theorem render_frame (content : Drawing Px) {v : View Px}
    (unmeasured : v.win.gp.pseudo = true → v.win.width = 0 ∧ v.win.height = 0)
    (known : c.Knows w v.win) :
    Ends AnyFault (Widget.render c w content v) (v.Rendered c w content) := by
  rw [render_eq]
  apply (hide_alike v).bind
  rintro low ⟨alike, hid⟩
  obtain ⟨-, -, width, height⟩ := Frame.mk.inj alike.frame
  have measuring := measure_pass c w content (v := low)
    (fun pseudo => by rw [width, height]; exact unmeasured (alike.pseudo ▸ pseudo))
    hid fun managed => known (alike.wm ▸ managed)
  rw [measuring, ok_bind]
  simp only [bind_assoc, setPseudo_false, ok_bind]
  have frame := alike.rendered c w content
  apply (push_alike .bg _).bind
  rintro saved ⟨alike₁, hid₁⟩
  apply (draw_alike c w content _ rfl).bind
  rintro drawn ⟨alike₂, hid₂⟩
  apply (push_alike .fg drawn).bind
  rintro kept ⟨alike₃, hid₃⟩
  apply (pop_alike .bg kept).bind
  rintro done ⟨alike₄, hid₄⟩
  have finished := alike₄.trans (alike₃.trans alike₂)
  have hidden : done.win.visible = false := hid₄.trans (hid₃.trans (hid₂.trans (hid₁.trans hid)))
  have wm : done.win.wm = v.win.wm := finished.wm.trans (alike₁.wm.trans alike.wm)
  have settled : done.win.frame = c.rendered w v.win content :=
    (finished.frame.trans alike₁.frame).trans frame
  have xres := finished.xres.trans (alike₁.xres.trans alike.xres)
  have yres := finished.yres.trans (alike₁.yres.trans alike.yres)
  split
  · next shown =>
    apply (show_alike done).mono
    rintro v' ⟨alike', shown'⟩
    exact ⟨alike'.frame.trans settled, alike'.wm.trans wm, alike'.pseudo.trans finished.pseudo,
      alike'.xres.trans xres, alike'.yres.trans yres, shown'.trans shown.symm⟩
  · next notShown =>
    exact ⟨settled, wm, finished.pseudo, xres, yres, hidden.trans (by simpa using notShown)⟩

end Render

end Methods

/-! ### The layout of all windows -/

/-- Where the windows are, and what the manager knows: a desk without its pictures and
without who is visible. -/
structure Layout (ι : Type) where
  xres : Int
  yres : Int
  cursorX : Int
  cursorY : Int
  cwmmap : List (ι × Shift)
  frame : ι → Frame
  wm : ι → Bool
  pseudo : ι → Bool

namespace Layout

/-- The manager, as far as the shifts read it. -/
def cwm (l : Layout ι) : Cwm ι where
  xres := l.xres
  yres := l.yres
  cursorX := l.cursorX
  cursorY := l.cursorY
  focus := false
  cwmmap := l.cwmmap

def start (xres yres : Int) : Layout ι where
  xres := xres
  yres := yres
  cursorX := 0
  cursorY := 0
  cwmmap := []
  frame := fun _ => ⟨0, 0, 0, 0⟩
  wm := fun _ => false
  pseudo := fun _ => true

def withCursor (l : Layout ι) (x y : Int) : Layout ι := { l with cursorX := x, cursorY := y }

/-- Where `Shift::update` moves a window. -/
def landing (l : Layout ι) (entry : ι × Shift) : Frame :=
  let F := l.frame entry.1
  let goal := entry.2.target l.cwm F.width F.height
  ⟨goal.1, goal.2, F.width, F.height⟩

variable [LinearOrder ι]

def setFrame (l : Layout ι) (w : ι) (F : Frame) : Layout ι :=
  { l with frame := Function.update l.frame w F }

@[simp] theorem setFrame_self (l : Layout ι) (w : ι) (F : Frame) :
    (l.setFrame w F).frame w = F := Function.update_self _ _ _

@[simp] theorem setFrame_of_ne (l : Layout ι) {w u : ι} (F : Frame) (other : u ≠ w) :
    (l.setFrame w F).frame u = l.frame u := Function.update_of_ne other _ _

/-- The frame after `render`: measured from nothing and, if it got a size, put in its place. -/
def rendered (l : Layout ι) (w : ι) (content : Drawing Px) : Frame :=
  l.cwm.fit w (l.wm w)
    (if l.pseudo w then l.frame w else l.cwm.settle w (l.wm w) (l.frame w) 0 0)
    (content.extent 0 0)

def land (l : Layout ι) (entries : List (ι × Shift)) : Layout ι :=
  entries.foldl (fun l entry => l.setFrame entry.1 (l.landing entry)) l

def after (l : Layout ι) : Op ι Px → Layout ι
  | .attachWindow w sh =>
    { l with cwmmap := Cwm.assign w sh l.cwmmap, wm := Function.update l.wm w true }
  | .xy w x y => l.setFrame w { l.frame w with posX := x, posY := y }
  | .render w content =>
    { l.setFrame w (l.rendered w content) with pseudo := Function.update l.pseudo w false }
  | .cursorPosition x y =>
    if x ≠ l.cursorX ∨ y ≠ l.cursorY then (l.withCursor x y).land l.cwmmap else l
  | .showWindow _ | .hideWindow _ | .setFocus _ | .refreshBegin | .refreshEnd | .paint _ => l

/-- What every run keeps: the map is sorted and holds exactly the windows that know the
manager, and a window that was never measured has no size. -/
structure Sound (l : Layout ι) : Prop where
  sorted : (l.cwmmap.map Prod.fst).Pairwise (· < ·)
  managed : ∀ u, l.wm u = true ↔ u ∈ l.cwmmap.map Prod.fst
  unmeasured : ∀ u, l.pseudo u = true → (l.frame u).width = 0 ∧ (l.frame u).height = 0

end Layout

namespace Desk

def layout (s : Desk ι Px) : Layout ι where
  xres := s.cwm.xres
  yres := s.cwm.yres
  cursorX := s.cwm.cursorX
  cursorY := s.cwm.cursorY
  cwmmap := s.cwm.cwmmap
  frame := fun u => (s.win u).frame
  wm := fun u => (s.win u).wm
  pseudo := fun u => (s.win u).gp.pseudo

/-- One call of the library that returns. -/
def Step [LinearOrder ι] (s : Desk ι Px) (op : Op ι Px) (t : Desk ι Px) : Prop := s.exec op = .ok t

section Simulation
variable [LinearOrder ι] {s : Desk ι Px} {w : ι}

omit [LinearOrder ι] in
theorem field_update [DecidableEq ι] {β : Type} (g : Window Px → β) (win : ι → Window Px) (w : ι)
    (W : Window Px) : (fun u => g (Function.update win w W u)) =
      Function.update (fun u => g (win u)) w (g W) :=
  funext (Function.apply_update (fun _ => g) win w W)

theorem layout_put (v : View Px) : (s.put w v).layout =
    { s.layout with
      frame := Function.update s.layout.frame w v.win.frame
      wm := Function.update s.layout.wm w v.win.wm
      pseudo := Function.update s.layout.pseudo w v.win.gp.pseudo } := by
  simp only [layout, put, field_update Window.frame, field_update Window.wm,
    field_update fun W => W.gp.pseudo]

/-- A method that only moves its window. -/
theorem layout_on {f : View Px → Except Fault (View Px)} {x y : Int}
    (h : Ends AnyFault (f (s.view w)) fun v => v.Alike ((s.view w).moved x y)) :
    Ends AnyFault (s.on w f) fun t =>
      t.layout = s.layout.setFrame w { s.layout.frame w with posX := x, posY := y } := by
  refine ends_on (h.mono fun v alike => ?_)
  have wm : v.win.wm = s.layout.wm w := alike.wm
  have pseudo : v.win.gp.pseudo = s.layout.pseudo w := alike.pseudo
  rw [layout_put, wm, pseudo, Function.update_eq_self, Function.update_eq_self, alike.frame]
  rfl

/-- A method that leaves the frame of its window alone. -/
theorem layout_on_still {f : View Px → Except Fault (View Px)}
    (h : Ends AnyFault (f (s.view w)) fun v => v.Alike (s.view w)) :
    Ends AnyFault (s.on w f) fun t => t.layout = s.layout := by
  refine (layout_on (x := (s.win w).posX) (y := (s.win w).posY) (h.mono fun v alike => alike)).mono
    fun t ht => ht.trans ?_
  exact congrArg (fun frame => { s.layout with frame := frame }) (Function.update_eq_self w _)

/-- The loops of `set_focus`. -/
theorem layout_each {f : View Px → Except Fault (View Px)}
    (h : ∀ v, Ends AnyFault (f v) fun v' => v'.Alike v) (entries : List (ι × Shift)) :
    Ends AnyFault (entries.foldlM (fun s entry => s.on entry.1 f) s) fun t =>
      t.layout = s.layout := by
  refine Ends.foldlM (fun _ (t : Desk ι Px) => t.layout = s.layout) ?_ rfl
  intro entry _ t same
  exact (layout_on_still (h _)).mono fun t' still => still.trans same

theorem layout_setFocus (newFocus : Bool) :
    Ends AnyFault (s.setFocus newFocus) fun t => t.layout = s.layout := by
  rw [Desk.setFocus_def]
  split
  · split
    · exact layout_each (s := s.withFocus newFocus) (fun v => (show_alike v).mono fun _ h => h.1) _
    · exact layout_each (s := s.withFocus newFocus) (fun v => (hide_alike v).mono fun _ h => h.1) _
  · rfl

omit [LinearOrder ι] in
/-- The focus does not enter the places. -/
theorem target_layout (sh : Shift) (width height : Int) :
    sh.target s.layout.cwm width height = sh.target s.cwm width height := by
  cases sh <;> rfl

theorem layout_update (entry : ι × Shift) :
    Ends AnyFault (s.on entry.1 (entry.2.update s.cwm)) fun t =>
      t.layout = s.layout.setFrame entry.1 (s.layout.landing entry) := by
  have goal := target_layout (s := s) entry.2 (s.win entry.1).width (s.win entry.1).height
  rw [on_update]
  refine (layout_on ((xy_alike _ _ _).mono fun v h => h.1)).mono fun t ht => ht.trans ?_
  rw [Layout.landing]
  exact congrArg (s.layout.setFrame entry.1)
    (Frame.mk.injEq .. ▸ ⟨congrArg Prod.fst goal.symm, congrArg Prod.snd goal.symm, rfl, rfl⟩)

theorem layout_updateAll (entries : List (ι × Shift)) :
    Ends AnyFault (s.updateAll entries) fun t => t.layout = s.layout.land entries := by
  induction entries generalizing s with
  | nil => exact rfl
  | cons entry entries ih =>
    rw [Desk.updateAll_def, List.foldlM_cons]
    refine (layout_update entry).bind fun t landed => ?_
    refine (ih (s := t)).mono fun t' rest => rest.trans ?_
    rw [landed]
    rfl

theorem layout_setPosition (x y : Int) :
    Ends AnyFault (s.setPosition x y) fun t =>
      t.layout = s.layout.after (.cursorPosition x y : Op ι Px) := by
  have after : s.layout.after (.cursorPosition x y : Op ι Px) =
      if x ≠ s.cwm.cursorX ∨ y ≠ s.cwm.cursorY then
        (s.withCursor x y).layout.land s.cwm.cwmmap else s.layout := rfl
  rw [after, Desk.setPosition_def]
  split
  · exact layout_updateAll _
  · rfl

theorem registered_of_layout (sound : s.layout.Sound) : s.Registered :=
  ⟨sound.sorted, fun u managed => (sound.managed u).mp managed⟩

theorem layout_render (sound : s.layout.Sound) (content : Drawing Px) :
    Ends AnyFault (s.on w (Widget.render s.cwm w content)) fun t =>
      t.layout = s.layout.after (.render w content) := by
  have known := (registered_of_layout sound).knows w
  have settled : ∀ (f : Frame) (width height : Int),
      s.cwm.settle w (s.win w).wm f width height =
        s.layout.cwm.settle w (s.layout.wm w) f width height := by
    intro f width height
    have map : s.layout.cwm.cwmmap = s.cwm.cwmmap := rfl
    have wm : s.layout.wm w = (s.win w).wm := rfl
    unfold Cwm.settle
    rw [map, wm]
    split <;> simp only [target_layout]
  have frame : s.cwm.rendered w (s.win w) content = s.layout.rendered w content := by
    simp only [Cwm.rendered, Cwm.remeasured, Cwm.fit, Layout.rendered, settled]
    rfl
  refine ends_on ((render_frame s.cwm w content (sound.unmeasured w) known).mono ?_)
  intro v h
  have rendered : v.win.frame = s.layout.rendered w content := h.frame.trans frame
  have wm : v.win.wm = s.layout.wm w := h.wm
  rw [layout_put, rendered, wm, h.pseudo, Function.update_eq_self]
  rfl

theorem layout_attachWindow (w : ι) (sh : Shift) :
    (s.attachWindow w sh).layout = s.layout.after (.attachWindow w sh : Op ι Px) := by
  have frames : (fun u => ((s.attachWindow w sh).win u).frame) = s.layout.frame :=
    (field_update Window.frame s.win w _).trans (Function.update_eq_self w _)
  have pseudo : (fun u => ((s.attachWindow w sh).win u).gp.pseudo) = s.layout.pseudo :=
    (field_update (fun W => W.gp.pseudo) s.win w _).trans (Function.update_eq_self w _)
  have managed : (fun u => ((s.attachWindow w sh).win u).wm) =
      Function.update s.layout.wm w true := field_update Window.wm s.win w _
  simp only [layout, frames, pseudo, managed]
  rfl

/-- The layout is a machine of its own: each call that returns does to it what `after` says. -/
theorem layout_exec (sound : s.layout.Sound) (op : Op ι Px) :
    Ends AnyFault (s.exec op) fun t => t.layout = s.layout.after op := by
  cases op with
  | attachWindow w sh => exact layout_attachWindow w sh
  | showWindow w => exact layout_on_still ((show_alike _).mono fun v h => h.1)
  | hideWindow w => exact layout_on_still ((hide_alike _).mono fun v h => h.1)
  | xy w x y =>
    exact layout_on (f := fun v => Window.xy v x y) ((xy_alike _ x y).mono fun v h => h.1)
  | render w content => exact layout_render sound content
  | cursorPosition x y => exact layout_setPosition x y
  | setFocus newFocus => exact layout_setFocus newFocus
  | refreshBegin => exact layout_setFocus (s := { s with prevFocus := s.cwm.focus }) false
  | refreshEnd => exact layout_setFocus s.prevFocus
  | paint picture => exact rfl

end Simulation

end Desk

/-! ### What every layout keeps -/

namespace Layout

section Sound
variable [LinearOrder ι] {l : Layout ι}

theorem sound_start (xres yres : Int) : (start xres yres : Layout ι).Sound where
  sorted := List.Pairwise.nil
  managed _ := by simp [start]
  unmeasured _ _ := ⟨rfl, rfl⟩

theorem Sound.setFrame (h : l.Sound) (w : ι) {F : Frame}
    (sized : l.pseudo w = true → F.width = 0 ∧ F.height = 0) : (l.setFrame w F).Sound where
  sorted := h.sorted
  managed := h.managed
  unmeasured u pseudo := by
    by_cases same : u = w
    · subst same
      rw [setFrame_self]
      exact sized pseudo
    · rw [setFrame_of_ne l F same]
      exact h.unmeasured u pseudo

theorem Sound.land (h : l.Sound) (entries : List (ι × Shift)) : (l.land entries).Sound := by
  unfold Layout.land
  induction entries generalizing l with
  | nil => exact h
  | cons entry entries ih => exact ih (h.setFrame entry.1 (h.unmeasured entry.1))

theorem Sound.after (h : l.Sound) (op : Op ι Px) : (l.after op).Sound := by
  cases op with
  | attachWindow w sh =>
    refine ⟨Cwm.assign_sorted h.sorted, fun u => ?_, h.unmeasured⟩
    refine Iff.trans ?_ Cwm.mem_assign.symm
    by_cases same : u = w
    · subst same
      simp [Layout.after]
    · simp [Layout.after, same, h.managed u]
  | xy w x y => exact h.setFrame w (h.unmeasured w)
  | render w content =>
    refine ⟨h.sorted, h.managed, fun u pseudo => ?_⟩
    by_cases same : u = w
    · subst same
      simp [Layout.after] at pseudo
    · simp only [Layout.after, Function.update_of_ne same] at pseudo
      have kept : (l.after (.render w content)).frame u = l.frame u :=
        l.setFrame_of_ne _ same
      rw [kept]
      exact h.unmeasured u pseudo
  | cursorPosition x y =>
    unfold Layout.after
    dsimp only
    split
    · have placed : (l.withCursor x y).Sound := ⟨h.sorted, h.managed, h.unmeasured⟩
      exact placed.land l.cwmmap
    · exact h
  | showWindow | hideWindow | setFocus | refreshBegin | refreshEnd | paint => exact h

end Sound

end Layout

/-! ### The layout after a render -/

namespace Drawing

/-- The greatest `x_i + x_max`, and at least zero. -/
def width (content : Drawing Px) : Int :=
  (content.map fun item => item.1 + item.2.2.xMax).foldr max 0

def height (content : Drawing Px) : Int :=
  (content.map fun item => item.2.1 + item.2.2.yMax).foldr max 0

theorem extent_foldl (content : Drawing Px) (w h : Int) : content.extent w h =
    ((content.map fun item => item.1 + item.2.2.xMax).foldl max w,
      (content.map fun item => item.2.1 + item.2.2.yMax).foldl max h) := by
  induction content generalizing w h with
  | nil => rfl
  | cons item content ih => exact ih _ _

theorem extent_eq (content : Drawing Px) :
    content.extent 0 0 = (content.width, content.height) := by
  rw [extent_foldl, List.foldl_eq_foldr, List.foldl_eq_foldr]
  rfl

theorem le_width {content : Drawing Px} {item : Int × Int × Shape Px} (mem : item ∈ content) :
    item.1 + item.2.2.xMax ≤ content.width ∧ item.2.1 + item.2.2.yMax ≤ content.height := by
  induction content with
  | nil => cases mem
  | cons first content ih =>
    unfold width height at ih ⊢
    rw [List.map_cons, List.map_cons, List.foldr_cons, List.foldr_cons]
    rcases List.mem_cons.mp mem with rfl | mem
    · exact ⟨le_max_left _ _, le_max_left _ _⟩
    · exact ⟨(ih mem).1.trans (le_max_right _ _), (ih mem).2.trans (le_max_right _ _)⟩

end Drawing

theorem Cwm.settle_of_lookup [DecidableEq ι] {c : Cwm ι} {w : ι} {sh : Shift}
    (found : c.cwmmap.lookup w = some sh) (F : Frame) (width height : Int) :
    c.settle w true F width height =
      ⟨(sh.target c width height).1, (sh.target c width height).2, width, height⟩ := by
  simp only [Cwm.settle, found]

namespace Layout

variable [LinearOrder ι] {l : Layout ι}

theorem Sound.lookup (h : l.Sound) {w : ι} (managed : l.wm w = true) :
    ∃ sh, l.cwmmap.lookup w = some sh := Cwm.lookup_of_mem ((h.managed w).mp managed)

/-- A rendered window has the size of its drawing, and its place if that is not zero. -/
theorem Sound.rendered (h : l.Sound) {w : ι} (managed : l.wm w = true) (content : Drawing Px) :
    (l.rendered w content).width = content.width ∧
      (l.rendered w content).height = content.height ∧
      (¬ (content.width = 0 ∧ content.height = 0) →
        ∃ sh, l.cwmmap.lookup w = some sh ∧
          ((l.rendered w content).posX, (l.rendered w content).posY) =
            sh.target l.cwm content.width content.height) := by
  have blank : (if l.pseudo w then l.frame w
      else l.cwm.settle w (l.wm w) (l.frame w) 0 0).width = 0 ∧
      (if l.pseudo w then l.frame w
        else l.cwm.settle w (l.wm w) (l.frame w) 0 0).height = 0 := by
    split
    · next pseudo => exact h.unmeasured w pseudo
    · exact l.cwm.settle_size w (l.wm w) (l.frame w) 0 0
  obtain ⟨sh, found⟩ := h.lookup managed
  unfold Layout.rendered
  rw [Drawing.extent_eq]
  generalize (if l.pseudo w then l.frame w
    else l.cwm.settle w (l.wm w) (l.frame w) 0 0) = F at blank ⊢
  obtain ⟨width, height⟩ := l.cwm.fit_size w (l.wm w) F (content.width, content.height)
  refine ⟨width, height, fun sized => ⟨sh, found, ?_⟩⟩
  have grown : (content.width, content.height) ≠ (F.width, F.height) := by
    rw [blank.1, blank.2, ne_eq, Prod.mk.injEq]
    exact sized
  rw [Cwm.fit, if_neg grown, managed, Cwm.settle_of_lookup found]

end Layout

namespace Desk

variable [LinearOrder ι]

theorem layout_run {dev : GraphDev Px} {ops : List (Op ι Px)} {s : Desk ι Px}
    (run : Run Step (start dev) ops s) :
    s.layout = ops.foldl Layout.after (.start dev.xres dev.yres) ∧ s.layout.Sound := by
  induction run with
  | nil => exact ⟨rfl, Layout.sound_start dev.xres dev.yres⟩
  | snoc run taken ih =>
    obtain ⟨layout, sound⟩ := ih
    have simulated := (layout_exec sound _).of_ok taken
    rw [simulated]
    refine ⟨?_, sound.after _⟩
    rw [List.foldl_append, ← layout]
    rfl

/-- Everything that a rectangle paints at the offset `(x, y)`, and its own corners, lie in the
window. -/
def Encloses (s : Desk ι Px) (w : ι) (x y : Int) (r : Rect Px) : Prop :=
  box ((s.win w).posX + x) ((s.win w).posY + y) ((s.win w).posX + x + r.width)
      ((s.win w).posY + y + r.height) ⊆ (s.win w).rect ∧
    ∀ dot ∈ r.shape.ink,
      ((s.win w).posX + x + dot.1, (s.win w).posY + y + dot.2.1) ∈ (s.win w).rect

/-- The window has the size of the drawing and, if that is not zero, its place; and the
rectangles of a widget lie inside it. -/
structure LaidOut (s : Desk ι Px) (w : ι) (content : Drawing Px) : Prop where
  width : (s.win w).width = content.width
  height : (s.win w).height = content.height
  placed : ¬ ((s.win w).width = 0 ∧ (s.win w).height = 0) →
    ∃ sh, s.cwm.cwmmap.lookup w = some sh ∧
      ((s.win w).posX, (s.win w).posY) = sh.target s.cwm (s.win w).width (s.win w).height
  encloses : ∀ (widget : Content) (font : Font) (look : Look Px), content = widget.draw font look →
    ∀ x y r, (x, y, Rect.shape r) ∈ content → s.Encloses w x y r

omit [LinearOrder ι] in
theorem encloses_of_size {s : Desk ι Px} {w : ι} {content : Drawing Px}
    (width : (s.win w).width = content.width) (height : (s.win w).height = content.height)
    (cornered : content.Cornered) {x y : Int} {r : Rect Px} (mem : (x, y, r.shape) ∈ content) :
    s.Encloses w x y r := by
  obtain ⟨hx, hy, hw, hh⟩ := cornered _ mem
  obtain ⟨right, bottom⟩ := Drawing.le_width mem
  dsimp only [Rect.shape] at hx hy hw hh right bottom
  have inside : box ((s.win w).posX + x) ((s.win w).posY + y) ((s.win w).posX + x + r.width)
      ((s.win w).posY + y + r.height) ⊆ (s.win w).rect := by
    intro p hp
    simp only [Window.rect, mem_box, width, height] at hp ⊢
    omega
  refine ⟨inside, fun dot hdot => inside ?_⟩
  have bounds := Rect.ink_inside hw hh hdot
  rw [mem_box]
  dsimp only
  omega

/-- After a `render` in any run, the layout of the window is that of its drawing, whatever was
rendered before. -/
theorem render_lays_out {dev : GraphDev Px} {ops : List (Op ι Px)} {s t : Desk ι Px} {w : ι}
    (run : Run Step (start dev) ops s) (attached : w ∈ s.attached)
    {content : Drawing Px} (rendered : s.exec (.render w content) = .ok t) :
    t.LaidOut w content := by
  obtain ⟨-, sound⟩ := layout_run run
  have managed : s.layout.wm w = true := (sound.managed w).mpr attached
  have layout : t.layout = s.layout.after (.render w content) :=
    (layout_exec sound _).of_ok rendered
  have frame : (t.win w).frame = s.layout.rendered w content := by
    have own := congrFun (congrArg Layout.frame layout) w
    exact own.trans (Function.update_self w _ _)
  obtain ⟨width, height, placed⟩ := sound.rendered managed content
  rw [← frame] at width height placed
  refine ⟨width, height, fun sized => ?_, ?_⟩
  · have widthT : (t.win w).width = content.width := width
    have heightT : (t.win w).height = content.height := height
    rw [widthT, heightT] at sized ⊢
    obtain ⟨sh, found, place⟩ := placed sized
    have map : t.cwm.cwmmap = s.cwm.cwmmap := congrArg Layout.cwmmap layout
    have cwm : t.layout.cwm = s.layout.cwm := by
      rw [layout]
      rfl
    refine ⟨sh, map ▸ found, ?_⟩
    rw [← target_layout, cwm]
    exact place
  · rintro widget font look rfl x y r mem
    exact encloses_of_size width height (widget.cornered_draw font look) mem

theorem step_of_toOption (s : Desk ι Px) (op : Op ι Px) (t : Desk ι Px)
    (called : (s.exec op).toOption = some t) : s.Step op t := ok_of_toOption called

/-- A preedit window of one character, in a font without glyphs. -/
theorem preedit_lays_out : ∃ t : Desk Bool Nat,
    t.LaidOut true ((Content.preedit [65]).draw ⟨2, 2, fun _ => none⟩ ⟨0, 7, 3⟩) := by
  have ready : ∃ s : Desk Bool Nat, replay (fun s op => (s.exec op).toOption)
      (start ⟨40, 40, fun _ => 0⟩) [.attachWindow true (.preeditShift 0 10), .cursorPosition 3 5] =
        some s ∧ true ∈ s.attached ∧
      ∃ t, s.exec (.render true ((Content.preedit [65]).draw ⟨2, 2, fun _ => none⟩ ⟨0, 7, 3⟩)) =
        .ok t := ⟨_, rfl, by decide, _, rfl⟩
  obtain ⟨s, replayed, attached, t, rendered⟩ := ready
  exact ⟨t, render_lays_out (Run.of_replay step_of_toOption replayed) attached rendered⟩

end Desk

end Ucimf.Display
