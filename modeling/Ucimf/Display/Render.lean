import Ucimf.Display.SaveUnder

/-!
# Rendering a widget

`Widget::render` draws twice on a hidden window. The first pass only measures: each call
of `measure` re-enters `wh`, `Cwm::update` and `xy`, and all that is left of it is the
size and the position (`draw_pseudo`). The second pass paints, and the painted rectangle
becomes the foreground buffer.
-/

namespace Ucimf.Display

open Outcome GraphPort

variable {ι Px : Type} [DecidableEq ι]

/-- The size that measuring a drawing from `(w, h)` on leads to. -/
def Drawing.extent (content : Drawing Px) (w h : Int) : Int × Int :=
  content.foldl (fun e item =>
    (max e.1 (item.1 + item.2.2.xMax), max e.2 (item.2.1 + item.2.2.yMax))) (w, h)

theorem Drawing.extent_cons (item : Int × Int × Shape Px) (content : Drawing Px)
    (w h : Int) : Drawing.extent (item :: content) w h =
      Drawing.extent content (max w (item.1 + item.2.2.xMax))
        (max h (item.2.1 + item.2.2.yMax)) := rfl

theorem Drawing.le_extent (content : Drawing Px) (w h : Int) :
    w ≤ (content.extent w h).1 ∧ h ≤ (content.extent w h).2 := by
  induction content generalizing w h with
  | nil => exact ⟨le_refl w, le_refl h⟩
  | cons item content ih =>
    rw [Drawing.extent_cons]
    have grown := ih (max w (item.1 + item.2.2.xMax)) (max h (item.2.1 + item.2.2.yMax))
    omega

/-- A window known to the manager is in its map. -/
def Cwm.Knows (c : Cwm ι) (w : ι) (W : Window Px) : Prop :=
  W.wm = true → ∃ sh, c.cwmmap.lookup w = some sh

def Window.reframe (W : Window Px) (f : Frame) : Window Px :=
  { W with posX := f.posX, posY := f.posY, width := f.width, height := f.height }

@[simp] theorem Window.frame_reframe (W : Window Px) (f : Frame) : (W.reframe f).frame = f := rfl

@[simp] theorem Window.reframe_width (W : Window Px) (f : Frame) :
    (W.reframe f).width = f.width := rfl

@[simp] theorem Window.reframe_height (W : Window Px) (f : Frame) :
    (W.reframe f).height = f.height := rfl

@[simp] theorem Window.reframe_wm (W : Window Px) (f : Frame) : (W.reframe f).wm = W.wm := rfl

@[simp] theorem Window.reframe_reframe (W : Window Px) (f g : Frame) :
    (W.reframe f).reframe g = W.reframe g := rfl

@[simp] theorem Window.reframe_frame (W : Window Px) : W.reframe W.frame = W := rfl

/-- The frame after `wh` on a hidden window: the new size and, if the window is managed,
the place its shift gives to that size. -/
def Cwm.settle (c : Cwm ι) (w : ι) (managed : Bool) (f : Frame) (width height : Int) : Frame :=
  match managed, c.cwmmap.lookup w with
  | true, some sh =>
    ⟨(sh.target c width height).1, (sh.target c width height).2, width, height⟩
  | _, _ => { f with width := width, height := height }

def Cwm.fit (c : Cwm ι) (w : ι) (managed : Bool) (f : Frame) (size : Int × Int) : Frame :=
  if size = (f.width, f.height) then f else c.settle w managed f size.1 size.2

/-- The frame after `setPseudo( true )`: back to size zero, unless nothing was drawn yet. -/
def Cwm.remeasured (c : Cwm ι) (w : ι) (W : Window Px) : Frame :=
  if W.gp.pseudo then W.frame else c.settle w W.wm W.frame 0 0

def Cwm.rendered (c : Cwm ι) (w : ι) (W : Window Px) (content : Drawing Px) : Frame :=
  c.fit w W.wm (c.remeasured w W) (content.extent 0 0)

theorem View.Alike.rendered {v v' : View Px} (h : v.Alike v') (c : Cwm ι) (w : ι)
    (content : Drawing Px) : c.rendered w v.win content = c.rendered w v'.win content := by
  simp only [Cwm.rendered, Cwm.remeasured, h.frame, h.wm, h.pseudo]

section Settle
variable (c : Cwm ι) (w : ι) (managed : Bool) (f : Frame)

theorem Cwm.settle_size (width height : Int) :
    (c.settle w managed f width height).width = width ∧
      (c.settle w managed f width height).height = height := by
  unfold Cwm.settle
  split <;> exact ⟨rfl, rfl⟩

theorem Cwm.settle_settle (a b width height : Int) :
    c.settle w managed (c.settle w managed f a b) width height =
      c.settle w managed f width height := by
  cases managed <;> cases found : c.cwmmap.lookup w <;> simp [Cwm.settle, found]

theorem Cwm.fit_size (size : Int × Int) :
    (c.fit w managed f size).width = size.1 ∧ (c.fit w managed f size).height = size.2 := by
  unfold Cwm.fit
  split
  · next same => exact ⟨by rw [same], by rw [same]⟩
  · exact c.settle_size w managed f size.1 size.2

theorem Cwm.fit_fit {a b : Int} {size : Int × Int} (ha : f.width ≤ a) (hb : f.height ≤ b)
    (ha' : a ≤ size.1) (hb' : b ≤ size.2) :
    c.fit w managed (c.fit w managed f (a, b)) size = c.fit w managed f size := by
  obtain ⟨m, n⟩ := size
  simp only at ha' hb'
  by_cases first : (a, b) = (f.width, f.height)
  · have inner : c.fit w managed f (a, b) = f := if_pos first
    rw [inner]
  · have outer : ¬ (m, n) = (f.width, f.height) := by
      simp only [Prod.mk.injEq] at first ⊢
      omega
    have inner : c.fit w managed f (a, b) = c.settle w managed f a b := if_neg first
    obtain ⟨width, height⟩ := c.settle_size w managed f a b
    rw [inner, Cwm.fit, Cwm.fit, width, height, if_neg outer]
    split
    · next again =>
      simp only [Prod.mk.injEq] at again
      rw [again.1, again.2]
    · exact c.settle_settle w managed f a b m n

end Settle

theorem Cwm.remeasured_size (c : Cwm ι) (w : ι) {W : Window Px}
    (unmeasured : W.gp.pseudo = true → W.width = 0 ∧ W.height = 0) :
    (c.remeasured w W).width = 0 ∧ (c.remeasured w W).height = 0 := by
  unfold Cwm.remeasured
  cases pseudo : W.gp.pseudo with
  | true => exact unmeasured pseudo
  | false => exact c.settle_size w W.wm W.frame 0 0

section Measure
variable {c : Cwm ι} {w : ι} {v : View Px}

theorem wh_eq (c : Cwm ι) (w : ι) (v : View Px) (width height : Int) :
    Window.wh c w v width height = (Window.hide v >>= fun low =>
      let sized := { low with win := { low.win with width := width, height := height } }
      (if sized.win.wm then c.update w sized else .ok sized) >>= fun placed =>
        if v.win.visible = true then Window.show placed else .ok placed) := rfl

theorem update_of_found {sh : Shift} (found : c.cwmmap.lookup w = some sh) :
    c.update w v = Window.xy v (sh.target c v.win.width v.win.height).1
      (sh.target c v.win.width v.win.height).2 := by
  rw [Cwm.update, Port.update, found]
  rfl

theorem wh_of_hidden (hid : v.win.visible = false) (known : c.Knows w v.win)
    (width height : Int) : Window.wh c w v width height =
      .ok ⟨v.dev, v.win.reframe (c.settle w v.win.wm v.win.frame width height)⟩ := by
  have sized : ∀ x y, Window.xy
      { v with win := { v.win with width := width, height := height } } x y = _ :=
    xy_of_hidden hid
  simp only [wh_eq, hide_of_hidden hid, ok_bind, hid, Bool.false_eq_true, if_false, Cwm.settle]
  cases managed : v.win.wm with
  | false =>
    simp only [Bool.false_eq_true, if_false, ok_bind, Window.reframe, Window.frame, hid, managed]
  | true =>
    obtain ⟨sh, found⟩ := known managed
    simp only [hid, managed] at sized
    simp only [if_true, update_of_found found, found, sized, ok_bind, View.moved, Window.reframe,
      hid, managed]

theorem measure_eq (c : Cwm ι) (w : ι) (v : View Px) (maxX maxY : Int) :
    Window.measure c w v maxX maxY =
      if (decide (maxX > v.win.width) || decide (maxY > v.win.height)) = true then
        Window.wh c w v (if maxX > v.win.width then maxX else v.win.width)
          (if maxY > v.win.height then maxY else v.win.height)
      else .ok v := rfl

theorem measure_of_hidden (hid : v.win.visible = false) (known : c.Knows w v.win)
    (maxX maxY : Int) : Window.measure c w v maxX maxY =
      .ok ⟨v.dev, v.win.reframe (c.fit w v.win.wm v.win.frame
        (max v.win.width maxX, max v.win.height maxY))⟩ := by
  have widest : (if maxX > v.win.width then maxX else v.win.width) = max v.win.width maxX := by
    split <;> omega
  have highest : (if maxY > v.win.height then maxY else v.win.height) =
      max v.win.height maxY := by
    split <;> omega
  simp only [measure_eq, widest, highest, Cwm.fit, Prod.mk.injEq, Window.frame]
  by_cases larger : maxX > v.win.width ∨ maxY > v.win.height
  · have grows : ¬ (max v.win.width maxX = v.win.width ∧ max v.win.height maxY = v.win.height) := by
      omega
    rw [if_pos (by simpa using larger), if_neg grows]
    exact wh_of_hidden hid known _ _
  · have stays : max v.win.width maxX = v.win.width ∧ max v.win.height maxY = v.win.height := by
      omega
    rw [if_neg (by simpa using larger), if_pos stays]
    rfl

theorem draw_of_pseudo (pseudo : v.win.gp.pseudo = true) (x y : Int) (sp : Shape Px) :
    GraphPort.draw c w v x y sp = Window.measure c w v (x + sp.xMax) (y + sp.yMax) :=
  if_pos pseudo

theorem draw_of_real (real : v.win.gp.pseudo = false) (x y : Int) (sp : Shape Px) :
    GraphPort.draw c w v x y sp =
      if v.win.gp.gdev = true then
        sp.draw (v.win.posX + x) (v.win.posY + y) v.dev >>= fun dev => .ok { v with dev := dev }
      else .ok v :=
  if_neg (Bool.not_eq_true _ ▸ real)

theorem widget_draw_eq (c : Cwm ι) (w : ι) (content : Drawing Px) (v : View Px) :
    Widget.draw c w content v =
      content.foldlM (fun v item => GraphPort.draw c w v item.1 item.2.1 item.2.2) v := rfl

/-- The measuring pass changes the size and the position and nothing else. -/
theorem draw_pseudo (content : Drawing Px) (hid : v.win.visible = false)
    (known : c.Knows w v.win) (pseudo : v.win.gp.pseudo = true) :
    Widget.draw c w content v = .ok ⟨v.dev, v.win.reframe
      (c.fit w v.win.wm v.win.frame (content.extent v.win.width v.win.height))⟩ := by
  induction content generalizing v with
  | nil =>
    have same : c.fit w v.win.wm v.win.frame (v.win.width, v.win.height) = v.win.frame :=
      if_pos rfl
    simp only [Drawing.extent, List.foldl_nil, same, Window.reframe_frame]
    rfl
  | cons item content ih =>
    have first := measure_of_hidden hid known (item.1 + item.2.2.xMax)
      (item.2.1 + item.2.2.yMax)
    obtain ⟨width, height⟩ := c.fit_size w v.win.wm v.win.frame
      (max v.win.width (item.1 + item.2.2.xMax), max v.win.height (item.2.1 + item.2.2.yMax))
    have rest := @ih ⟨v.dev, v.win.reframe (c.fit w v.win.wm v.win.frame
        (max v.win.width (item.1 + item.2.2.xMax), max v.win.height (item.2.1 + item.2.2.yMax)))⟩
      hid known pseudo
    have grown := Drawing.le_extent content (max v.win.width (item.1 + item.2.2.xMax))
      (max v.win.height (item.2.1 + item.2.2.yMax))
    simp only [Window.frame_reframe, Window.reframe_reframe, Window.reframe_width,
      Window.reframe_height, Window.reframe_wm, width, height] at rest
    rw [c.fit_fit w v.win.wm v.win.frame (le_max_left v.win.width _)
      (le_max_left v.win.height _) grown.1 grown.2] at rest
    rw [widget_draw_eq, List.foldlM_cons, draw_of_pseudo pseudo, first, ok_bind]
    exact rest

theorem setPseudo_eq (c : Cwm ι) (w : ι) (v : View Px) (flag : Bool) :
    GraphPort.setPseudo c w v flag =
      ((if flag ≠ v.win.gp.pseudo ∧ flag = true then Window.wh c w v 0 0 else .ok v) >>= fun v =>
        .ok { v with win := { v.win with gp := { v.win.gp with pseudo := flag } } }) := rfl

theorem setPseudo_false (c : Cwm ι) (w : ι) (v : View Px) : GraphPort.setPseudo c w v false =
    .ok { v with win := { v.win with gp := { v.win.gp with pseudo := false } } } := by
  rw [setPseudo_eq, if_neg fun turned => Bool.false_ne_true turned.2, ok_bind]

theorem setPseudo_true_of_hidden (hid : v.win.visible = false) (known : c.Knows w v.win) :
    GraphPort.setPseudo c w v true = .ok ⟨v.dev, { v.win.reframe (c.remeasured w v.win) with
      gp := { v.win.gp with pseudo := true } }⟩ := by
  rw [setPseudo_eq]
  unfold Cwm.remeasured
  cases pseudo : v.win.gp.pseudo with
  | true => rfl
  | false =>
    rw [if_pos ⟨by simp, rfl⟩, wh_of_hidden hid known, ok_bind, if_neg Bool.false_ne_true]
    rfl

end Measure

/-! ### The painting pass -/

def Shape.paint (sp : Shape Px) (x y : Int) (f : Point → Px) : Point → Px :=
  sp.ink.foldl (fun f dot => Function.update f (x + dot.1, y + dot.2.1) dot.2.2) f

def Drawing.paint (content : Drawing Px) (x y : Int) (f : Point → Px) : Point → Px :=
  content.foldl (fun f item => item.2.2.paint (x + item.1) (y + item.2.1) f) f

/-- The image a drawing leaves on the picture `f`, relative to the corner `(x, y)`. -/
def Drawing.image (content : Drawing Px) (x y : Int) (f : Point → Px) : Point → Px :=
  crop (content.paint x y f) x y

/-- The shapes paint only inside `[0..w] x [0..h]`. -/
def Drawing.Inside (content : Drawing Px) (size : Int × Int) : Prop :=
  ∀ item ∈ content, ∀ dot ∈ item.2.2.ink,
    0 ≤ item.1 + dot.1 ∧ item.1 + dot.1 ≤ size.1 ∧
      0 ≤ item.2.1 + dot.2.1 ∧ item.2.1 + dot.2.1 ≤ size.2

instance (content : Drawing Px) (size : Int × Int) : Decidable (content.Inside size) :=
  inferInstanceAs (Decidable (∀ item ∈ content, ∀ dot ∈ item.2.2.ink, _))

theorem Shape.paint_of_notMem (sp : Shape Px) {x y : Int} (f : Point → Px) {p : Point}
    (off : ∀ dot ∈ sp.ink, p ≠ (x + dot.1, y + dot.2.1)) : sp.paint x y f p = f p := by
  obtain ⟨_, _, ink⟩ := sp
  unfold Shape.paint
  induction ink generalizing f with
  | nil => rfl
  | cons dot ink ih =>
    rw [List.foldl_cons, ih _ (fun d hd => off d (List.mem_cons_of_mem _ hd))]
    exact Function.update_of_ne (off dot (by simp)) _ _

theorem Drawing.paint_of_outside {content : Drawing Px} {size : Int × Int}
    (inside : content.Inside size) (x y : Int) (f : Point → Px) {p : Point}
    (off : p ∉ box x y (x + size.1) (y + size.2)) : content.paint x y f p = f p := by
  unfold Drawing.paint
  induction content generalizing f with
  | nil => rfl
  | cons item content ih =>
    rw [List.foldl_cons, ih (fun i hi => inside i (List.mem_cons_of_mem _ hi))]
    refine item.2.2.paint_of_notMem f fun dot hdot same => off ?_
    have bounds := inside item (by simp) dot hdot
    rw [same, mem_box]
    omega

theorem Shape.draw_ends (sp : Shape Px) (x y : Int) (d : GraphDev Px) :
    Ends OffScreen (sp.draw x y d) fun d' => d' = { d with pixel := sp.paint x y d.pixel } := by
  unfold Shape.draw Shape.paint
  induction sp.ink generalizing d with
  | nil => rfl
  | cons dot ink ih =>
    rw [List.foldlM_cons]
    by_cases visible : d.OnScreen (x + dot.1) (y + dot.2.1)
    · have put : d.putPixel (x + dot.1) (y + dot.2.1) dot.2.2 = _ := if_pos visible
      rw [put, ok_bind]
      exact ih _
    · have put : d.putPixel (x + dot.1) (y + dot.2.1) dot.2.2 = _ := if_neg visible
      rw [put, error_bind]
      exact offScreen_range

theorem draw_real {c : Cwm ι} {w : ι} (content : Drawing Px) (v : View Px)
    (pseudo : v.win.gp.pseudo = false) (opened : v.win.gp.gdev = true) :
    Ends OffScreen (Widget.draw c w content v) fun v' =>
      v' = { v with dev := { v.dev with
        pixel := content.paint v.win.posX v.win.posY v.dev.pixel } } := by
  rw [widget_draw_eq, Drawing.paint]
  induction content generalizing v with
  | nil => rfl
  | cons item content ih =>
    rw [List.foldlM_cons]
    have first : GraphPort.draw c w v item.1 item.2.1 item.2.2 =
        (item.2.2.draw (v.win.posX + item.1) (v.win.posY + item.2.1) v.dev >>= fun dev =>
          .ok { v with dev := dev }) := by
      rw [draw_of_real pseudo, if_pos opened]
    rw [first, bind_assoc]
    refine (Shape.draw_ends _ _ _ _).bind ?_
    rintro dev rfl
    exact ih _ pseudo opened

/-- The first half of `render`: the hidden window takes the size of the drawing. -/
theorem measure_pass (c : Cwm ι) (w : ι) (content : Drawing Px) {v : View Px}
    (unmeasured : v.win.gp.pseudo = true → v.win.width = 0 ∧ v.win.height = 0)
    (hid : v.win.visible = false) (known : c.Knows w v.win) :
    (GraphPort.setPseudo c w v true >>= Widget.draw c w content) =
      .ok ⟨v.dev, { v.win.reframe (c.rendered w v.win content) with
        gp := { v.win.gp with pseudo := true } }⟩ := by
  have flat : content.extent (c.remeasured w v.win).width (c.remeasured w v.win).height =
      content.extent 0 0 := by
    obtain ⟨width, height⟩ := c.remeasured_size w unmeasured
    rw [width, height]
  have placed : c.rendered w v.win content = c.fit w v.win.wm (c.remeasured w v.win)
      (content.extent (c.remeasured w v.win).width (c.remeasured w v.win).height) := by
    rw [flat, Cwm.rendered]
  rw [setPseudo_true_of_hidden hid known, ok_bind, placed]
  exact draw_pseudo (v := ⟨v.dev, { v.win.reframe (c.remeasured w v.win) with
    gp := { v.win.gp with pseudo := true } }⟩) content hid known rfl

/-- The second half of `render`: the drawing goes to the foreground buffer and the
framebuffer is left as it was. -/
theorem paint_pass (c : Cwm ι) (w : ι) {content : Drawing Px} {v : View Px}
    (opened : v.win.gp.gdev = true) (inside : content.Inside (v.win.width, v.win.height)) :
    Ends OffScreen
      (pushBgBuf v >>= fun v => GraphPort.setPseudo c w v false >>= fun v =>
        Widget.draw c w content v >>= fun v => pushFgBuf v >>= popBgBuf)
      fun v' => v' = { v with win := { v.win with gp := { v.win.gp with
        pseudo := false, bufBg := none,
        bufFg := some (tile (content.image v.win.posX v.win.posY v.dev.pixel)
          v.win.width v.win.height) } } } := by
  by_cases fits : v.win.Fits v.dev
  · let W : Window Px := { v.win with gp := { v.win.gp with
      bufBg := some (v.win.saved v.dev.pixel), pseudo := false } }
    rw [pushBgBuf, push_eq .bg opened fits, ok_bind, setPseudo_false, ok_bind]
    refine (draw_real (c := c) (w := w) content ⟨v.dev, W⟩ rfl opened).bind ?_
    rintro v' rfl
    let painted := { v.dev with pixel := content.paint W.posX W.posY v.dev.pixel }
    have front : pushFgBuf ⟨painted, W⟩ =
        .ok ⟨painted, { W with gp := { W.gp with bufFg := some (W.saved painted.pixel) } }⟩ :=
      push_eq (v := ⟨painted, W⟩) .fg opened fits
    have back := pop_eq (v := ⟨painted, { W with gp := { W.gp with
      bufFg := some (W.saved painted.pixel) } }⟩) .bg opened fits
      (crop v.dev.pixel v.win.posX v.win.posY) rfl
    refine Ends.intro ((congrArg (· >>= popBgBuf) front).trans back) ?_
    have restored : v.win.stamp (crop v.dev.pixel v.win.posX v.win.posY) painted = v.dev := by
      refine congrArg (GraphDev.mk v.dev.xres v.dev.yres) (funext fun p => ?_)
      by_cases hp : p ∈ v.win.rect
      · rw [Set.piecewise_eq_of_mem _ _ _ hp, place_crop]
      · rw [Set.piecewise_eq_of_notMem _ _ _ hp]
        exact Drawing.paint_of_outside inside _ _ _ hp
    exact congrArg (View.mk · _) restored
  · rw [pushBgBuf, push_offScreen .bg opened fits, error_bind]
    exact offScreen_range

/-- `render` in its phases. -/
theorem render_eq (c : Cwm ι) (w : ι) (content : Drawing Px) (v : View Px) :
    Widget.render c w content v = (Window.hide v >>= fun low =>
      (GraphPort.setPseudo c w low true >>= Widget.draw c w content) >>= fun sized =>
      (pushBgBuf sized >>= fun v => GraphPort.setPseudo c w v false >>= fun v =>
        Widget.draw c w content v >>= fun v => pushFgBuf v >>= popBgBuf) >>= fun done =>
      if v.win.visible = true then Window.show done else .ok done) := by
  simp only [bind_assoc]
  rfl

/-- `render` keeps the invariant: the new image is what the drawing leaves on the picture
below, at the place the new size leads to. -/
theorem Held.render {c : Cwm ι} {w : ι} {under : Point → Px} {img : Option (Point → Px)}
    {v : View Px} (h : Held under img v) (known : c.Knows w v.win) {content : Drawing Px}
    (inside : content.Inside (content.extent 0 0)) :
    Ends OffScreen (Widget.render c w content v) fun v' =>
      Held under (some (content.image v'.win.posX v'.win.posY under)) v' ∧
        v'.win.visible = v.win.visible ∧ v'.win.frame = c.rendered w v.win content ∧
        v'.win.wm = v.win.wm ∧ v'.dev.xres = v.dev.xres ∧ v'.dev.yres = v.dev.yres := by
  obtain ⟨low, lowering, held, hid, alike⟩ := h.hide
  have known' : c.Knows w low.win := fun managed => known (alike.wm.symm.trans managed)
  have frame := alike.rendered c w content
  let sized : Window Px :=
    { low.win.reframe (c.rendered w low.win content) with
      gp := { low.win.gp with pseudo := true } }
  have measuring : (GraphPort.setPseudo c w low true >>= Widget.draw c w content) =
      .ok ⟨low.dev, sized⟩ := measure_pass c w content held.unmeasured hid known'
  have size : (sized.width, sized.height) = content.extent 0 0 := by
    have fitted := c.fit_size w low.win.wm (c.remeasured w low.win) (content.extent 0 0)
    exact Prod.ext fitted.1 fitted.2
  have painting := paint_pass c w (v := ⟨low.dev, sized⟩) held.opened (size ▸ inside)
  rw [render_eq, lowering, ok_bind, measuring, ok_bind]
  refine painting.bind ?_
  rintro v' rfl
  have below := held.below hid
  have result : Held under (some (content.image sized.posX sized.posY under))
      ⟨low.dev, { sized with gp := { sized.gp with
        pseudo := false, bufBg := none,
        bufFg := some (tile (content.image sized.posX sized.posY low.dev.pixel)
          sized.width sized.height) } }⟩ := by
    refine ⟨held.opened, fun contra => absurd contra Bool.false_ne_true,
      fun contra => absurd (hid.symm.trans contra) Bool.false_ne_true, fun _ =>
      ⟨below.same, rfl, ?_, ?_⟩⟩
    · rintro I ⟨⟩
      rw [← below.same]
    · rintro buf ⟨⟩
      exact ⟨_, rfl⟩
  cases shown : v.win.visible with
  | false =>
    rw [if_neg Bool.false_ne_true]
    exact ⟨result, hid, frame, alike.wm, alike.xres, alike.yres⟩
  | true =>
    rw [if_pos rfl]
    refine result.show.mono ?_
    rintro v' ⟨held', shown', alike'⟩
    obtain ⟨posX, posY, -, -⟩ := Frame.mk.inj alike'.frame
    rw [posX, posY]
    exact ⟨held', shown', alike'.frame.trans frame, alike'.wm.trans alike.wm,
      alike'.xres.trans alike.xres, alike'.yres.trans alike.yres⟩

end Ucimf.Display
