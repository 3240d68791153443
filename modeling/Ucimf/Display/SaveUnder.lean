import Ucimf.Display.Window
import Ucimf.Support.Outcome

/-!
# One window over the picture beneath it

`Held` relates a window to the picture `under` that the framebuffer shows without it and
to the image the window was last given. Every method of `Window` and `Widget` keeps the
relation: it returns, or it stops at a range assertion of the driver.
-/

namespace Ucimf.Display

open Outcome GraphPort

variable {ι Px : Type}

/-- The one fault left to the caller: a rectangle that is not on screen. -/
def OffScreen (e : Fault) : Prop := e = .range

@[simp] theorem offScreen_range : OffScreen .range := rfl

def Window.Fits (W : Window Px) (d : GraphDev Px) : Prop :=
  d.InRange W.posX W.posY (W.posX + W.width) (W.posY + W.height)

instance (W : Window Px) (d : GraphDev Px) : Decidable (W.Fits d) :=
  inferInstanceAs (Decidable (d.InRange _ _ _ _))

/-- The buffer that `SaveRect` fills for this window from the picture `f`. -/
def Window.saved (W : Window Px) (f : Point → Px) : List Px :=
  tile (crop f W.posX W.posY) W.width W.height

/-- The framebuffer after the image `I` is written on the window's rectangle. -/
def Window.stamp (W : Window Px) (I : Point → Px) (d : GraphDev Px) : GraphDev Px :=
  { d with pixel := W.rect.piecewise (place I W.posX W.posY) d.pixel }

theorem Window.stamp_of_mem {W : Window Px} (I : Point → Px) (d : GraphDev Px) {p : Point}
    (h : p ∈ W.rect) : (W.stamp I d).pixel p = place I W.posX W.posY p :=
  Set.piecewise_eq_of_mem _ _ _ h

theorem Window.stamp_of_notMem {W : Window Px} (I : Point → Px) (d : GraphDev Px) {p : Point}
    (h : p ∉ W.rect) : (W.stamp I d).pixel p = d.pixel p :=
  Set.piecewise_eq_of_notMem _ _ _ h

theorem tile_congr {f g : Point → Px} {w h : Int}
    (same : ∀ i j, 0 ≤ i → i ≤ w → 0 ≤ j → j ≤ h → f (i, j) = g (i, j)) :
    tile f w h = tile g w h := by
  apply List.map_congr_left
  intro k hk
  have inside := List.mem_range.mp hk
  have wide : 0 < (w + 1).toNat := Nat.pos_of_ne_zero fun zero => by simp [zero] at inside
  have column := Nat.mod_lt k wide
  have row : k / (w + 1).toNat < (h + 1).toNat := Nat.div_lt_of_lt_mul inside
  generalize k % (w + 1).toNat = i at column
  generalize k / (w + 1).toNat = j at row
  exact same i j (by omega) (by omega) (by omega) (by omega)

theorem Window.saved_congr {W : Window Px} {f g : Point → Px}
    (same : ∀ p ∈ W.rect, f p = g p) : W.saved f = W.saved g := by
  apply tile_congr
  intro i j _ _ _ _
  apply same
  simp only [Window.rect, mem_box]
  omega

section Buffers
variable {v : View Px}

theorem push_def (b : Buffer) (v : View Px) : push b v =
    if v.win.gp.gdev = true then
      v.dev.saveRect v.win.posX v.win.posY (v.win.posX + v.win.width)
        (v.win.posY + v.win.height) >>= fun saved =>
          .ok { v with win := { v.win with gp := v.win.gp.setBuf (some saved) b } }
    else .ok { v with win := { v.win with gp := v.win.gp.setBuf none b } } := by
  cases b <;> rfl

theorem push_eq (b : Buffer) (opened : v.win.gp.gdev = true) (fits : v.win.Fits v.dev) :
    push b v = .ok { v with win := { v.win with
      gp := v.win.gp.setBuf (some (v.win.saved v.dev.pixel)) b } } := by
  have saving := GraphDev.saveRect_eq fits
  simp only [add_sub_cancel_left] at saving
  rw [push_def, if_pos opened, saving]
  rfl

theorem push_offScreen (b : Buffer) (opened : v.win.gp.gdev = true)
    (off : ¬ v.win.Fits v.dev) : push b v = .error .range := by
  have failing : v.dev.saveRect v.win.posX v.win.posY (v.win.posX + v.win.width)
      (v.win.posY + v.win.height) = .error .range := if_neg off
  rw [push_def, if_pos opened, failing]
  rfl

theorem pop_none (b : Buffer) (empty : v.win.gp.buf b = none) : pop b v = .ok v :=
  if_pos (Option.isNone_iff_eq_none.mpr empty)

theorem pop_some {b : Buffer} {saved : List Px} (full : v.win.gp.buf b = some saved) : pop b v =
    if v.win.gp.gdev = true then
      v.dev.rstrRect v.win.posX v.win.posY (v.win.posX + v.win.width)
        (v.win.posY + v.win.height) (some saved) >>= fun dev =>
          .ok { dev := dev, win := { v.win with gp := v.win.gp.setBuf none b } }
    else .ok v := by
  rw [← full]
  exact if_neg fun empty => by simp [View.port, full] at empty

theorem pop_eq (b : Buffer) (opened : v.win.gp.gdev = true) (fits : v.win.Fits v.dev)
    (I : Point → Px) (full : v.win.gp.buf b = some (tile I v.win.width v.win.height)) :
    pop b v = .ok { dev := v.win.stamp I v.dev,
                    win := { v.win with gp := v.win.gp.setBuf none b } } := by
  have restoring := GraphDev.rstrRect_tile fits I
  simp only [add_sub_cancel_left] at restoring
  rw [pop_some full, if_pos opened, restoring]
  rfl

end Buffers

/-- The window after `show` over the picture `f`. -/
def Window.raised (W : Window Px) (f : Point → Px) : Window Px :=
  { W with visible := true, gp := { W.gp with bufBg := some (W.saved f), bufFg := none } }

/-- The window after `hide`, when the framebuffer was `f`. -/
def Window.lowered (W : Window Px) (f : Point → Px) : Window Px :=
  { W with visible := false, gp := { W.gp with bufBg := none, bufFg := some (W.saved f) } }

section ShowHide
variable {v : View Px}

theorem show_of_visible (shown : v.win.visible = true) : Window.show v = .ok v :=
  if_neg (Bool.not_eq_false _ ▸ shown)

theorem show_of_hidden (hid : v.win.visible = false) :
    Window.show v = (push .bg { v with win := { v.win with visible := true } } >>= pop .fg) :=
  if_pos hid

theorem hide_of_hidden (hid : v.win.visible = false) : Window.hide v = .ok v :=
  if_neg (Bool.not_eq_true _ ▸ hid)

theorem hide_of_visible (shown : v.win.visible = true) :
    Window.hide v = (push .fg { v with win := { v.win with visible := false } } >>= pop .bg) :=
  if_pos shown

theorem show_offScreen (hid : v.win.visible = false) (opened : v.win.gp.gdev = true)
    (off : ¬ v.win.Fits v.dev) : Window.show v = .error .range := by
  have failing := push_offScreen (v := { v with win := { v.win with visible := true } })
    .bg opened off
  rw [show_of_hidden hid, failing, error_bind]

/-- Showing a window with a foreground buffer saves what is below and stamps the image. -/
theorem show_eq (hid : v.win.visible = false) (opened : v.win.gp.gdev = true)
    (fits : v.win.Fits v.dev) (I : Point → Px)
    (full : v.win.gp.bufFg = some (tile I v.win.width v.win.height)) :
    Window.show v =
      .ok { dev := v.win.stamp I v.dev, win := v.win.raised v.dev.pixel } := by
  have pushing := push_eq (v := { v with win := { v.win with visible := true } })
    .bg opened fits
  rw [show_of_hidden hid, pushing, ok_bind]
  exact pop_eq (v := { v with win := { v.win with
      visible := true, gp := { v.win.gp with bufBg := some (v.win.saved v.dev.pixel) } } })
    .fg opened fits I full

theorem show_blank (hid : v.win.visible = false) (opened : v.win.gp.gdev = true)
    (fits : v.win.Fits v.dev) (empty : v.win.gp.bufFg = none) :
    Window.show v = .ok { v with win := v.win.raised v.dev.pixel } := by
  have pushing := push_eq (v := { v with win := { v.win with visible := true } })
    .bg opened fits
  rw [show_of_hidden hid, pushing, ok_bind]
  have popping := pop_none (v := { v with win := { v.win with
      visible := true, gp := { v.win.gp with bufBg := some (v.win.saved v.dev.pixel) } } })
    .fg empty
  simp only [Window.raised, ← empty]
  exact popping

theorem hide_eq (shown : v.win.visible = true) (opened : v.win.gp.gdev = true)
    (fits : v.win.Fits v.dev) (I : Point → Px)
    (full : v.win.gp.bufBg = some (tile I v.win.width v.win.height)) :
    Window.hide v =
      .ok { dev := v.win.stamp I v.dev, win := v.win.lowered v.dev.pixel } := by
  have pushing := push_eq (v := { v with win := { v.win with visible := false } })
    .fg opened fits
  rw [hide_of_visible shown, pushing, ok_bind]
  exact pop_eq (v := { v with win := { v.win with
      visible := false, gp := { v.win.gp with bufFg := some (v.win.saved v.dev.pixel) } } })
    .bg opened fits I full

end ShowHide

structure Frame where
  posX : Int
  posY : Int
  width : Int
  height : Int
  deriving DecidableEq, Repr

def Frame.rect (f : Frame) : Set Point := box f.posX f.posY (f.posX + f.width) (f.posY + f.height)

def Window.frame (W : Window Px) : Frame := ⟨W.posX, W.posY, W.width, W.height⟩

theorem Window.rect_eq (W : Window Px) : W.rect = W.frame.rect := rfl

/-- What `show`, `hide` and `xy` leave alone. -/
structure View.Alike (v v' : View Px) : Prop where
  frame : v.win.frame = v'.win.frame
  wm : v.win.wm = v'.win.wm
  pseudo : v.win.gp.pseudo = v'.win.gp.pseudo
  xres : v.dev.xres = v'.dev.xres
  yres : v.dev.yres = v'.dev.yres

theorem View.Alike.refl (v : View Px) : v.Alike v := ⟨rfl, rfl, rfl, rfl, rfl⟩

theorem View.Alike.trans {v v' v'' : View Px} (h : v.Alike v') (h' : v'.Alike v'') :
    v.Alike v'' where
  frame := h.frame.trans h'.frame
  wm := h.wm.trans h'.wm
  pseudo := h.pseudo.trans h'.pseudo
  xres := h.xres.trans h'.xres
  yres := h.yres.trans h'.yres

theorem View.Alike.rect {v v' : View Px} (h : v.Alike v') : v.win.rect = v'.win.rect := by
  rw [Window.rect_eq, h.frame, Window.rect_eq]

theorem View.Alike.fits {v v' : View Px} (h : v.Alike v') :
    v.win.Fits v.dev ↔ v'.win.Fits v'.dev := by
  obtain ⟨posX, posY, width, height⟩ := Frame.mk.inj h.frame
  simp only [Window.Fits, GraphDev.InRange, GraphDev.OnScreen, posX, posY, width, height,
    h.xres, h.yres]

/-- A visible window: the background buffer holds what is under the rectangle, and the
rectangle shows the last image. -/
structure Above (under : Point → Px) (img : Option (Point → Px)) (v : View Px) : Prop where
  fits : v.win.Fits v.dev
  bg : v.win.gp.bufBg = some (v.win.saved under)
  outside : ∀ p ∉ v.win.rect, v.dev.pixel p = under p
  inside : ∀ I, img = some I → ∀ p ∈ v.win.rect,
    v.dev.pixel p = place I v.win.posX v.win.posY p

/-- A hidden window: the framebuffer is untouched and the foreground buffer, if there is
one, has the size of the window and holds the last image. -/
structure Below (under : Point → Px) (img : Option (Point → Px)) (v : View Px) : Prop where
  same : v.dev.pixel = under
  bg : v.win.gp.bufBg = none
  fg : ∀ I, img = some I → v.win.gp.bufFg = some (tile I v.win.width v.win.height)
  sized : ∀ buf, v.win.gp.bufFg = some buf → ∃ I, buf = tile I v.win.width v.win.height

/-- The invariant of a window over the picture `under`; `img` is the image it was last
given, relative to its corner. A window that was never measured has size zero. -/
structure Held (under : Point → Px) (img : Option (Point → Px)) (v : View Px) : Prop where
  opened : v.win.gp.gdev = true
  unmeasured : v.win.gp.pseudo = true → v.win.width = 0 ∧ v.win.height = 0
  above : v.win.visible = true → Above under img v
  below : v.win.visible = false → Below under img v

section Held
variable {under : Point → Px} {img : Option (Point → Px)} {v : View Px}

theorem Above.saved_image (h : Above under img v) {I : Point → Px} (hI : img = some I) :
    v.win.saved v.dev.pixel = tile I v.win.width v.win.height := by
  rw [Window.saved_congr (h.inside I hI), Window.saved, crop_place]

theorem Above.restored (h : Above under img v) :
    (v.win.stamp (crop under v.win.posX v.win.posY) v.dev).pixel = under := by
  funext p
  by_cases hp : p ∈ v.win.rect
  · rw [Window.stamp_of_mem _ _ hp, place_crop]
  · rw [Window.stamp_of_notMem _ _ hp, h.outside p hp]

theorem Held.hide (h : Held under img v) :
    ∃ v', Window.hide v = .ok v' ∧ Held under img v' ∧ v'.win.visible = false ∧
      v'.Alike v := by
  cases shown : v.win.visible with
  | false => exact ⟨v, hide_of_hidden shown, h, shown, .refl v⟩
  | true =>
    have up := h.above shown
    refine ⟨_, hide_eq shown h.opened up.fits _ up.bg, ⟨h.opened, h.unmeasured, ?_, ?_⟩,
      rfl, ⟨rfl, rfl, rfl, rfl, rfl⟩⟩
    · exact fun contra => absurd contra Bool.false_ne_true
    · intro _
      refine ⟨up.restored, rfl, fun I hI => congrArg some (up.saved_image hI), ?_⟩
      rintro buf ⟨⟩
      exact ⟨_, rfl⟩

theorem Below.stamped (h : Below under img v) (fits : v.win.Fits v.dev) {I : Point → Px}
    (full : v.win.gp.bufFg = some (tile I v.win.width v.win.height)) :
    Above under img ⟨v.win.stamp I v.dev, v.win.raised v.dev.pixel⟩ := by
  refine ⟨fits, ?_, ?_, ?_⟩
  · rw [← h.same]
    rfl
  · intro p hp
    rw [← h.same]
    exact Window.stamp_of_notMem I v.dev hp
  · intro J hJ p hp
    have agree : tile J v.win.width v.win.height = tile I v.win.width v.win.height :=
      Option.some.inj ((h.fg J hJ).symm.trans full)
    have bounds := mem_box.mp hp
    have entry := congrArg
      (fun buf => buf[offset v.win.width (p.1 - v.win.posX) (p.2 - v.win.posY)]?) agree
    simp only [Window.raised] at bounds
    rw [getElem?_tile J (by omega) (by omega) (by omega) (by omega),
      getElem?_tile I (by omega) (by omega) (by omega) (by omega)] at entry
    exact (Window.stamp_of_mem I v.dev hp).trans (Option.some.inj entry).symm

theorem Held.show_of_fits (h : Held under img v)
    (fits : v.win.Fits v.dev) :
    ∃ v', Window.show v = .ok v' ∧ Held under img v' ∧ v'.win.visible = true ∧
      v'.Alike v := by
  cases shown : v.win.visible with
  | true => exact ⟨v, show_of_visible shown, h, shown, .refl v⟩
  | false =>
    have down := h.below shown
    cases front : v.win.gp.bufFg with
    | none =>
      refine ⟨_, show_blank shown h.opened fits front, ⟨h.opened, h.unmeasured, ?_, ?_⟩,
        rfl, ⟨rfl, rfl, rfl, rfl, rfl⟩⟩
      · intro _
        refine ⟨fits, ?_, fun p _ => congrFun down.same p, ?_⟩
        · rw [← down.same]
          rfl
        · intro I hI
          exact absurd ((down.fg I hI).symm.trans front) (by simp)
      · exact fun contra => absurd contra.symm Bool.false_ne_true
    | some buf =>
      obtain ⟨I, rfl⟩ := down.sized buf front
      refine ⟨_, show_eq shown h.opened fits I front, ⟨h.opened, h.unmeasured, ?_, ?_⟩,
        rfl, ⟨rfl, rfl, rfl, rfl, rfl⟩⟩
      · exact fun _ => down.stamped fits front
      · exact fun contra => absurd contra.symm Bool.false_ne_true

theorem Held.show (h : Held under img v) :
    Ends OffScreen (Window.show v) fun v' =>
      Held under img v' ∧ v'.win.visible = true ∧ v'.Alike v := by
  by_cases fits : v.win.Fits v.dev
  · obtain ⟨v', returned, rest⟩ := h.show_of_fits fits
    rw [returned]
    exact rest
  · cases shown : v.win.visible with
    | true => exact absurd (h.above shown).fits fits
    | false =>
      rw [show_offScreen shown h.opened fits]
      exact offScreen_range

theorem Below.of_front {v' : View Px} (h : Below under img v) (dev : v'.dev.pixel = v.dev.pixel)
    (gp : v'.win.gp = v.win.gp) (width : v'.win.width = v.win.width)
    (height : v'.win.height = v.win.height) : Below under img v' where
  same := dev.trans h.same
  bg := by rw [gp, h.bg]
  fg I hI := by rw [gp, width, height, h.fg I hI]
  sized := by rw [gp, width, height]; exact h.sized

def View.moved (v : View Px) (x y : Int) : View Px :=
  { v with win := { v.win with posX := x, posY := y } }

theorem View.Alike.moved {v v' : View Px} (h : v.Alike v') (x y : Int) :
    (v.moved x y).Alike (v'.moved x y) := by
  obtain ⟨-, -, width, height⟩ := Frame.mk.inj h.frame
  exact ⟨congrArg₂ (Frame.mk x y) width height, h.wm, h.pseudo, h.xres, h.yres⟩

theorem Held.moved (h : Held under img v) (hid : v.win.visible = false) (x y : Int) :
    Held under img (v.moved x y) where
  opened := h.opened
  unmeasured := h.unmeasured
  above shown := absurd (hid.symm.trans shown) Bool.false_ne_true
  below _ := (h.below hid).of_front rfl rfl rfl rfl

theorem xy_eq (v : View Px) (x y : Int) : Window.xy v x y = (Window.hide v >>= fun low =>
    if v.win.visible = true then Window.show (low.moved x y) else .ok (low.moved x y)) := rfl

theorem xy_of_hidden (hid : v.win.visible = false) (x y : Int) :
    Window.xy v x y = .ok (v.moved x y) := by
  rw [xy_eq, hide_of_hidden hid, ok_bind, hid, if_neg Bool.false_ne_true]

theorem xy_of_visible (shown : v.win.visible = true) {v' : View Px}
    (hidden : Window.hide v = .ok v') (x y : Int) :
    Window.xy v x y = Window.show (v'.moved x y) := by
  rw [xy_eq, hidden, ok_bind, if_pos shown]

theorem Held.xy_of_fits (h : Held under img v) (x y : Int)
    (fits : v.win.visible = true → (v.moved x y).win.Fits v.dev) :
    ∃ v', Window.xy v x y = .ok v' ∧ Held under img v' ∧
      v'.win.visible = v.win.visible ∧ v'.Alike (v.moved x y) := by
  obtain ⟨low, lowering, held, hid, alike⟩ := h.hide
  cases shown : v.win.visible with
  | false => exact ⟨_, xy_of_hidden shown x y, h.moved shown x y, shown, .refl _⟩
  | true =>
    rw [xy_of_visible shown lowering]
    have goal := (alike.moved x y).fits.mpr (fits shown)
    obtain ⟨v', showing, held', shown', alike'⟩ := (held.moved hid x y).show_of_fits goal
    exact ⟨v', showing, held', shown', alike'.trans (alike.moved x y)⟩

theorem Held.xy (h : Held under img v) (x y : Int) :
    Ends OffScreen (Window.xy v x y) fun v' =>
      Held under img v' ∧ v'.win.visible = v.win.visible ∧ v'.Alike (v.moved x y) := by
  obtain ⟨low, lowering, held, hid, alike⟩ := h.hide
  cases shown : v.win.visible with
  | false =>
    rw [xy_of_hidden shown]
    exact ⟨h.moved shown x y, shown, .refl _⟩
  | true =>
    rw [xy_of_visible shown lowering]
    refine (held.moved hid x y).show.mono ?_
    rintro v' ⟨held', shown', alike'⟩
    exact ⟨held', shown', alike'.trans (alike.moved x y)⟩

theorem Held.show_ends {tolerated : Fault → Prop} (h : Held under img v)
    (fits : v.win.Fits v.dev ∨ tolerated .range) :
    Ends tolerated (Window.show v) fun v' =>
      Held under img v' ∧ v'.win.visible = true ∧ v'.Alike v := by
  rcases fits with fits | allowed
  · exact Ends.of_exists (h.show_of_fits fits)
  · exact h.show.weaken fun e off => off ▸ allowed

theorem Held.xy_ends {tolerated : Fault → Prop} (h : Held under img v) (x y : Int)
    (fits : (v.win.visible = true → (v.moved x y).win.Fits v.dev) ∨ tolerated .range) :
    Ends tolerated (Window.xy v x y) fun v' =>
      Held under img v' ∧ v'.win.visible = v.win.visible ∧ v'.Alike (v.moved x y) := by
  rcases fits with fits | allowed
  · exact Ends.of_exists (h.xy_of_fits x y fits)
  · exact (h.xy x y).weaken fun e off => off ▸ allowed

end Held

end Ucimf.Display
