import Ucimf.Display.Focus
import Ucimf.Display.Layout

/-!
# Placement

The three shifts push a window back from the right edge and flip it above the cursor at the
bottom one. The first always keeps the window on screen; the second does so only if the
window fits above the cursor, which no shift looks at.
-/

namespace Ucimf.Display

open Outcome GraphPort

variable {ι Px : Type}

namespace Shift

def xGap : Shift → Int
  | .statusShift xGap _ | .preeditShift xGap _ | .lookupChoiceShift xGap _ => xGap

def yGap : Shift → Int
  | .statusShift _ yGap | .preeditShift _ yGap | .lookupChoiceShift _ yGap => yGap

/-- The gaps of `ucimf_init`: straight below the cursor, by one line of the font and 8 pixels
or a multiple of it. -/
def FromInit (sh : Shift) (fontHeight : Nat) : Prop :=
  sh.xGap = 0 ∧ ∃ lines : Nat, 0 < lines ∧ sh.yGap = lines * (fontHeight + 8)

theorem target_eq (sh : Shift) (c : Cwm ι) (width height : Int) :
    sh.target c width height = c.beside sh.xGap sh.yGap width height := by
  cases sh <;> rfl

theorem FromInit.positive {sh : Shift} {fontHeight : Nat} (h : sh.FromInit fontHeight) :
    0 < sh.yGap := by
  obtain ⟨-, lines, some_lines, gap⟩ := h
  rw [gap]
  exact Int.mul_pos (by exact_mod_cast some_lines) (by omega)

end Shift

/-- The three windows of the library. -/
inductive Panel
  | status
  | preedit
  | lookupChoice

/-- The shifts that `ucimf_init` sets up. -/
def Panel.shift (fontHeight : Nat) : Panel → Shift
  | .status => .statusShift 0 (fontHeight + 8)
  | .preedit => .preeditShift 0 ((fontHeight + 8) * 2)
  | .lookupChoice => .lookupChoiceShift 0 ((fontHeight + 8) * 3)

theorem Panel.fromInit_shift (fontHeight : Nat) (p : Panel) :
    (p.shift fontHeight).FromInit fontHeight := by
  cases p with
  | status => exact ⟨rfl, 1, by decide, (one_mul _).symm⟩
  | preedit => exact ⟨rfl, 2, by decide, mul_comm _ _⟩
  | lookupChoice => exact ⟨rfl, 3, by decide, mul_comm _ _⟩

/-! ### The two edges -/

section Edges
variable {c : Cwm ι}

/-- Below the cursor or above it, at the distance `gap`, there is room for the window. -/
def Cwm.HasRoom (c : Cwm ι) (gap height : Int) : Prop :=
  c.cursorY + gap + height ≤ c.yres - 16 ∨ gap + height ≤ c.cursorY

instance (c : Cwm ι) (gap height : Int) : Decidable (c.HasRoom gap height) :=
  inferInstanceAs (Decidable (_ ∨ _))

/-- The clamp at the right edge works for every window that is not too wide. -/
theorem Cwm.beside_x (gap height : Int) {width : Int} (cursor : 0 ≤ c.cursorX)
    (narrow : width ≤ c.xres - 16) :
    0 ≤ (c.beside 0 gap width height).1 ∧
      (c.beside 0 gap width height).1 + width ≤ c.xres - 16 := by
  simp only [Cwm.beside]
  split <;> omega

/-- The flip at the bottom edge needs room above the cursor. -/
theorem Cwm.beside_y_iff {gap : Int} (width height : Int) (cursor : 0 ≤ c.cursorY)
    (cursor_lt : c.cursorY < c.yres) (positive : 0 < gap) :
    0 ≤ (c.beside 0 gap width height).2 ∧
        (c.beside 0 gap width height).2 + height < c.yres ↔ c.HasRoom gap height := by
  simp only [Cwm.beside, Cwm.HasRoom]
  split <;> omega

end Edges

/-! ### `Shift::update` -/

section Update
variable {v : View Px}

/-- A visible window with its background saved can be moved to any place on screen. -/
theorem Window.Standing.xy {below : Point → Px} (h : v.win.Standing v.dev below) {x y : Int}
    (fits : (v.moved x y).win.Fits v.dev) : ∃ v', Window.xy v x y = .ok v' := by
  let low : View Px :=
    ⟨v.win.stamp (crop below v.win.posX v.win.posY) v.dev, v.win.lowered v.dev.pixel⟩
  have lowering : Window.hide v = .ok low := hide_eq h.shown h.opened h.fits _ h.bg
  rw [xy_of_visible h.shown lowering]
  exact ⟨_, show_eq (v := low.moved x y) rfl h.opened fits
    (crop v.dev.pixel v.win.posX v.win.posY) rfl⟩

/-- For a window not larger than the screen less 16 pixels either way, and a cursor on screen:
`update` brings it on screen exactly if there is room below the cursor or above it. -/
theorem Shift.update_fits_iff {sh : Shift} {fontHeight : Nat} (gaps : sh.FromInit fontHeight)
    {c : Cwm ι} (screen : v.dev.xres = c.xres ∧ v.dev.yres = c.yres)
    (cursor : v.dev.OnScreen c.cursorX c.cursorY)
    (width : 0 ≤ v.win.width ∧ v.win.width ≤ c.xres - 16)
    (height : 0 ≤ v.win.height ∧ v.win.height ≤ c.yres - 16)
    (standing : v.win.visible = true → ∃ below, v.win.Standing v.dev below) :
    (∃ v', sh.update c v = .ok v' ∧ v'.win.Fits v'.dev) ↔ c.HasRoom sh.yGap v.win.height := by
  obtain ⟨cursorX, -, cursorY, cursorY_lt⟩ := cursor
  rw [screen.2] at cursorY_lt
  have goal := sh.target_eq c v.win.width v.win.height
  rw [gaps.1] at goal
  have horizontal := Cwm.beside_x sh.yGap v.win.height cursorX width.2
  have vertical := Cwm.beside_y_iff v.win.width v.win.height cursorY cursorY_lt gaps.positive
  rw [← goal] at horizontal vertical
  have room : (v.moved (sh.target c v.win.width v.win.height).1
      (sh.target c v.win.width v.win.height).2).win.Fits v.dev ↔
        c.HasRoom sh.yGap v.win.height := by
    rw [← vertical]
    simp only [Window.Fits, GraphDev.InRange, GraphDev.OnScreen, View.moved, screen]
    omega
  rw [← room]
  constructor
  · rintro ⟨v', returned, fits⟩
    obtain ⟨alike, -⟩ := (xy_alike v _ _).of_ok returned
    exact alike.fits.mp fits
  · intro fits
    have moving : ∃ v', sh.update c v = .ok v' := by
      cases shown : v.win.visible with
      | true =>
        obtain ⟨below, stands⟩ := standing shown
        exact stands.xy fits
      | false => exact ⟨_, xy_of_hidden shown _ _⟩
    obtain ⟨v', returned⟩ := moving
    obtain ⟨alike, -⟩ := (xy_alike v _ _).of_ok returned
    exact ⟨v', returned, alike.fits.mpr fits⟩

/-- A candidate window of ten rows in a font of 16, the cursor halfway down. -/
def tenRows (cursorY : Int) : Cwm Bool × View Nat :=
  (⟨640, 480, 100, cursorY, true, []⟩,
    ⟨⟨640, 480, fun _ => 0⟩, { Window.new true with width := 200, height := 163 }⟩)

theorem lookup_flips_on_screen :
    (∃ v, (Panel.lookupChoice.shift 16).update (tenRows 235).1 (tenRows 235).2 = .ok v ∧
      v.win.Fits v.dev) ↔ (tenRows 235).1.HasRoom 72 163 :=
  Shift.update_fits_iff (Panel.fromInit_shift 16 .lookupChoice) ⟨rfl, rfl⟩ (by decide) (by decide)
    (by decide) fun shown => absurd shown (by decide)

/-- Five pixels further up there is no room below and not enough above: the window is moved to
`y = -5`, and the next `show` stops at an assertion. -/
theorem lookup_flips_off_screen :
    let (c, v) := tenRows 230
    v.dev.OnScreen c.cursorX c.cursorY ∧ v.win.width ≤ c.xres - 16 ∧ v.win.height ≤ c.yres - 16 ∧
      (Panel.lookupChoice.shift 16).update c v = .ok (v.moved 100 (-5)) ∧
      ¬ (v.moved 100 (-5)).win.Fits v.dev ∧
      Window.show (v.moved 100 (-5)) = .error .range :=
  ⟨by decide, by decide, by decide, rfl, by decide, rfl⟩

end Update

end Ucimf.Display
