import Ucimf.Display.Ink

/-!
# The device behind the graph ports

The calls of the driver interface as one machine: a framebuffer and the buffer pointers that
`SaveRect` and `RstrRect` are handed. `FillRect` leaves what the dots of a filled rectangle
leave.
-/

namespace Ucimf.Display

open Outcome

variable {N C Px : Type} [DecidableEq N]

namespace GraphDev

/-- `FillRect`, with the assertions it shares with `SaveRect`. -/
def fillRect (dev : GraphDev Px) (x1 y1 x2 y2 : Int) (color : Px) : Except Fault (GraphDev Px) :=
  if dev.InRange x1 y1 x2 y2 then .ok (dev.paint (· ∈ box x1 y1 x2 y2) color)
  else .error .range

def revRect (dev : GraphDev Px) (invert : Px → Px) (x1 y1 x2 y2 : Int) :
    Except Fault (GraphDev Px) :=
  if dev.InRange x1 y1 x2 y2 then
    .ok { dev with
      pixel := fun p => if p ∈ box x1 y1 x2 y2 then invert (dev.pixel p) else dev.pixel p }
  else .error .range

end GraphDev

/-- A call of the driver; `b` names the buffer pointer that is handed to it. `forget` is the
assignment of `0` to the pointer, which leaves its block behind. -/
inductive DevCall (N C : Type)
  | putPixel (x y : Int) (color : C)
  | fillRect (x1 y1 x2 y2 : Int) (color : C)
  | revRect (x1 y1 x2 y2 : Int)
  | forget (b : N)
  | saveRect (b : N) (x1 y1 x2 y2 : Int)
  | rstrRect (b : N) (x1 y1 x2 y2 : Int)
  deriving DecidableEq, Repr

/-- The framebuffer and what the buffer pointers hold. -/
@[ext]
structure Device (N Px : Type) where
  dev : GraphDev Px
  buffer : N → Option (List Px)

namespace Device

/-- `RstrRect` releases the buffer and nulls its pointer. -/
def exec (colour : C → Px) (invert : Px → Px) (a : Device N Px) :
    DevCall N C → Except Fault (Device N Px)
  | .putPixel x y color => do
    let dev ← a.dev.putPixel x y (colour color)
    .ok { a with dev := dev }
  | .fillRect x1 y1 x2 y2 color => do
    let dev ← a.dev.fillRect x1 y1 x2 y2 (colour color)
    .ok { a with dev := dev }
  | .revRect x1 y1 x2 y2 => do
    let dev ← a.dev.revRect invert x1 y1 x2 y2
    .ok { a with dev := dev }
  | .forget b => .ok { a with buffer := Function.update a.buffer b none }
  | .saveRect b x1 y1 x2 y2 => do
    let saved ← a.dev.saveRect x1 y1 x2 y2
    .ok { a with buffer := Function.update a.buffer b (some saved) }
  | .rstrRect b x1 y1 x2 y2 => do
    let dev ← a.dev.rstrRect x1 y1 x2 y2 (a.buffer b)
    .ok ⟨dev, Function.update a.buffer b none⟩

end Device

/-! ### Rectangles -/

namespace Rect

variable {w h : Int} {p : Point}

theorem mem_fillDots : p ∈ fillDots w h ↔ p ∈ box 0 0 w h := by
  rw [mem_box]
  constructor
  · intro member
    obtain ⟨left, right, top, bottom⟩ := fillDots_inside member
    exact ⟨left, right, top, bottom⟩
  · rintro ⟨left, right, top, bottom⟩
    have place : p = (((p.1.toNat : Nat) : Int), ((p.2.toNat : Nat) : Int)) := by
      apply Prod.ext <;> simp only <;> omega
    rw [place, fillDots]
    refine List.mem_flatMap.mpr ⟨p.2.toNat, List.mem_range.mpr (by omega), ?_⟩
    exact List.mem_map.mpr ⟨p.1.toNat, List.mem_range.mpr (by omega), rfl⟩

/-- The filled rectangle of a widget is what `FillRect` leaves. -/
theorem draw_filled (r : Rect Px) (filled : r.beFilled = true) (wide : 0 ≤ r.width)
    (high : 0 ≤ r.height) (x y : Int) (dev : GraphDev Px) :
    r.shape.draw x y dev = dev.fillRect x y (x + r.width) (y + r.height) r.color := by
  have drawn : r.shape.draw x y dev =
      (shifted x y (fillDots r.width r.height)).foldlM
        (fun dev p => dev.putPixel p.1 p.2 r.color) dev := by
    rw [Shape.draw, shape, if_pos filled, shifted, List.foldlM_map, List.foldlM_map]
  have member : ∀ p, p ∈ shifted x y (fillDots r.width r.height) ↔
      p ∈ box x y (x + r.width) (y + r.height) := by
    intro p
    simp only [shifted, List.mem_map, mem_fillDots, mem_box]
    constructor
    · rintro ⟨q, bounds, rfl⟩
      dsimp only
      omega
    · intro bounds
      exact ⟨(p.1 - x, p.2 - y), by dsimp only; omega, Prod.ext (by simp) (by simp)⟩
  rw [drawn, @GraphDev.putPixels_eq_print Px dev (dotFont 0 0), GraphDev.print, GraphDev.fillRect]
  apply if_congr
  · simp only [GraphDev.Fits, List.not_mem_nil, false_imp_iff, implies_true, true_and, member,
      GraphDev.InRange, GraphDev.OnScreen, mem_box]
    constructor
    · intro every
      have first := every (x, y) ⟨le_rfl, by dsimp only; omega, le_rfl, by dsimp only; omega⟩
      have last := every (x + r.width, y + r.height)
        ⟨by dsimp only; omega, le_rfl, by dsimp only; omega, le_rfl⟩
      exact ⟨first, last, by omega, by omega⟩
    · rintro ⟨⟨left, -, top, -⟩, ⟨-, right, -, bottom⟩, -, -⟩ p bounds
      omega
  · rw [GraphDev.paint_congr member]
  · rfl

end Rect

end Ucimf.Display
