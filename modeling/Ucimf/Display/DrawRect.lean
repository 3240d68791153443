import Ucimf.Display.Line

/-!
# The frame of a rectangle

`DrawRect` draws four lines between the corners, given in any order. They cover the frame of
the rectangle, and what they cover twice is its corners.
-/

namespace Ucimf.Display

variable {Px : Type}

namespace GraphDev

/-- One line behind another; both need their fuel. -/
def andThen (drawn : Option (Except Fault (GraphDev Px)))
    (next : GraphDev Px → Option (Except Fault (GraphDev Px))) :
    Option (Except Fault (GraphDev Px)) :=
  drawn.bind fun r =>
    match r with
    | .ok dev => next dev
    | .error e => some (.error e)

def drawRect (dev : GraphDev Px) (fuel : Nat) (x1 y1 x2 y2 : Int) (color : Px) :
    Option (Except Fault (GraphDev Px)) :=
  if dev.OnScreen x1 y1 ∧ dev.OnScreen x2 y2 then
    andThen (dev.drawLineColor fuel x1 y1 x2 y1 color) fun dev =>
      andThen (dev.drawLineColor fuel x1 y1 x1 y2 color) fun dev =>
        andThen (dev.drawLineColor fuel x1 y2 x2 y2 color) fun dev =>
          dev.drawLineColor fuel x2 y1 x2 y2 color
  else some (.error .range)

end GraphDev

/-- The rectangle between two corners. -/
def spanned (x1 y1 x2 y2 : Int) : Set Point := box (min x1 x2) (min y1 y2) (max x1 x2) (max y1 y2)

/-- Its frame. -/
def frame (x1 y1 x2 y2 : Int) : Set Point :=
  {p | p ∈ spanned x1 y1 x2 y2 ∧ (p.1 = x1 ∨ p.1 = x2 ∨ p.2 = y1 ∨ p.2 = y2)}

instance (x1 y1 x2 y2 : Int) : DecidablePred (· ∈ frame x1 y1 x2 y2) := fun p =>
  inferInstanceAs (Decidable (p ∈ box _ _ _ _ ∧ (p.1 = x1 ∨ p.1 = x2 ∨ p.2 = y1 ∨ p.2 = y2)))

section Lines
variable {x1 y1 x2 y2 x y : Int} {p q : Point}

/-- A walk meets every value of its major coordinate. -/
theorem Walks.exists_major {major minor : Point → Int} {calls : List Point}
    (walks : Walks major minor p q calls)
    (count : calls.length = (major q - major p).natAbs + 1) {v : Int}
    (lower : min (major p) (major q) ≤ v) (upper : v ≤ max (major p) (major q)) :
    ∃ r ∈ calls, major r = v := by
  have total := sign_mul_natAbs (major q - major p)
  have within : (v - major p).natAbs < calls.length := by
    rw [count]
    omega
  refine ⟨calls[(v - major p).natAbs], List.getElem_mem within, ?_⟩
  rw [walks.steps _ within]
  rcases sign_eq (major q - major p) with up | down
  · rw [up] at total ⊢
    omega
  · rw [down] at total ⊢
    omega

theorem mem_linePixels_vertical :
    p ∈ linePixels x y1 x y2 ↔ p ∈ spanned x y1 x y2 := by
  have line := isLine_linePixels x y1 x y2
  refine ⟨line.inside p, fun inside => ?_⟩
  have walks := line.steep (by simp)
  obtain ⟨r, member, same⟩ := walks.exists_major (v := p.2) (by rw [line.count]; simp)
    inside.2.2.1 inside.2.2.2
  have column := line.inside r member
  obtain rfl : r = p := by
    apply Prod.ext _ same
    have left := inside.1
    have right := inside.2.1
    have left' := column.1
    have right' := column.2.1
    dsimp only at left right left' right'
    omega
  exact member

theorem mem_linePixels_horizontal :
    p ∈ linePixels x1 y x2 y ↔ p ∈ spanned x1 y x2 y := by
  have line := isLine_linePixels x1 y x2 y
  refine ⟨line.inside p, fun inside => ?_⟩
  rcases eq_or_ne x1 x2 with rfl | apart
  · exact mem_linePixels_vertical.mpr inside
  · have walks := line.wide (by simpa [sub_eq_zero] using apart.symm)
    obtain ⟨r, member, same⟩ := walks.exists_major (v := p.1) (by rw [line.count]; simp)
      inside.1 inside.2.1
    have row := line.inside r member
    obtain rfl : r = p := by
      apply Prod.ext same
      have top := inside.2.2.1
      have bottom := inside.2.2.2
      have top' := row.2.2.1
      have bottom' := row.2.2.2
      dsimp only at top bottom top' bottom'
      omega
    exact member

/-- The four lines make up the frame. -/
theorem mem_frame_iff : p ∈ frame x1 y1 x2 y2 ↔
    p ∈ spanned x1 y1 x2 y1 ∨ p ∈ spanned x1 y1 x1 y2 ∨ p ∈ spanned x1 y2 x2 y2 ∨
      p ∈ spanned x2 y1 x2 y2 := by
  simp only [frame, spanned, Set.mem_ofPred_eq, mem_box]
  omega

end Lines

namespace GraphDev

variable {dev : GraphDev Px} {x1 y1 x2 y2 : Int} {fuel : Nat}

/-- The device with some pixels in a colour. -/
def paint (dev : GraphDev Px) (dots : Point → Prop) [DecidablePred dots] (color : Px) :
    GraphDev Px :=
  { dev with pixel := fun p => if dots p then color else dev.pixel p }

theorem drawLineColor_eq (start : dev.OnScreen x1 y1) (finish : dev.OnScreen x2 y2) (color : Px)
    (enough : max (x2 - x1).natAbs (y2 - y1).natAbs < fuel) :
    dev.drawLineColor fuel x1 y1 x2 y2 color =
      some (.ok (dev.paint (· ∈ linePixels x1 y1 x2 y2) color)) := by
  have line := isLine_linePixels x1 y1 x2 y2
  apply (plots_linePixels start finish).drawLineColor
  · intro p member
    exact onScreen_of_inside start finish (line.inside p member)
  · rw [line.count]
    exact enough

theorem paint_congr {dots dots' : Point → Prop} [DecidablePred dots] [DecidablePred dots']
    (same : ∀ p, dots p ↔ dots' p) (color : Px) : dev.paint dots color = dev.paint dots' color := by
  unfold paint
  congr 1
  funext p
  exact if_congr (same p) rfl rfl

/-- One line more in the colour of those before it. -/
theorem drawLineColor_paint {dots : Point → Prop} [DecidablePred dots]
    (start : dev.OnScreen x1 y1) (finish : dev.OnScreen x2 y2) (color : Px)
    (enough : max (x2 - x1).natAbs (y2 - y1).natAbs < fuel) :
    (dev.paint dots color).drawLineColor fuel x1 y1 x2 y2 color =
      some (.ok (dev.paint (fun p => p ∈ linePixels x1 y1 x2 y2 ∨ dots p) color)) := by
  rw [@drawLineColor_eq Px (dev.paint dots color) x1 y1 x2 y2 fuel start finish color enough]
  unfold paint
  congr 3
  funext p
  by_cases drawn : p ∈ linePixels x1 y1 x2 y2
  · rw [if_pos drawn, if_pos (.inl drawn)]
  · rw [if_neg drawn]
    exact if_congr (or_iff_right drawn).symm rfl rfl

/-- Between two points of the screen `DrawRect` ends, and has drawn the frame and nothing else. -/
theorem drawRect_frame (start : dev.OnScreen x1 y1) (finish : dev.OnScreen x2 y2) (color : Px)
    (enough : max (x2 - x1).natAbs (y2 - y1).natAbs < fuel) :
    dev.drawRect fuel x1 y1 x2 y2 color =
      some (.ok (dev.paint (· ∈ frame x1 y1 x2 y2) color)) := by
  obtain ⟨left, right, top, bottom⟩ := start
  obtain ⟨left', right', top', bottom'⟩ := finish
  obtain ⟨wide, high⟩ := max_lt_iff.mp enough
  have across : max (x2 - x1).natAbs 0 < fuel := max_lt wide (Nat.zero_lt_of_lt wide)
  have down : max 0 (y2 - y1).natAbs < fuel := max_lt (Nat.zero_lt_of_lt high) high
  rw [drawRect, if_pos ⟨⟨left, right, top, bottom⟩, ⟨left', right', top', bottom'⟩⟩,
    drawLineColor_eq ⟨left, right, top, bottom⟩ ⟨left', right', top, bottom⟩ color
      (by rwa [sub_self]), andThen, Option.bind_some]
  dsimp only
  rw [drawLineColor_paint ⟨left, right, top, bottom⟩ ⟨left, right, top', bottom'⟩ color
    (by rwa [sub_self]), andThen, Option.bind_some]
  dsimp only
  rw [drawLineColor_paint ⟨left, right, top', bottom'⟩ ⟨left', right', top', bottom'⟩ color
    (by rwa [sub_self]), andThen, Option.bind_some]
  dsimp only
  rw [drawLineColor_paint ⟨left', right', top, bottom⟩ ⟨left', right', top', bottom'⟩ color
    (by rwa [sub_self])]
  congr 2
  apply paint_congr
  intro p
  rw [mem_frame_iff, mem_linePixels_vertical, mem_linePixels_vertical, mem_linePixels_horizontal,
    mem_linePixels_horizontal]
  tauto

/-- The corners may be given in any order. -/
theorem drawRect_frame_sheet :
    sheet.drawRect 6 6 1 1 4 true = some (.ok (sheet.paint (· ∈ frame 6 1 1 4) true)) :=
  drawRect_frame (by decide) (by decide) true (by decide)

end GraphDev

namespace Rect

/-- The dots of an outline are the frame. -/
theorem mem_outlineDots {w h : Int} {p : Point} :
    p ∈ outlineDots w h ↔ p ∈ frame 0 0 w h := by
  simp only [outlineDots, List.mem_append, drawLine_eq_linePixels, mem_linePixels_horizontal,
    mem_linePixels_vertical, mem_frame_iff, or_assoc]

end Rect

end Ucimf.Display
