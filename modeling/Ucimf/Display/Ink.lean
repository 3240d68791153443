import Ucimf.Display.DrawRect
import Ucimf.Display.Text

/-!
# The ink of a text

`Text::draw` asks of each character that its cell lies on the screen, and of each of its dots.
Where all of them do, it paints the bitmaps of its characters in their rows, each behind the
drawn widths of those before it, and nothing else.
-/

namespace Ucimf.Display

open Outcome

variable {Px : Type}

/-! ### What is to be seen -/

/-- The bitmap of a character has a dot at `p`, relative to the pen. -/
def Font.Marks (font : Font) (c : Nat) (p : Point) : Prop :=
  c < 256 * 256 ∧ ∃ slot, font.load c = some slot ∧
    ∃ u v : Nat, u < slot.bitmapWidth ∧ v < slot.metricsHeight >>> 6 ∧ slot.bitmap v u ≠ 0 ∧
      p = ((u : Int),
        font.height - 1 + slot.descender.shiftRight 6 - slot.horiBearingY.shiftRight 6 + v)

/-- Where the pen stands behind some characters. -/
def Font.penBehind (font : Font) (before : List Nat) : Int := (before.map font.drawn).sum

namespace Text

/-- Character `c` stands in row `i` behind `before`. -/
def Stands (t : Text) (i : Nat) (before : List Nat) (c : Nat) : Prop :=
  ∃ after, t.data[i]? = some (before ++ c :: after)

/-- A dot of some character of the text lies at `p`, relative to the origin of the text. -/
def Inked (font : Font) (t : Text) (p : Point) : Prop :=
  ∃ i before c, t.Stands i before c ∧
    font.Marks c (p.1 - font.penBehind before, p.2 - i * (t.fontHeight - 1))

end Text

/-- The cell of a character, of the size of the font, lies on the screen. -/
def GraphDev.Holds (dev : GraphDev Px) (font : Font) (x y : Int) : Prop :=
  0 ≤ x ∧ x + font.width ≤ dev.xres ∧ 0 ≤ y ∧ y + font.height ≤ dev.yres

instance (dev : GraphDev Px) (font : Font) (x y : Int) : Decidable (dev.Holds font x y) :=
  inferInstanceAs (Decidable (_ ∧ _ ∧ _ ∧ _))

/-! ### Printing -/

namespace GraphDev

variable {dev : GraphDev Px} {font : Font} {fg : Px} {x y left top : Int}

/-- The cells and the dots all lie on the screen. -/
def Fits (dev : GraphDev Px) (font : Font) (cells dots : List Point) : Prop :=
  (∀ cell ∈ cells, dev.Holds font cell.1 cell.2) ∧ ∀ p ∈ dots, dev.OnScreen p.1 p.2

instance (dev : GraphDev Px) (font : Font) (cells dots : List Point) :
    Decidable (dev.Fits font cells dots) :=
  inferInstanceAs (Decidable ((∀ cell ∈ cells, _) ∧ ∀ p ∈ dots, dev.OnScreen p.1 p.2))

theorem fits_append {cells cells' dots dots' : List Point} :
    dev.Fits font (cells ++ cells') (dots ++ dots') ↔
      dev.Fits font cells dots ∧ dev.Fits font cells' dots' := by
  unfold Fits
  rw [List.forall_mem_append, List.forall_mem_append]
  exact and_and_and_comm

/-- Paint the dots, if they and the cells fit. -/
def print (dev : GraphDev Px) (font : Font) (fg : Px) (cells dots : List Point) :
    Except Fault (GraphDev Px) :=
  if dev.Fits font cells dots then .ok (dev.paint (· ∈ dots) fg) else .error .range

theorem print_nil : dev.print font fg [] [] = .ok dev := by
  rw [print, if_pos (by simp [Fits])]
  simp [paint]

/-- One printing behind another. -/
theorem print_bind (cells cells' dots dots' : List Point) :
    (dev.print font fg cells dots >>= fun dev => dev.print font fg cells' dots') =
      dev.print font fg (cells ++ cells') (dots ++ dots') := by
  unfold print
  by_cases first : dev.Fits font cells dots
  · rw [if_pos first, ok_bind]
    by_cases second : dev.Fits font cells' dots'
    · have still : (dev.paint (· ∈ dots) fg).Fits font cells' dots' := second
      rw [if_pos still, if_pos (fits_append.mpr ⟨first, second⟩)]
      unfold paint
      congr 2
      funext p
      by_cases old : p ∈ dots <;> by_cases new : p ∈ dots' <;> simp [old, new]
    · have still : ¬ (dev.paint (· ∈ dots) fg).Fits font cells' dots' := second
      rw [if_neg still, if_neg fun both => second (fits_append.mp both).2]
  · rw [if_neg first, error_bind, if_neg fun both => first (fits_append.mp both).1]

theorem putPixel_eq_print (p : Point) :
    dev.putPixel p.1 p.2 fg = dev.print font fg [] [p] := by
  unfold putPixel print
  by_cases visible : dev.OnScreen p.1 p.2
  · rw [if_pos visible, if_pos (by simpa [Fits] using visible)]
    unfold paint
    congr 2
    funext q
    rw [Function.update_apply]
    exact if_congr List.mem_singleton.symm rfl rfl
  · rw [if_neg visible, if_neg (by simpa [Fits] using visible)]

theorem putPixels_eq_print (dots : List Point) :
    dots.foldlM (fun dev p => dev.putPixel p.1 p.2 fg) dev = dev.print font fg [] dots := by
  induction dots generalizing dev with
  | nil => exact print_nil.symm
  | cons p dots ih =>
    have rest := @print_bind Px dev font fg [] [] [p] dots
    rw [List.foldlM_cons, @putPixel_eq_print Px dev font]
    simp only [ih]
    exact rest

/-- `OutChar` prints one cell. -/
theorem outChar_eq_print (c : Nat) : dev.outChar font fg x y c =
    (fun dev => ⟨dev, x + font.drawn c, font.stroke x y c⟩) <$>
      dev.print font fg [(x, y)] (font.stroke x y c) := by
  by_cases cell : dev.Holds font x y
  · have front : dev.print font fg [(x, y)] (font.stroke x y c) =
        (font.stroke x y c).foldlM (fun dev p => dev.putPixel p.1 p.2 fg) dev := by
      rw [@putPixels_eq_print Px dev font]
      exact if_congr (by simp [Fits, cell]) rfl rfl
    rw [front, outChar, Font.drawn, Font.stroke]
    refine (if_pos cell).trans ?_
    cases found : font.getGlyph c with
    | none => rfl
    | some glyph =>
      have widest : (if font.width / 2 < glyph.pitch then glyph.pitch else font.width / 2) =
          max glyph.pitch (font.width / 2) := by
        split <;> omega
      simp only [widest, add_assoc, Option.elim_some]
      rfl
  · have outside : ¬ dev.Fits font [(x, y)] (font.stroke x y c) := fun both =>
      cell (both.1 _ (List.mem_singleton_self _))
    rw [print, if_neg outside]
    exact if_neg cell

end GraphDev

/-! ### Rows -/

/-- The corners of the cells of a row, with the pen at `x`. -/
def Font.cells (font : Font) (y : Int) : Int → List Nat → List Point
  | _, [] => []
  | x, c :: row => (x, y) :: font.cells y (x + font.drawn c) row

def Font.rowCells (font : Font) (fontH : Int) : Nat → List (List Nat) → List Point
  | _, [] => []
  | i, row :: rows => font.cells (i * fontH) 0 row ++ font.rowCells fontH (i + 1) rows

/-- From the origin of a graph port to the screen. -/
def shifted (left top : Int) (dots : List Point) : List Point :=
  dots.map fun p => (left + p.1, top + p.2)

section Rows

variable {dev : GraphDev Px} {font : Font} {fg : Px} {x y left top fontH : Int}

theorem shifted_append (dots dots' : List Point) :
    shifted left top (dots ++ dots') = shifted left top dots ++ shifted left top dots' :=
  List.map_append

theorem Text.drawRow_eq_print (row : List Nat) : Text.drawRow font fg left top y dev x row =
    (fun dev => ⟨dev, x + (row.map font.drawn).sum, shifted left top (font.strokes y x row)⟩) <$>
      dev.print font fg (shifted left top (font.cells y x row))
        (shifted left top (font.strokes y x row)) := by
  induction row generalizing dev x with
  | nil =>
    have nothing : dev.print font fg (shifted left top []) (shifted left top []) = .ok dev :=
      GraphDev.print_nil
    rw [Font.cells, Font.strokes, nothing]
    simp [Text.drawRow, shifted]
  | cons c row ih =>
    have here : font.stroke (x + left) (y + top) c = shifted left top (font.stroke x y c) :=
      Font.stroke_add c
    have corner : (x + left, y + top) = (left + x, top + y) := by
      rw [add_comm x, add_comm y]
    have pen : x + left + font.drawn c - left = x + font.drawn c := by omega
    have cells : shifted left top (font.cells y x (c :: row)) =
        [(left + x, top + y)] ++ shifted left top (font.cells y (x + font.drawn c) row) := rfl
    rw [Text.drawRow, GraphDev.outChar_eq_print, here, corner, cells, Font.strokes, shifted_append,
      ← GraphDev.print_bind]
    cases dev.print font fg [(left + x, top + y)] (shifted left top (font.stroke x y c)) with
    | error e => rfl
    | ok dev =>
      simp only [Except.map_ok, ok_bind, pen, ih]
      cases dev.print font fg (shifted left top (font.cells y (x + font.drawn c) row))
          (shifted left top (font.strokes y (x + font.drawn c) row)) with
      | error e => rfl
      | ok dev => simp [add_assoc]

/-- Drawing a text prints the cells and dots of all of its rows. -/
theorem Text.drawRows_eq_print (i : Nat) (rows : List (List Nat)) :
    Prod.fst <$> Text.drawRows font fg left top fontH dev i rows =
      dev.print font fg (shifted left top (font.rowCells fontH i rows))
        (shifted left top (font.rowStrokes fontH i rows)) := by
  induction rows generalizing dev i with
  | nil => exact GraphDev.print_nil.symm
  | cons row rows ih =>
    rw [Text.drawRows, Text.drawRow_eq_print, Font.rowCells, Font.rowStrokes, shifted_append,
      shifted_append, ← GraphDev.print_bind]
    cases dev.print font fg (shifted left top (font.cells (i * fontH) 0 row))
        (shifted left top (font.strokes (i * fontH) 0 row)) with
    | error e => rfl
    | ok dev =>
      have rest := @ih dev (i + 1)
      simp only [Except.map_ok, ok_bind, ← rest]
      cases Text.drawRows font fg left top fontH dev (i + 1) rows <;> rfl

end Rows

/-! ### Where the dots are -/

section Members

variable {font : Font} {x y fontH : Int} {c : Nat} {p : Point}

theorem Font.penBehind_cons (c : Nat) (before : List Nat) :
    font.penBehind (c :: before) = font.drawn c + font.penBehind before := rfl

/-- A character of a row is its first, or one of the rest. -/
theorem exists_split_cons {P : List Nat → Nat → Prop} {row : List Nat} :
    (∃ before c' after, c :: row = before ++ c' :: after ∧ P before c') ↔
      P [] c ∨ ∃ before c' after, row = before ++ c' :: after ∧ P (c :: before) c' := by
  constructor
  · rintro ⟨before, c', after, split, holds⟩
    cases before with
    | nil =>
      obtain ⟨rfl, rfl⟩ := List.cons.inj split
      exact .inl holds
    | cons first before =>
      obtain ⟨rfl, rfl⟩ := List.cons.inj split
      exact .inr ⟨before, c', after, rfl, holds⟩
  · rintro (first | ⟨before, c', after, rfl, holds⟩)
    · exact ⟨[], c, row, rfl, first⟩
    · exact ⟨c :: before, c', after, rfl, holds⟩

theorem Font.mem_cells {row : List Nat} : p ∈ font.cells y x row ↔
    ∃ before c after, row = before ++ c :: after ∧ p = (x + font.penBehind before, y) := by
  induction row generalizing x with
  | nil => simp [cells]
  | cons c row ih =>
    have first : x + font.penBehind [] = x := add_zero x
    rw [cells, List.mem_cons, ih,
      exists_split_cons (P := fun before _ => p = (x + font.penBehind before, y))]
    simp only [first, penBehind_cons, add_assoc]

theorem Font.mem_strokes {row : List Nat} : p ∈ font.strokes y x row ↔
    ∃ before c after, row = before ++ c :: after ∧
      p ∈ font.stroke (x + font.penBehind before) y c := by
  induction row generalizing x with
  | nil => simp [strokes]
  | cons c row ih =>
    have first : x + font.penBehind [] = x := add_zero x
    rw [strokes, List.mem_append, ih,
      exists_split_cons (P := fun before c => p ∈ font.stroke (x + font.penBehind before) y c)]
    simp only [first, penBehind_cons, add_assoc]

/-- A row of a text is its first, or one of the rest. -/
theorem exists_row_cons {P : Nat → List Nat → Prop} {row : List Nat} {rows : List (List Nat)}
    {i : Nat} : (∃ k row', (row :: rows)[k]? = some row' ∧ P (i + k) row') ↔
      P i row ∨ ∃ k row', rows[k]? = some row' ∧ P (i + 1 + k) row' := by
  constructor
  · rintro ⟨k, row', found, holds⟩
    cases k with
    | zero =>
      obtain rfl := Option.some.inj found
      exact .inl holds
    | succ k =>
      refine .inr ⟨k, row', found, ?_⟩
      rwa [Nat.add_right_comm]
  · rintro (first | ⟨k, row', found, holds⟩)
    · exact ⟨0, row, rfl, first⟩
    · refine ⟨k + 1, row', found, ?_⟩
      rwa [← Nat.add_assoc, Nat.add_right_comm]

theorem Font.mem_rowCells {i : Nat} {rows : List (List Nat)} : p ∈ font.rowCells fontH i rows ↔
    ∃ k row, rows[k]? = some row ∧ p ∈ font.cells ((i + k : Nat) * fontH) 0 row := by
  induction rows generalizing i with
  | nil => simp [rowCells]
  | cons row rows ih =>
    rw [rowCells, List.mem_append, ih,
      exists_row_cons (P := fun i row => p ∈ font.cells (i * fontH) 0 row)]

theorem Font.mem_rowStrokes {i : Nat} {rows : List (List Nat)} :
    p ∈ font.rowStrokes fontH i rows ↔
      ∃ k row, rows[k]? = some row ∧ p ∈ font.strokes ((i + k : Nat) * fontH) 0 row := by
  induction rows generalizing i with
  | nil => simp [rowStrokes]
  | cons row rows ih =>
    rw [rowStrokes, List.mem_append, ih,
      exists_row_cons (P := fun i row => p ∈ font.strokes (i * fontH) 0 row)]

theorem Glyph.mem_dots {glyph : Glyph} : p ∈ glyph.dots ↔
    ∃ u v : Nat, u < glyph.pitch ∧ v < glyph.height ∧ glyph.pixmap (v * glyph.pitch + u) ≠ 0 ∧
      p = ((u : Int), glyph.top + v) := by
  simp only [dots, List.mem_flatMap, List.mem_map, List.mem_filter, List.mem_range,
    decide_eq_true_eq]
  constructor
  · rintro ⟨v, low, u, ⟨inside, set⟩, rfl⟩
    exact ⟨u, v, inside, low, set, rfl⟩
  · rintro ⟨u, v, inside, low, set, rfl⟩
    exact ⟨v, low, u, ⟨inside, set⟩, rfl⟩

/-- The rows of the bitmap lie one behind another in the pixmap. -/
theorem GlyphSlot.pixmap_eq (slot : GlyphSlot) {u v : Nat} (inside : u < slot.bitmapWidth) :
    slot.bitmap ((v * slot.bitmapWidth + u) / slot.bitmapWidth)
      ((v * slot.bitmapWidth + u) % slot.bitmapWidth) = slot.bitmap v u := by
  have row : (v * slot.bitmapWidth + u) / slot.bitmapWidth = v := by
    rw [Nat.mul_comm, Nat.mul_add_div (Nat.zero_lt_of_lt inside), Nat.div_eq_of_lt inside,
      Nat.add_zero]
  have column : (v * slot.bitmapWidth + u) % slot.bitmapWidth = u := by
    rw [Nat.mul_add_mod_of_lt inside]
  rw [row, column]

/-- The dots of a character are those of its bitmap. -/
theorem Font.mem_stroke : p ∈ font.stroke x y c ↔ font.Marks c (p.1 - x, p.2 - y) := by
  unfold Font.stroke Font.Marks Font.getGlyph
  by_cases small : c < 256 * 256
  · rw [if_neg (Nat.not_le.mpr small)]
    cases loaded : font.load c with
    | none => simp
    | some slot =>
      simp only [Option.map_some, Option.elim_some, small, true_and, Option.some.injEq,
        exists_eq_left', List.mem_map, Glyph.mem_dots]
      constructor
      · rintro ⟨_, ⟨u, v, inside, low, set, rfl⟩, rfl⟩
        rw [slot.pixmap_eq inside] at set
        exact ⟨u, v, inside, low, set, by simp⟩
      · rintro ⟨u, v, inside, low, set, same⟩
        rw [← slot.pixmap_eq inside] at set
        refine ⟨_, ⟨u, v, inside, low, set, rfl⟩, ?_⟩
        obtain ⟨across, down⟩ := Prod.mk.inj same
        exact Prod.ext (by dsimp only; omega) (by dsimp only; omega)
  · rw [if_pos (Nat.not_lt.mp small)]
    simp [small]

end Members

/-! ### The picture -/

namespace Text

variable {dev dev' : GraphDev Px} {font : Font} {fg : Px} {left top : Int} {t : Text} {p : Point}

theorem inked_iff : t.Inked font p ↔ p ∈ font.rowStrokes (t.fontHeight - 1) 0 t.data := by
  simp only [Inked, Stands, Font.mem_rowStrokes, Font.mem_strokes, Font.mem_stroke, Nat.zero_add,
    Int.zero_add]
  constructor
  · rintro ⟨i, before, c, ⟨after, found⟩, marks⟩
    exact ⟨i, _, found, before, c, after, rfl, marks⟩
  · rintro ⟨i, _, found, before, c, after, rfl, marks⟩
    exact ⟨i, before, c, ⟨after, found⟩, marks⟩

instance : DecidablePred (t.Inked font) := fun p =>
  decidable_of_iff (p ∈ font.rowStrokes (t.fontHeight - 1) 0 t.data) inked_iff.symm

theorem stands_iff {corner : Point} :
    (∃ i before c, t.Stands i before c ∧
      corner = (font.penBehind before, i * ((t.fontHeight : Int) - 1))) ↔
      corner ∈ font.rowCells (t.fontHeight - 1) 0 t.data := by
  simp only [Stands, Font.mem_rowCells, Font.mem_cells, Nat.zero_add, Int.zero_add]
  constructor
  · rintro ⟨i, before, c, ⟨after, found⟩, rfl⟩
    exact ⟨i, _, found, before, c, after, rfl, rfl⟩
  · rintro ⟨i, _, found, before, c, after, rfl, rfl⟩
    exact ⟨i, before, c, ⟨after, found⟩, rfl⟩

theorem fits_iff : dev.Fits font (shifted left top (font.rowCells (t.fontHeight - 1) 0 t.data))
      (shifted left top (font.rowStrokes (t.fontHeight - 1) 0 t.data)) ↔
    (∀ i before c, t.Stands i before c →
      dev.Holds font (left + font.penBehind before) (top + i * (t.fontHeight - 1))) ∧
    ∀ p, t.Inked font p → dev.OnScreen (left + p.1) (top + p.2) := by
  unfold GraphDev.Fits shifted
  rw [List.forall_mem_map, List.forall_mem_map]
  apply and_congr
  · constructor
    · intro all i before c stands
      exact all (font.penBehind before, _) (stands_iff.mp ⟨i, before, c, stands, rfl⟩)
    · intro all corner member
      obtain ⟨i, before, c, stands, rfl⟩ := stands_iff.mpr member
      exact all i before c stands
  · exact forall_congr' fun p => imp_congr_left inked_iff.symm

theorem mem_shifted {dots : List Point} :
    p ∈ shifted left top dots ↔ (p.1 - left, p.2 - top) ∈ dots := by
  unfold shifted
  rw [List.mem_map]
  constructor
  · rintro ⟨q, member, rfl⟩
    simpa using member
  · intro member
    exact ⟨_, member, by simp⟩

/-- `Text::draw` meets none of its assertions exactly when every cell and every dot lies on the
screen, and then has painted the dots and nothing else. -/
theorem draw_iff : (∃ results, t.draw font fg left top dev = .ok (dev', results)) ↔
    (∀ i before c, t.Stands i before c →
      dev.Holds font (left + font.penBehind before) (top + i * (t.fontHeight - 1))) ∧
    (∀ p, t.Inked font p → dev.OnScreen (left + p.1) (top + p.2)) ∧
    dev' = dev.paint (fun p => t.Inked font (p.1 - left, p.2 - top)) fg := by
  have printed := @drawRows_eq_print Px dev font fg left top (t.fontHeight - 1) 0 t.data
  have picture : dev.paint (· ∈ shifted left top (font.rowStrokes (t.fontHeight - 1) 0 t.data)) fg =
      dev.paint (fun p => t.Inked font (p.1 - left, p.2 - top)) fg :=
    GraphDev.paint_congr (fun _ => mem_shifted.trans inked_iff.symm) fg
  have drew : (∃ results, t.draw font fg left top dev = .ok (dev', results)) ↔
      Prod.fst <$> t.draw font fg left top dev = .ok dev' := by
    rw [map_eq_ok]
    constructor
    · rintro ⟨results, returned⟩
      exact ⟨_, returned, rfl⟩
    · rintro ⟨⟨_, results⟩, returned, rfl⟩
      exact ⟨results, returned⟩
  rw [drew, draw, printed, GraphDev.print, picture, ← and_assoc, ← fits_iff]
  by_cases fits : dev.Fits font (shifted left top (font.rowCells (t.fontHeight - 1) 0 t.data))
      (shifted left top (font.rowStrokes (t.fontHeight - 1) 0 t.data))
  · rw [if_pos fits, and_iff_right fits]
    exact ⟨fun same => (Except.ok.inj same).symm, fun same => congrArg _ same.symm⟩
  · rw [if_neg fits]
    exact ⟨nofun, fun both => absurd both.1 fits⟩

end Text

end Ucimf.Display
