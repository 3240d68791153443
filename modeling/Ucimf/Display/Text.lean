import Ucimf.Display.Window
import Ucimf.Support.Outcome
import Mathlib.Algebra.Order.BigOperators.Group.List

/-!
# Text

A row of text is measured twice: `Text::append` and `append_next` add up the metrics widths
of the glyphs, `GraphDev::OutChar` moves the pen by the widths of their bitmaps. The two
agree but for the overhang of each bitmap over its metrics.
-/

namespace Ucimf.Display

open Outcome

variable {Px : Type}

/-- What FreeType reports of a rendered character: metrics in 64ths of a pixel, and the
bitmap by row and column. -/
structure GlyphSlot where
  metricsWidth : Nat
  metricsHeight : Nat
  horiBearingX : Int
  horiBearingY : Int
  descender : Int
  bitmapWidth : Nat
  bitmap : Nat → Nat → UInt8

/-- `Font::Glyph`. FreeType renders no bitmap of more than 0x7fff rows or columns, so the
`s16` fields hold what they are given. -/
structure Glyph where
  pitch : Nat
  width : Nat
  height : Nat
  left : Int
  top : Int
  pixmap : Nat → UInt8

/-- `load` is the search for a face with the character, and FreeType's rendering. -/
structure Font where
  width : Nat
  height : Nat
  load : Nat → Option GlyphSlot

def Font.getGlyph (font : Font) (unicode : Nat) : Option Glyph :=
  if 256 * 256 ≤ unicode then none
  else (font.load unicode).map fun slot =>
    { pitch := slot.bitmapWidth
      width := slot.metricsWidth >>> 6
      height := slot.metricsHeight >>> 6
      left := slot.horiBearingX.shiftRight 6
      top := font.height - 1 + slot.descender.shiftRight 6 - slot.horiBearingY.shiftRight 6
      pixmap := fun i => slot.bitmap (i / slot.bitmapWidth) (i % slot.bitmapWidth) }

/-! ### Measuring -/

/-- What a character adds to the length of its row. -/
def Font.measured (font : Font) (c : Nat) : Int :=
  match font.getGlyph c with
  | none => font.width
  | some glyph =>
    let delta := if font.width / 2 < glyph.width then glyph.width else font.width / 2
    delta + glyph.left

/-- The loop that measures a row. -/
def Font.rowLength (font : Font) (row : List Nat) : Int :=
  row.foldl (fun length c => length + font.measured c) 0

structure Text where
  width : Int
  height : Int
  fontHeight : Nat
  data : List (List Nat)

namespace Text

/-- `Text::Text`. -/
def new (font : Font) : Text := ⟨0, 0, font.height, []⟩

/-- The last row is taken off the list, lengthened and measured again. -/
def append (font : Font) (t : Text) (ustr : List Nat) : Text :=
  let row := t.data.getLastD [] ++ ustr
  let data := t.data.dropLast ++ [row]
  let length := font.rowLength row
  { t with
    data := data
    height := t.fontHeight * data.length
    width := if length > t.width then length else t.width }

def appendNext (font : Font) (t : Text) (ustr : List Nat) : Text :=
  let data := t.data ++ [ustr]
  let length := font.rowLength ustr
  { t with
    data := data
    height := t.fontHeight * data.length
    width := if length > t.width then length else t.width }

end Text

/-- The calls that build a text. -/
inductive Piece
  | append (ustr : List Nat)
  | appendNext (ustr : List Nat)
  deriving DecidableEq, Repr

def Text.add (font : Font) (t : Text) : Piece → Text
  | .append ustr => t.append font ustr
  | .appendNext ustr => t.appendNext font ustr

def Text.build (font : Font) (pieces : List Piece) : Text :=
  pieces.foldl (Text.add font) (.new font)

/-! ### Drawing -/

/-- The pixels of a glyph, relative to the pen. -/
def Glyph.dots (glyph : Glyph) : List Point :=
  (List.range glyph.height).flatMap fun yi =>
    ((List.range glyph.pitch).filter fun xi => glyph.pixmap (yi * glyph.pitch + xi) ≠ 0).map
      fun (xi : Nat) => ((xi : Int), glyph.top + yi)

/-- What drawing leaves: the device, the pen, and the pixels that were put. -/
structure Written (Px : Type) where
  dev : GraphDev Px
  pen : Int
  dots : List Point

/-- `GraphDev::OutChar`. -/
def GraphDev.outChar (font : Font) (dev : GraphDev Px) (fg : Px) (x y : Int) (c : Nat) :
    Except Fault (Written Px) :=
  if 0 ≤ x ∧ x + font.width ≤ dev.xres ∧ 0 ≤ y ∧ y + font.height ≤ dev.yres then
    match font.getGlyph c with
    | none => .ok ⟨dev, x + font.width, []⟩
    | some glyph => do
      let dots := glyph.dots.map fun p => (x + p.1, y + p.2)
      let dev ← dots.foldlM (fun dev p => dev.putPixel p.1 p.2 fg) dev
      let delta := if font.width / 2 < glyph.pitch then glyph.pitch else font.width / 2
      .ok ⟨dev, x + delta + glyph.left, dots⟩
  else .error .range

/-- The inner loop of `Text::draw`; `GraphPort::OutChar` adds its origin `(left, top)` and
takes it off the pen again. -/
def Text.drawRow (font : Font) (fg : Px) (left top y : Int) :
    GraphDev Px → Int → List Nat → Except Fault (Written Px)
  | dev, x, [] => .ok ⟨dev, x, []⟩
  | dev, x, c :: row => do
    let out ← dev.outChar font fg (x + left) (y + top) c
    let rest ← Text.drawRow font fg left top y out.dev (out.pen - left) row
    .ok { rest with dots := out.dots ++ rest.dots }

/-- The outer loop: the final device, and for each row the last pen and the pixels. -/
def Text.drawRows (font : Font) (fg : Px) (left top fontH : Int) :
    GraphDev Px → Nat → List (List Nat) → Except Fault (GraphDev Px × List (Written Px))
  | dev, _, [] => .ok (dev, [])
  | dev, i, row :: rows => do
    let out ← Text.drawRow font fg left top (i * fontH) dev 0 row
    let rest ← Text.drawRows font fg left top fontH out.dev (i + 1) rows
    .ok (rest.1, out :: rest.2)

def Text.draw (font : Font) (fg : Px) (left top : Int) (dev : GraphDev Px) (t : Text) :
    Except Fault (GraphDev Px × List (Written Px)) :=
  Text.drawRows font fg left top (t.fontHeight - 1) dev 0 t.data

/-! ### Advances -/

section Advance
variable (font : Font)

/-- How far `OutChar` moves the pen. -/
def Font.drawn (c : Nat) : Int :=
  match font.getGlyph c with
  | none => font.width
  | some glyph => (max glyph.pitch (font.width / 2) : Nat) + glyph.left

/-- How far the bitmap of a character reaches beyond its metrics, where half a font width
hides both. -/
def Font.overhang (c : Nat) : Int :=
  match font.getGlyph c with
  | none => 0
  | some glyph =>
    (max glyph.pitch (font.width / 2) : Nat) - (max glyph.width (font.width / 2) : Nat)

theorem Font.measured_eq (c : Nat) : font.measured c =
    match font.getGlyph c with
    | none => (font.width : Int)
    | some glyph => (max glyph.width (font.width / 2) : Nat) + glyph.left := by
  unfold Font.measured
  cases font.getGlyph c with
  | none => rfl
  | some glyph =>
    have widest : (if font.width / 2 < glyph.width then glyph.width else font.width / 2) =
        max glyph.width (font.width / 2) := by
      split <;> omega
    dsimp only
    rw [widest]

theorem Font.drawn_eq (c : Nat) : font.drawn c = font.measured c + font.overhang c := by
  rw [measured_eq, drawn, overhang]
  cases font.getGlyph c with
  | none => exact (add_zero _).symm
  | some glyph =>
    dsimp only
    ring

theorem Font.rowLength_eq (row : List Nat) :
    font.rowLength row = (row.map font.measured).sum := by
  have general : ∀ start : Int, row.foldl (fun length c => length + font.measured c) start =
      start + (row.map font.measured).sum := by
    induction row with
    | nil => exact fun start => (add_zero start).symm
    | cons c row ih =>
      intro start
      rw [List.foldl_cons, ih, List.map_cons, List.sum_cons, add_assoc]
  exact (general 0).trans (zero_add _)

/-- The overhangs of a row together. -/
def Font.rowOverhang (row : List Nat) : Int := (row.map font.overhang).sum

theorem Font.sum_drawn (row : List Nat) :
    (row.map font.drawn).sum = font.rowLength row + font.rowOverhang row := by
  rw [rowLength_eq, rowOverhang]
  induction row with
  | nil => rfl
  | cons c row ih =>
    simp only [List.map_cons, List.sum_cons, ih, drawn_eq]
    omega

end Advance

/-- No glyph reaches to the left of its pen. -/
def Font.Upright (font : Font) : Prop :=
  ∀ c glyph, font.getGlyph c = some glyph → 0 ≤ glyph.left

/-- No bitmap is narrower than the metrics of its glyph. -/
def Font.Modest (font : Font) : Prop :=
  ∀ c glyph, font.getGlyph c = some glyph → glyph.width ≤ glyph.pitch

section Upright
variable {font : Font}

theorem Font.Upright.measured_nonneg (upright : font.Upright) (c : Nat) :
    0 ≤ font.measured c := by
  rw [measured_eq]
  cases found : font.getGlyph c with
  | none => exact Int.natCast_nonneg _
  | some glyph => exact add_nonneg (Int.natCast_nonneg _) (upright c glyph found)

theorem Font.Upright.drawn_nonneg (upright : font.Upright) (c : Nat) : 0 ≤ font.drawn c := by
  rw [drawn]
  cases found : font.getGlyph c with
  | none => exact Int.natCast_nonneg _
  | some glyph => exact add_nonneg (Int.natCast_nonneg _) (upright c glyph found)

theorem Font.Upright.sum_drawn_nonneg (upright : font.Upright) (row : List Nat) :
    0 ≤ (row.map font.drawn).sum := by
  apply List.sum_nonneg
  intro advance h
  obtain ⟨c, -, rfl⟩ := List.mem_map.mp h
  exact upright.drawn_nonneg c

theorem Font.Upright.rowLength_append (upright : font.Upright) (row ustr : List Nat) :
    font.rowLength row ≤ font.rowLength (row ++ ustr) := by
  rw [rowLength_eq, rowLength_eq, List.map_append, List.sum_append]
  have more : 0 ≤ (ustr.map font.measured).sum := by
    apply List.sum_nonneg
    intro length h
    obtain ⟨c, -, rfl⟩ := List.mem_map.mp h
    exact upright.measured_nonneg c
  omega

theorem Font.Upright.rowLength_nonneg (upright : font.Upright) (row : List Nat) :
    0 ≤ font.rowLength row := upright.rowLength_append [] row

end Upright

/-! ### The width of a text -/

/-- The width of a text is the length of its longest row. -/
structure Text.Fitted (font : Font) (t : Text) : Prop where
  nonneg : 0 ≤ t.width
  rows : ∀ row ∈ t.data, font.rowLength row ≤ t.width
  tight : t.width = 0 ∨ ∃ row ∈ t.data, t.width = font.rowLength row

section Width
variable {font : Font} {t : Text}

theorem Text.Fitted.of_row (h : t.Fitted font) {t' : Text} {front : List (List Nat)}
    {row : List Nat} (data : t'.data = front ++ [row])
    (width : t'.width = if font.rowLength row > t.width then font.rowLength row else t.width)
    (kept : ∀ old ∈ t.data, old ∈ front ∨ font.rowLength old ≤ font.rowLength row)
    (front_le : ∀ old ∈ front, old ∈ t.data) : t'.Fitted font where
  nonneg := by
    have := h.nonneg
    rw [width]
    split <;> omega
  rows old hold := by
    rw [data, List.mem_append, List.mem_singleton] at hold
    rw [width]
    rcases hold with hold | rfl
    · have := h.rows old (front_le old hold)
      split <;> omega
    · split <;> omega
  tight := by
    rw [width, data]
    split
    · exact .inr ⟨row, by simp, rfl⟩
    · next shorter =>
      rcases h.tight with empty | ⟨old, hold, longest⟩
      · exact .inl empty
      · rcases kept old hold with stays | replaced
        · exact .inr ⟨old, List.mem_append_left _ stays, longest⟩
        · exact .inr ⟨row, by simp, by omega⟩

theorem Text.Fitted.append (h : t.Fitted font) (upright : font.Upright) (ustr : List Nat) :
    (t.append font ustr).Fitted font := by
  refine h.of_row rfl rfl ?_ fun old hold => List.dropLast_subset _ hold
  intro old hold
  rcases List.eq_nil_or_concat t.data with empty | ⟨front, last, same⟩
  · rw [empty] at hold
    cases hold
  · rw [same, List.concat_eq_append] at hold ⊢
    rw [List.dropLast_concat, List.getLastD_concat]
    rcases List.mem_append.mp hold with hold | hold
    · exact .inl hold
    · obtain rfl := List.mem_singleton.mp hold
      exact .inr (upright.rowLength_append old ustr)

theorem Text.Fitted.appendNext (h : t.Fitted font) (ustr : List Nat) :
    (t.appendNext font ustr).Fitted font :=
  h.of_row rfl rfl (fun _ hold => .inl hold) fun _ hold => hold

theorem Text.fitted_build (upright : font.Upright) (pieces : List Piece) :
    (Text.build font pieces).Fitted font := by
  have start : (Text.new font).Fitted font := ⟨le_rfl, by simp [Text.new], .inl rfl⟩
  unfold Text.build
  generalize Text.new font = t at start
  induction pieces generalizing t with
  | nil => exact start
  | cons piece pieces ih =>
    apply ih
    cases piece with
    | append ustr => exact start.append upright ustr
    | appendNext ustr => exact start.appendNext ustr

end Width

/-! ### The drawn width -/

section Drawing
variable {font : Font} {fg : Px} {left top y x fontH : Int} {dev : GraphDev Px}

theorem Glyph.dots_lt {glyph : Glyph} {p : Point} (hp : p ∈ glyph.dots) : p.1 < glyph.pitch := by
  simp only [dots, List.mem_flatMap, List.mem_map, List.mem_filter, List.mem_range] at hp
  obtain ⟨_, -, xi, ⟨inside, -⟩, rfl⟩ := hp
  exact Int.ofNat_lt.mpr inside

/-- The pixels of a character, with the pen at `(x, y)`. -/
def Font.stroke (font : Font) (x y : Int) (c : Nat) : List Point :=
  (font.getGlyph c).elim [] fun glyph => glyph.dots.map fun p => (x + p.1, y + p.2)

/-- Nothing is painted beyond the new pen. -/
theorem Font.Upright.stroke_le (upright : font.Upright) {c : Nat} {p : Point}
    (hp : p ∈ font.stroke x y c) : p.1 + 1 ≤ x + font.drawn c := by
  rw [Font.stroke] at hp
  rw [Font.drawn]
  cases found : font.getGlyph c with
  | none =>
    rw [found] at hp
    cases hp
  | some glyph =>
    rw [found] at hp
    obtain ⟨dot, hdot, rfl⟩ := List.mem_map.mp hp
    have inside := Glyph.dots_lt hdot
    have inward := upright c glyph found
    have covers : glyph.pitch ≤ max glyph.pitch (font.width / 2) := le_max_left _ _
    dsimp only
    omega

/-- `OutChar` puts the pixels of the character and moves the pen by its drawn width. -/
theorem GraphDev.outChar_ok {c : Nat} {out : Written Px}
    (drew : dev.outChar font fg x y c = .ok out) :
    out.pen = x + font.drawn c ∧ out.dots = font.stroke x y c ∧
      out.dots.foldlM (fun dev p => dev.putPixel p.1 p.2 fg) dev = .ok out.dev := by
  unfold outChar at drew
  split at drew
  · rw [Font.drawn, Font.stroke]
    cases found : font.getGlyph c with
    | none =>
      rw [found] at drew
      obtain rfl := Except.ok.inj drew
      exact ⟨rfl, rfl, rfl⟩
    | some glyph =>
      rw [found] at drew
      obtain ⟨dev', put, returned⟩ := bind_eq_ok.mp drew
      obtain rfl := Except.ok.inj returned
      have widest : (if font.width / 2 < glyph.pitch then glyph.pitch else font.width / 2) =
          max glyph.pitch (font.width / 2) := by
        split <;> omega
      dsimp only
      rw [widest]
      exact ⟨add_assoc _ _ _, rfl, put⟩
  · nomatch drew

/-- A row is drawn character by character, the pen moving by the drawn widths. -/
theorem Text.drawRow_cons {c : Nat} {row : List Nat} {out : Written Px}
    (drew : Text.drawRow font fg left top y dev x (c :: row) = .ok out) :
    ∃ first rest, dev.outChar font fg (x + left) (y + top) c = .ok first ∧
      Text.drawRow font fg left top y first.dev (x + font.drawn c) row = .ok rest ∧
      out = { rest with dots := first.dots ++ rest.dots } := by
  obtain ⟨first, wrote, more⟩ := bind_eq_ok.mp drew
  obtain ⟨rest, continued, returned⟩ := bind_eq_ok.mp more
  obtain ⟨pen, -, -⟩ := GraphDev.outChar_ok wrote
  have next : first.pen - left = x + font.drawn c := by omega
  rw [next] at continued
  exact ⟨first, rest, wrote, continued, (Except.ok.inj returned).symm⟩

theorem Text.drawRow_spec (upright : font.Upright) {row : List Nat} {out : Written Px}
    (drew : Text.drawRow font fg left top y dev x row = .ok out) :
    out.pen = x + (row.map font.drawn).sum ∧ ∀ p ∈ out.dots, p.1 - left + 1 ≤ out.pen := by
  induction row generalizing dev x out with
  | nil =>
    obtain rfl := Except.ok.inj drew
    exact ⟨(add_zero x).symm, by simp⟩
  | cons c row ih =>
    obtain ⟨first, rest, wrote, continued, rfl⟩ := Text.drawRow_cons drew
    obtain ⟨-, dots, -⟩ := GraphDev.outChar_ok wrote
    obtain ⟨last, later⟩ := ih continued
    have forward : x + font.drawn c ≤ rest.pen := by
      rw [last]
      exact le_add_of_nonneg_right (upright.sum_drawn_nonneg row)
    rw [List.map_cons, List.sum_cons]
    refine ⟨by dsimp only; omega, fun p hp => ?_⟩
    rcases List.mem_append.mp hp with hp | hp
    · have := upright.stroke_le (dots ▸ hp)
      dsimp only
      omega
    · exact later p hp

/-- Each row starts at `x = 0` and is drawn as long as the drawn widths of its characters. -/
theorem Text.drawRows_spec (upright : font.Upright) {i : Nat} {rows : List (List Nat)}
    {dev' : GraphDev Px} {results : List (Written Px)}
    (drew : Text.drawRows font fg left top fontH dev i rows = .ok (dev', results)) :
    results.map Written.pen = rows.map (fun row => font.rowLength row + font.rowOverhang row) ∧
      ∀ out ∈ results, ∀ p ∈ out.dots, p.1 - left + 1 ≤ out.pen := by
  induction rows generalizing dev i dev' results with
  | nil =>
    obtain ⟨-, rfl⟩ := Prod.mk.inj (Except.ok.inj drew)
    exact ⟨rfl, by simp⟩
  | cons row rows ih =>
    obtain ⟨out, wrote, more⟩ := bind_eq_ok.mp drew
    obtain ⟨rest, continued, returned⟩ := bind_eq_ok.mp more
    obtain ⟨-, rfl⟩ := Prod.mk.inj (Except.ok.inj returned)
    obtain ⟨pen, painted⟩ := Text.drawRow_spec upright wrote
    obtain ⟨pens, later⟩ := ih continued
    rw [zero_add, Font.sum_drawn] at pen
    refine ⟨by rw [List.map_cons, List.map_cons, pen, pens], ?_⟩
    rintro written (_ | ⟨_, hwritten⟩)
    · exact painted
    · exact later written hwritten

end Drawing

/-! ### Texts as shapes -/

/-- The pixels of a row, with the pen at `x`. -/
def Font.strokes (font : Font) (y : Int) : Int → List Nat → List Point
  | _, [] => []
  | x, c :: row =>
    font.stroke x y c ++ font.strokes y (x + font.drawn c) row

def Font.rowStrokes (font : Font) (fontH : Int) : Nat → List (List Nat) → List Point
  | _, [] => []
  | i, row :: rows => font.strokes (i * fontH) 0 row ++ font.rowStrokes fontH (i + 1) rows

def Text.shape (font : Font) (fg : Px) (t : Text) : Shape Px where
  xMax := t.width
  yMax := t.height
  ink := (font.rowStrokes (t.fontHeight - 1) 0 t.data).map fun p => (p.1, p.2, fg)

section Strokes
variable {font : Font} {fg : Px} {left top y x fontH : Int} {dev : GraphDev Px}

/-- Put pixels of one colour, relative to the origin of a graph port. -/
def GraphDev.putDots (fg : Px) (left top : Int) (dev : GraphDev Px) (dots : List Point) :
    Except Fault (GraphDev Px) :=
  dots.foldlM (fun dev p => dev.putPixel (left + p.1) (top + p.2) fg) dev

theorem GraphDev.putDots_append (dots more : List Point) :
    dev.putDots fg left top (dots ++ more) =
      (dev.putDots fg left top dots >>= fun dev => dev.putDots fg left top more) :=
  List.foldlM_append

theorem Font.stroke_add (c : Nat) : font.stroke (x + left) (y + top) c =
    (font.stroke x y c).map fun p => (left + p.1, top + p.2) := by
  unfold stroke
  cases font.getGlyph c with
  | none => rfl
  | some glyph =>
    rw [Option.elim_some, Option.elim_some, List.map_map]
    apply List.map_congr_left
    intro p _
    exact Prod.ext (by dsimp only [Function.comp]; omega) (by dsimp only [Function.comp]; omega)

theorem GraphDev.outChar_putDots {c : Nat} {out : Written Px}
    (drew : dev.outChar font fg (x + left) (y + top) c = .ok out) :
    dev.putDots fg left top (font.stroke x y c) = .ok out.dev := by
  obtain ⟨-, dots, put⟩ := outChar_ok drew
  rwa [dots, Font.stroke_add, List.foldlM_map] at put

theorem Text.drawRow_putDots {row : List Nat} {out : Written Px}
    (drew : Text.drawRow font fg left top y dev x row = .ok out) :
    dev.putDots fg left top (font.strokes y x row) = .ok out.dev := by
  induction row generalizing dev x out with
  | nil =>
    obtain rfl := Except.ok.inj drew
    rfl
  | cons c row ih =>
    obtain ⟨first, rest, wrote, continued, rfl⟩ := Text.drawRow_cons drew
    rw [Font.strokes, GraphDev.putDots_append, GraphDev.outChar_putDots wrote, ok_bind,
      ih continued]

theorem Text.drawRows_putDots {i : Nat} {rows : List (List Nat)} {dev' : GraphDev Px}
    {results : List (Written Px)}
    (drew : Text.drawRows font fg left top fontH dev i rows = .ok (dev', results)) :
    dev.putDots fg left top (font.rowStrokes fontH i rows) = .ok dev' := by
  induction rows generalizing dev i dev' results with
  | nil =>
    obtain ⟨rfl, -⟩ := Prod.mk.inj (Except.ok.inj drew)
    rfl
  | cons row rows ih =>
    obtain ⟨out, wrote, more⟩ := bind_eq_ok.mp drew
    obtain ⟨rest, continued, returned⟩ := bind_eq_ok.mp more
    obtain ⟨rfl, -⟩ := Prod.mk.inj (Except.ok.inj returned)
    rw [Font.rowStrokes, GraphDev.putDots_append, Text.drawRow_putDots wrote, ok_bind]
    exact ih continued

/-- Where `Text::draw` meets none of its assertions, it is the drawing of a shape. -/
theorem Text.draw_shape {t : Text} {dev' : GraphDev Px} {results : List (Written Px)}
    (drew : t.draw font fg left top dev = .ok (dev', results)) :
    (t.shape font fg).draw left top dev = .ok dev' := by
  rw [Shape.draw, Text.shape, List.foldlM_map]
  exact Text.drawRows_putDots drew

end Strokes

/-- The measured width covers what drawing the text left: the last pen of every row, and the
right edge of every painted column. -/
def Text.Covers (t : Text) (left : Int) (results : List (Written Px)) : Prop :=
  ∀ out ∈ results, out.pen ≤ t.width ∧ ∀ p ∈ out.dots, p.1 - left + 1 ≤ t.width

/-- No row reaches beyond its own length by more than a longer row makes up for. -/
def Font.Contained (font : Font) (rows : List (List Nat)) : Prop :=
  ∀ row ∈ rows, ∃ wide ∈ rows,
    font.rowOverhang row ≤ font.rowLength wide - font.rowLength row

instance (font : Font) (rows : List (List Nat)) : Decidable (font.Contained rows) :=
  inferInstanceAs (Decidable (∀ row ∈ rows, ∃ wide ∈ rows,
    font.rowOverhang row ≤ font.rowLength wide - font.rowLength row))

section Covers
variable {font : Font}

theorem Text.Fitted.covers_iff {t : Text} (fitted : t.Fitted font) (upright : font.Upright)
    {left : Int} {results : List (Written Px)}
    (pens : results.map Written.pen =
      t.data.map fun row => font.rowLength row + font.rowOverhang row)
    (painted : ∀ out ∈ results, ∀ p ∈ out.dots, p.1 - left + 1 ≤ out.pen) :
    t.Covers left results ↔ font.Contained t.data := by
  have reach : t.Covers left results ↔
      ∀ row ∈ t.data, font.rowLength row + font.rowOverhang row ≤ t.width := by
    have pen_le : (∀ out ∈ results, out.pen ≤ t.width) ↔
        ∀ row ∈ t.data, font.rowLength row + font.rowOverhang row ≤ t.width := by
      rw [← List.forall_mem_map (f := Written.pen) (P := (· ≤ t.width)), pens, List.forall_mem_map]
    rw [← pen_le]
    exact ⟨fun h out hout => (h out hout).1, fun h out hout =>
      ⟨h out hout, fun p hp => (painted out hout p hp).trans (h out hout)⟩⟩
  rw [reach]
  constructor
  · intro h row hrow
    have bound := h row hrow
    rcases fitted.tight with empty | ⟨wide, hwide, longest⟩
    · have short := upright.rowLength_nonneg row
      exact ⟨row, hrow, by omega⟩
    · exact ⟨wide, hwide, by omega⟩
  · intro h row hrow
    obtain ⟨wide, hwide, room⟩ := h row hrow
    have := fitted.rows wide hwide
    omega

theorem Font.getGlyph_eq_some {c : Nat} {glyph : Glyph} (found : font.getGlyph c = some glyph) :
    ∃ slot, font.load c = some slot ∧ glyph.pitch = slot.bitmapWidth ∧
      glyph.width = slot.metricsWidth >>> 6 ∧ glyph.left = slot.horiBearingX.shiftRight 6 := by
  unfold getGlyph at found
  split at found
  · nomatch found
  · obtain ⟨slot, loaded, rfl⟩ := Option.map_eq_some_iff.mp found
    exact ⟨slot, loaded, rfl, rfl, rfl⟩

/-- FreeType's own fields say that the font is upright. -/
theorem Font.upright_of_load
    (inward : ∀ c slot, font.load c = some slot → 0 ≤ slot.horiBearingX) : font.Upright := by
  intro c glyph found
  obtain ⟨slot, loaded, -, -, left⟩ := Font.getGlyph_eq_some found
  rw [left]
  exact Int.le_shiftRight_of_nonneg (inward c slot loaded)

theorem Font.modest_of_load
    (narrow : ∀ c slot, font.load c = some slot → slot.metricsWidth ≤ 64 * slot.bitmapWidth) :
    font.Modest := by
  intro c glyph found
  obtain ⟨slot, loaded, pitch, width, -⟩ := Font.getGlyph_eq_some found
  have := narrow c slot loaded
  rw [width, pitch, Nat.shiftRight_eq_div_pow]
  omega

theorem Font.Modest.overhang_nonneg (modest : font.Modest) (c : Nat) : 0 ≤ font.overhang c := by
  rw [overhang]
  cases found : font.getGlyph c with
  | none => exact le_rfl
  | some glyph =>
    have narrow := modest c glyph found
    have widest := max_le_max_right (font.width / 2) narrow
    dsimp only
    omega

theorem Font.rowOverhang_eq_zero {row : List Nat} (snug : ∀ c ∈ row, font.overhang c = 0) :
    font.rowOverhang row = 0 := by
  apply List.sum_eq_zero
  intro d hd
  obtain ⟨c, hc, rfl⟩ := List.mem_map.mp hd
  exact snug c hc

/-- A text of one row is covered when no character of it overhangs. -/
theorem Font.Modest.contained_singleton (modest : font.Modest) (row : List Nat) :
    font.Contained [row] ↔ ∀ c ∈ row, font.overhang c = 0 := by
  have nonneg : ∀ c ∈ row.map font.overhang, 0 ≤ c := by
    intro d hd
    obtain ⟨c, -, rfl⟩ := List.mem_map.mp hd
    exact modest.overhang_nonneg c
  have total : font.Contained [row] ↔ font.rowOverhang row = 0 := by
    have := List.sum_nonneg nonneg
    simp only [Font.Contained, List.mem_singleton, forall_eq, exists_eq_left, sub_self]
    rw [rowOverhang]
    omega
  rw [total]
  refine ⟨fun none_over c hc => ?_, Font.rowOverhang_eq_zero⟩
  exact List.all_zero_of_le_zero_le_of_sum_eq_zero nonneg none_over (List.mem_map_of_mem hc)

/-- Rows of characters that do not overhang are covered together. -/
theorem Font.contained_of_snug {rows : List (List Nat)}
    (snug : ∀ row ∈ rows, ∀ c ∈ row, font.overhang c = 0) : font.Contained rows := fun row hrow =>
  ⟨row, hrow, by rw [Font.rowOverhang_eq_zero (snug row hrow), sub_self]⟩

end Covers

/-- For a font whose glyphs do not reach to the left of the pen: wherever a built text was
drawn, its measured width covers the drawing exactly when its rows are contained. -/
theorem Text.covers_build_iff {font : Font} (upright : font.Upright) (pieces : List Piece)
    {fg : Px} {left top : Int} {dev dev' : GraphDev Px} {results : List (Written Px)}
    (drew : (Text.build font pieces).draw font fg left top dev = .ok (dev', results)) :
    (Text.build font pieces).Covers left results ↔
      font.Contained (Text.build font pieces).data := by
  obtain ⟨pens, painted⟩ := Text.drawRows_spec upright drew
  exact (Text.fitted_build upright pieces).covers_iff upright pens painted

/-- A font with one glyph, of one dot in the last column of its bitmap. -/
def dotFont (metricsWidth bitmapWidth : Nat) : Font where
  width := 8
  height := 16
  load := fun _ => some
    { metricsWidth := metricsWidth
      metricsHeight := 64
      horiBearingX := 0
      horiBearingY := 64
      descender := 0
      bitmapWidth := bitmapWidth
      bitmap := fun _ column => if column + 1 = bitmapWidth then 255 else 0 }

theorem upright_dotFont (metricsWidth bitmapWidth : Nat) :
    (dotFont metricsWidth bitmapWidth).Upright :=
  Font.upright_of_load fun _ _ loaded => by
    obtain rfl := Option.some.inj loaded
    exact le_rfl

theorem covers_narrow_dot : ∃ dev results,
    (Text.build (dotFont 576 9) [.append [65], .appendNext [66, 65]]).draw (dotFont 576 9) true 0 0
      ⟨640, 480, fun _ => false⟩ = .ok (dev, results) ∧
    (Text.build (dotFont 576 9) [.append [65], .appendNext [66, 65]]).Covers 0 results := by
  have drawn : ∃ drawn, (Text.build (dotFont 576 9) [.append [65], .appendNext [66, 65]]).draw
      (dotFont 576 9) true 0 0 ⟨640, 480, fun _ => false⟩ = .ok drawn := ⟨_, rfl⟩
  obtain ⟨⟨dev, results⟩, drew⟩ := drawn
  have snug : ∀ row ∈ [[65], [66, 65]], ∀ c ∈ row, (dotFont 576 9).overhang c = 0 := by decide
  have contained := Font.contained_of_snug snug
  exact ⟨dev, results, drew, (Text.covers_build_iff (upright_dotFont 576 9) _ drew).mpr contained⟩

/-- A bitmap of ten columns for metrics of 596/64: the text is measured 9 wide, and its
tenth column is painted. -/
theorem uncovered_wide_dot :
    (dotFont 596 10).Upright ∧
    (∀ c slot, (dotFont 596 10).load c = some slot → slot.metricsWidth ≤ 64 * slot.bitmapWidth) ∧
    ∃ dev results,
      (Text.build (dotFont 596 10) [.append [65]]).draw (dotFont 596 10) true 0 0
        ⟨640, 480, fun _ => false⟩ = .ok (dev, results) ∧
      (Text.build (dotFont 596 10) [.append [65]]).width = 9 ∧
      results.map Written.pen = [10] ∧ (9, 14) ∈ results.flatMap Written.dots ∧
      ¬ (Text.build (dotFont 596 10) [.append [65]]).Covers 0 results := by
  refine ⟨upright_dotFont 596 10, ?_, _, _, rfl, rfl, rfl, by decide, ?_⟩
  · intro c slot loaded
    obtain rfl := Option.some.inj loaded
    decide
  · intro covers
    exact absurd (covers _ (List.mem_singleton_self _)).1 (by decide)

end Ucimf.Display
