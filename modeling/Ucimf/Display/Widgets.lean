import Ucimf.Display.Text
import Ucimf.Display.Render
import Mathlib.Data.List.Induction

/-!
# The widgets

What `Status`, `Preedit` and `LookupChoice` draw: rectangles at the corner of the window
with the texts inside their border. A rectangle paints nothing beyond its own width and
height, and all offsets are positive, so the measured window contains it.
-/

namespace Ucimf.Display

open Outcome

variable {ι Px : Type}

/-! ### Lines and rectangles -/

/-- The two loops of `GraphDev::DrawLine`: one step along the major axis at a time, and one
along the minor axis whenever `d` says so. -/
def lineWalk (sMajor sMinor aMajor aMinor : Int) : Nat → Int → Int → Int → List Point
  | 0, x, y, _ => [(x, y)]
  | n + 1, x, y, d =>
    (x, y) ::
      if 0 < d ∨ d = 0 ∧ sMajor = 1 then
        lineWalk sMajor sMinor aMajor aMinor n (x + sMajor) (y + sMinor) (d - aMajor + aMinor)
      else lineWalk sMajor sMinor aMajor aMinor n (x + sMajor) y (d + aMinor)

/-- `GraphDev::DrawLine`. -/
def drawLine (x1 y1 x2 y2 : Int) : List Point :=
  let dx := x2 - x1
  let dy := y2 - y1
  let ax := 2 * dx.natAbs
  let ay := 2 * dy.natAbs
  let sx : Int := if 0 ≤ dx then 1 else -1
  let sy : Int := if 0 ≤ dy then 1 else -1
  if ax > ay then lineWalk sx sy ax ay dx.natAbs x1 y1 (ay - dx.natAbs)
  else (lineWalk sy sx ay ax dy.natAbs y1 x1 (ax - dy.natAbs)).map Prod.swap

theorem lineWalk_straight {a : Int} {n : Nat} {x y d : Int} (flat : d < 0 ∨ n = 0) {p : Point}
    (hp : p ∈ lineWalk 1 1 a 0 n x y d) : x ≤ p.1 ∧ p.1 ≤ x + n ∧ p.2 = y := by
  induction n generalizing x with
  | zero =>
    obtain rfl := List.mem_singleton.mp hp
    dsimp only
    omega
  | succ n ih =>
    have level : d < 0 := flat.resolve_right (Nat.succ_ne_zero n)
    rw [lineWalk, if_neg (by omega), add_zero] at hp
    rcases List.mem_cons.mp hp with rfl | hp
    · dsimp only
      omega
    · have later := ih (.inl level) hp
      push_cast
      omega

theorem drawLine_horizontal {x1 x2 y : Int} (ordered : x1 ≤ x2) {p : Point}
    (hp : p ∈ drawLine x1 y x2 y) : x1 ≤ p.1 ∧ p.1 ≤ x2 ∧ p.2 = y := by
  obtain ⟨n, rfl⟩ := Int.le.dest ordered
  have dx : ((x1 + n - x1).natAbs : Nat) = n := by omega
  simp only [drawLine, dx, sub_self, Int.natAbs_zero, mul_zero, le_refl, if_true] at hp
  split at hp
  · next long =>
    rw [if_pos (by omega)] at hp
    exact lineWalk_straight (.inl (by push_cast; omega)) hp
  · next short =>
    obtain ⟨q, hq, rfl⟩ := List.mem_map.mp hp
    obtain rfl := List.mem_singleton.mp hq
    dsimp only [Prod.swap]
    omega

theorem drawLine_vertical {x y1 y2 : Int} (ordered : y1 ≤ y2) {p : Point}
    (hp : p ∈ drawLine x y1 x y2) : y1 ≤ p.2 ∧ p.2 ≤ y2 ∧ p.1 = x := by
  obtain ⟨n, rfl⟩ := Int.le.dest ordered
  have dy : ((y1 + n - y1).natAbs : Nat) = n := by omega
  simp only [drawLine, dy, sub_self, Int.natAbs_zero, mul_zero, le_refl, if_true] at hp
  rw [if_neg (by omega), if_pos (by omega)] at hp
  obtain ⟨q, hq, rfl⟩ := List.mem_map.mp hp
  exact lineWalk_straight (by push_cast; omega) hq

structure Rect (Px : Type) where
  width : Int
  height : Int
  color : Px
  beFilled : Bool

namespace Rect

/-- `FillRect( 0, 0, w, h )`, row by row. -/
def fillDots (w h : Int) : List Point :=
  (List.range (h + 1).toNat).flatMap fun (j : Nat) =>
    (List.range (w + 1).toNat).map fun (i : Nat) => ((i : Int), (j : Int))

/-- `DrawRect( 0, 0, w, h )`. -/
def outlineDots (w h : Int) : List Point :=
  drawLine 0 0 w 0 ++ drawLine 0 0 0 h ++ drawLine 0 h w h ++ drawLine w 0 w h

/-- `Rect::draw`, with `x_max` and `y_max`. -/
def shape (r : Rect Px) : Shape Px where
  xMax := r.width
  yMax := r.height
  ink := (if r.beFilled then fillDots r.width r.height else outlineDots r.width r.height).map
    fun p => (p.1, p.2, r.color)

theorem fillDots_inside {w h : Int} {p : Point} (hp : p ∈ fillDots w h) :
    0 ≤ p.1 ∧ p.1 ≤ w ∧ 0 ≤ p.2 ∧ p.2 ≤ h := by
  simp only [fillDots, List.mem_flatMap, List.mem_map, List.mem_range] at hp
  obtain ⟨j, hj, i, hi, rfl⟩ := hp
  dsimp only
  omega

theorem outlineDots_inside {w h : Int} (hw : 0 ≤ w) (hh : 0 ≤ h) {p : Point}
    (hp : p ∈ outlineDots w h) : 0 ≤ p.1 ∧ p.1 ≤ w ∧ 0 ≤ p.2 ∧ p.2 ≤ h := by
  simp only [outlineDots, List.mem_append, or_assoc] at hp
  rcases hp with top | left | bottom | right
  · have := drawLine_horizontal hw top
    omega
  · have := drawLine_vertical hh left
    omega
  · have := drawLine_horizontal hw bottom
    omega
  · have := drawLine_vertical hh right
    omega

/-- A rectangle paints inside itself. -/
theorem ink_inside {r : Rect Px} (hw : 0 ≤ r.width) (hh : 0 ≤ r.height) {dot : Int × Int × Px}
    (hdot : dot ∈ r.shape.ink) :
    0 ≤ dot.1 ∧ dot.1 ≤ r.width ∧ 0 ≤ dot.2.1 ∧ dot.2.1 ≤ r.height := by
  obtain ⟨p, hp, rfl⟩ := List.mem_map.mp hdot
  split at hp
  · exact fillDots_inside hp
  · exact outlineDots_inside hw hh hp

end Rect

/-! ### The three widgets -/

/-- What a widget was last given, by code points. -/
inductive Content
  | status (imfName imName : List Nat)
  | preedit (buf : List Nat)
  | lookupChoice (bufs : List (List Nat))

/-- `BLACK_color` and the colours of a widget. No text is drawn in its background colour. -/
structure Look (Px : Type) where
  black : Px
  fgColor : Px
  borderColor : Px

section Widgets
variable (font : Font) (look : Look Px)

def Status.draw (imfName imName : List Nat) : Drawing Px :=
  let border : Int := 3
  let t := (Text.new font).append font imfName
  let t2 := (Text.new font).append font imName
  let r : Rect Px :=
    { width := t.width + t2.width + 2 * border
      height := max t.height t2.height + 1 * border
      color := look.black
      beFilled := true }
  let r1 : Rect Px :=
    { width := t.width + 1 * border
      height := max t.height t2.height + 1 * border
      color := look.borderColor
      beFilled := false }
  let r2 : Rect Px :=
    { width := t2.width + 1 * border
      height := max t.height t2.height + 1 * border
      color := look.borderColor
      beFilled := false }
  [(0, 0, r.shape), (0, 0, r1.shape), (border + t.width, 0, r2.shape),
    (border, border, t.shape font look.fgColor),
    (border + t.width + border, border, t2.shape font look.fgColor)]

/-- The end of `Preedit::draw` and of `LookupChoice::draw`. -/
def framed (border : Int) (t : Text) : Drawing Px :=
  let r : Rect Px :=
    { width := t.width + 1 * border
      height := t.height + 1 * border
      color := look.black
      beFilled := true }
  let r2 : Rect Px := { r with color := look.borderColor, beFilled := false }
  [(0, 0, r.shape), (0, 0, r2.shape), (border, border, t.shape font look.fgColor)]

def Preedit.draw (buf : List Nat) : Drawing Px :=
  if buf.length > 0 then framed font look 3 ((Text.new font).append font buf)
  else framed font look 0 (.new font)

/-- The loop over `bufs`: each turn appends a row and sets the border to 3. -/
def LookupChoice.rows (bufs : List (List Nat)) : Int × Text :=
  bufs.foldl (fun (_, t) buf => (3, t.appendNext font buf)) (0, .new font)

def LookupChoice.draw (bufs : List (List Nat)) : Drawing Px :=
  let (border, t) := LookupChoice.rows font bufs
  framed font look border t

def Content.draw : Content → Drawing Px
  | .status imfName imName => Status.draw font look imfName imName
  | .preedit buf => Preedit.draw font look buf
  | .lookupChoice bufs => LookupChoice.draw font look bufs

end Widgets

/-! ### Sizes -/

section Sizes
variable (font : Font) (look : Look Px)

theorem Text.width_append (t : Text) (ustr : List Nat) : t.width ≤ (t.append font ustr).width := by
  simp only [Text.append]
  split <;> omega

theorem Text.width_appendNext (t : Text) (ustr : List Nat) :
    t.width ≤ (t.appendNext font ustr).width := by
  simp only [Text.appendNext]
  split <;> omega

theorem LookupChoice.rows_append (bufs : List (List Nat)) (buf : List Nat) :
    LookupChoice.rows font (bufs ++ [buf]) =
      (3, (LookupChoice.rows font bufs).2.appendNext font buf) := by
  rw [rows, List.foldl_append]
  rfl

/-- A window of candidates is as high as its rows, and has a border if there are any. -/
theorem LookupChoice.rows_size (bufs : List (List Nat)) :
    (LookupChoice.rows font bufs).2.fontHeight = font.height ∧
      (LookupChoice.rows font bufs).2.data = bufs ∧
      (LookupChoice.rows font bufs).2.height = font.height * bufs.length ∧
      0 ≤ (LookupChoice.rows font bufs).2.width ∧
      (LookupChoice.rows font bufs).1 = if bufs = [] then 0 else 3 := by
  induction bufs using List.reverseRecOn with
  | nil => exact ⟨rfl, rfl, by simp [rows, Text.new], le_rfl, rfl⟩
  | append_singleton bufs buf ih =>
    obtain ⟨fontHeight, data, -, width, -⟩ := ih
    rw [rows_append]
    refine ⟨fontHeight, ?_, ?_, width.trans (Text.width_appendNext font _ buf), by simp⟩
    · simp only [Text.appendNext, data]
    · simp only [Text.appendNext, data, fontHeight]

theorem framed_extent {border : Int} {t : Text} (hborder : 0 ≤ border) (hw : 0 ≤ t.width)
    (hh : 0 ≤ t.height) :
    (framed font look border t).extent 0 0 = (t.width + border, t.height + border) := by
  simp only [framed, Drawing.extent, List.foldl_cons, List.foldl_nil, Rect.shape, Text.shape,
    zero_add, one_mul]
  exact Prod.ext (by dsimp only; omega) (by dsimp only; omega)

/-- How high the window of a widget gets: the rows of text, and the border if there are any.
A status window always has one row. -/
def Content.height (font : Font) : Content → Int
  | .status _ _ => font.height + 3
  | .preedit buf => if buf = [] then 0 else font.height + 3
  | .lookupChoice bufs => if bufs = [] then 0 else font.height * bufs.length + 3

theorem Text.append_new (ustr : List Nat) :
    ((Text.new font).append font ustr).height = font.height ∧
      0 ≤ ((Text.new font).append font ustr).width :=
  ⟨mul_one _, Text.width_append font (.new font) ustr⟩

theorem Status.draw_extent (imfName imName : List Nat) :
    (Status.draw font look imfName imName).extent 0 0 =
      (((Text.new font).append font imfName).width + ((Text.new font).append font imName).width + 6,
        (font.height : Int) + 3) := by
  obtain ⟨height, width⟩ := Text.append_new font imfName
  obtain ⟨height', width'⟩ := Text.append_new font imName
  simp only [Status.draw, Drawing.extent, List.foldl_cons, List.foldl_nil, Rect.shape, Text.shape,
    zero_add, one_mul, height, height', max_self]
  exact Prod.ext (by dsimp only; omega) (by dsimp only; omega)

theorem Preedit.draw_extent (buf : List Nat) :
    ((Preedit.draw font look buf).extent 0 0).2 = (Content.preedit buf).height font := by
  obtain ⟨height, width⟩ := Text.append_new font buf
  unfold Preedit.draw Content.height
  cases buf with
  | nil => exact congrArg Prod.snd (framed_extent font look le_rfl (t := .new font) le_rfl le_rfl)
  | cons c buf =>
    rw [if_pos (by simp), framed_extent font look (by decide) width (by omega), height]
    rfl

theorem LookupChoice.rows_nonneg (bufs : List (List Nat)) :
    0 ≤ (LookupChoice.rows font bufs).1 ∧ 0 ≤ (LookupChoice.rows font bufs).2.width ∧
      0 ≤ (LookupChoice.rows font bufs).2.height := by
  obtain ⟨-, -, height, width, border⟩ := LookupChoice.rows_size font bufs
  refine ⟨?_, width, ?_⟩
  · rw [border]
    split <;> decide
  · rw [height]
    exact_mod_cast Nat.zero_le _

theorem LookupChoice.draw_extent (bufs : List (List Nat)) :
    ((LookupChoice.draw font look bufs).extent 0 0).2 =
      (Content.lookupChoice bufs).height font := by
  obtain ⟨-, -, height, -, border⟩ := LookupChoice.rows_size font bufs
  obtain ⟨framing, width, high⟩ := LookupChoice.rows_nonneg font bufs
  have drawn : LookupChoice.draw font look bufs =
      framed font look (LookupChoice.rows font bufs).1 (LookupChoice.rows font bufs).2 := rfl
  rw [drawn, framed_extent font look framing width high, height, border]
  cases bufs with
  | nil => simp [Content.height]
  | cons buf bufs => rfl

/-- The window of a widget gets the height of its rows. -/
theorem Content.draw_extent (content : Content) :
    ((content.draw font look).extent 0 0).2 = content.height font := by
  cases content with
  | status imfName imName => exact congrArg Prod.snd (Status.draw_extent font look _ _)
  | preedit buf => exact Preedit.draw_extent font look buf
  | lookupChoice bufs => exact LookupChoice.draw_extent font look bufs

theorem Content.height_nonneg (content : Content) : 0 ≤ content.height font := by
  cases content with
  | status imfName imName => exact Int.natCast_nonneg (font.height + 3)
  | preedit buf =>
    simp only [Content.height]
    split <;> omega
  | lookupChoice bufs =>
    simp only [Content.height]
    split
    · exact le_rfl
    · exact Int.natCast_nonneg (font.height * bufs.length + 3)

/-- No widget draws to the left of its window or above it. -/
def Drawing.Cornered (content : Drawing Px) : Prop :=
  ∀ item ∈ content, 0 ≤ item.1 ∧ 0 ≤ item.2.1 ∧ 0 ≤ item.2.2.xMax ∧ 0 ≤ item.2.2.yMax

theorem cornered_framed {border : Int} {t : Text} (hborder : 0 ≤ border) (hw : 0 ≤ t.width)
    (hh : 0 ≤ t.height) : (framed font look border t).Cornered := by
  simp only [Drawing.Cornered, framed, List.forall_mem_cons, Rect.shape, Text.shape, one_mul,
    le_refl, true_and]
  refine ⟨by omega, by omega, ⟨hborder, hborder, hw, hh⟩, by simp⟩

theorem Content.cornered_draw (content : Content) : (content.draw font look).Cornered := by
  cases content with
  | status imfName imName =>
    obtain ⟨height, width⟩ := Text.append_new font imfName
    obtain ⟨height', width'⟩ := Text.append_new font imName
    simp only [Content.draw, Status.draw, Drawing.Cornered, List.forall_mem_cons, Rect.shape,
      Text.shape, one_mul, height, height', max_self]
    refine ⟨by omega, by omega, by omega, by omega, by omega, by simp⟩
  | preedit buf =>
    obtain ⟨height, width⟩ := Text.append_new font buf
    simp only [Content.draw, Preedit.draw]
    split
    · exact cornered_framed font look (by decide) width (by omega)
    · exact cornered_framed font look le_rfl le_rfl le_rfl
  | lookupChoice bufs =>
    obtain ⟨border, width, height⟩ := LookupChoice.rows_nonneg font bufs
    exact cornered_framed font look border width height

end Sizes

end Ucimf.Display
