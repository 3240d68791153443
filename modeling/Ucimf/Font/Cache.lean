import Ucimf.Display.Text
import Ucimf.Support.Memo
import Mathlib.Data.List.Induction

/-!
# The font and its glyph cache

`Font` asks fontconfig for an ordered list of fonts, opens their faces when they are first
needed and keeps every glyph it has rendered in pages of 256 characters, the memory of which
is not cleared before its page is used. What it answers is compared with a font that keeps
nothing and renders each character from a face just opened.

A change of the font destroys the object and makes another. The list of fonts is in a static
pointer, which is looked at even if fontconfig has returned nothing to put there.
-/

namespace Ucimf.Fonts

open Display (Glyph GlyphSlot)
open Machine Outcome Paged

/-! ### fontconfig and FreeType -/

/-- `FT_Bitmap`. `buffer` is the memory around the pointer to the first row. -/
structure Bitmap where
  width : Nat
  rows : Nat
  pitch : Int
  mono : Bool
  buffer : Int → UInt8

/-- `FT_GlyphSlot`: the metrics in 64ths of a pixel, and the rendered bitmap. -/
structure Slot where
  width : Nat
  height : Nat
  horiBearingX : Int
  horiBearingY : Int
  bitmap : Bitmap

/-- `FT_Bitmap_Size`, with `size` in 64ths of a pixel. -/
structure BitmapSize where
  size : Nat
  height : Nat
  width : Nat

/-- `FT_Face` for the size it was given. `loadGlyph` is `FT_Load_Glyph`: what the slot holds
behind it, by what the slot held before. -/
structure Face where
  scalable : Bool
  fixedWidth : Bool
  height : Nat
  maxAdvance : Nat
  descender : Int
  availableSizes : List BitmapSize
  slot : Slot
  charIndex : Nat → Nat
  loadGlyph : Nat → Nat → Slot → Slot

/-- `FcPattern` of a font. `face` is what `FT_New_Face` opens, if it does. -/
structure Pattern where
  charset : Nat → Bool
  pixelSize : Nat
  scalable : Bool
  antialias : Bool
  hinting : Bool
  hintNone : Bool
  face : Option Face

/-- `Font::mFontNames`, `mFontSize` and `mFontWidth`. -/
structure Settings where
  fontNames : List UInt8
  fontSize : Nat
  fontWidth : Int
  deriving DecidableEq, Repr

/-- `sort` holds the fonts of `FcFontSort`, if it returns a set, as `FcFontRenderPrepare` gives
them, and `unicodeMap` is the set of characters returned with them. -/
structure Fontconfig where
  sort : List UInt8 → Nat → Option (List (Option Pattern))
  unicodeMap : List UInt8 → Nat → Nat → Bool
  sameFamily : Pattern → Pattern → Bool

/-- `FT_LOAD_*`. -/
def loadNoHinting : Nat := 2
def loadRender : Nat := 4
def loadNoBitmap : Nat := 8
def loadTargetLight : Nat := 65536
def loadTargetMono : Nat := 131072

/-- The load flags of `openFont`. -/
def Pattern.loadFlags (p : Pattern) : Nat :=
  let flags := if p.scalable ∧ p.antialias then loadNoBitmap else 0
  if p.antialias then
    if ¬ p.hinting ∨ p.hintNone then flags ||| loadNoHinting else flags ||| loadTargetLight
  else flags ||| loadTargetMono

/-! ### Rendering -/

/-- A pixel of the bitmap as `getGlyph` reads it, one bit or one byte each. -/
def Bitmap.coverage (b : Bitmap) (y x : Nat) : UInt8 :=
  let row := (y : Int) * b.pitch
  if b.mono then
    if b.buffer (row + (x >>> 3 : Nat)) &&& (0x80 >>> UInt8.ofNat (x &&& 7)) ≠ 0 then 0xff else 0
  else b.buffer (row + x)

/-- The loops that copy the bitmap to the memory of a new glyph. -/
def Bitmap.copy (b : Bitmap) (fresh : Nat → UInt8) : Nat → UInt8 :=
  (List.range b.rows).foldl (fun pixmap y =>
    (List.range b.width).foldl (fun pixmap x =>
      Function.update pixmap (y * b.width + x) (b.coverage y x)) pixmap) fresh

/-- The glyph that `getGlyph` makes of a slot. -/
def Slot.glyph (s : Slot) (height : Nat) (descender : Int) (fresh : Nat → UInt8) : Glyph where
  pitch := s.bitmap.width
  width := s.width >>> 6
  height := s.height >>> 6
  left := s.horiBearingX.shiftRight 6
  top := height - 1 + descender.shiftRight 6 - s.horiBearingY.shiftRight 6
  pixmap := s.bitmap.copy fresh

/-! ### The font with its cache -/

/-- What stands in `fontFaces`: null, `-1`, or a face with its flags and its slot. -/
inductive FontFace
  | null
  | failed
  | opened (face : Face) (flags : Nat) (slot : Slot)

inductive Fault
  | uninitialized
  | overrun
  | null
  | released
  deriving DecidableEq, Repr

/-- The font object and the statics it works on. -/
structure Instance where
  unicodeMap : Nat → Bool
  fontList : List Pattern
  fontFaces : List FontFace
  glyphCache : Table Nat Nat Glyph
  height : Nat
  width : Nat

/-- The page of a character. -/
def page (unicode : Nat) : Nat := unicode >>> 8

/-- The loop of `createInstance`: of each family the first font is kept. -/
def Fontconfig.families (fc : Fontconfig) (sorted : List (Option Pattern)) : List Pattern :=
  sorted.foldl (fun fonts font =>
    match font with
    | none => fonts
    | some font => if fonts.any (fc.sameFamily · font) then fonts else fonts ++ [font]) []

/-- What `createInstance` puts in `fontList`, if `FcFontSort` returns a set. -/
def Fontconfig.fontList (fc : Fontconfig) (s : Settings) : Option (List Pattern) :=
  (fc.sort s.fontNames s.fontSize).map fc.families

/-- `openFont` with an index of the list. -/
def Pattern.open' (p : Pattern) : FontFace :=
  match p.face with
  | none => .failed
  | some face => .opened face p.loadFlags face.slot

def Instance.openFont (o : Instance) (i : Nat) : Instance :=
  match o.fontList[i]? with
  | none => o
  | some p => { o with fontFaces := o.fontFaces.set i p.open' }

/-- The loop of `Font::Font` over the fixed sizes: the first of those that differ least. -/
def nearestSize (sizes : List BitmapSize) (size : Nat) : Option BitmapSize :=
  let step := fun (best : Nat × Nat) (i : Nat × BitmapSize) =>
    let px := i.2.size >>> 6
    let diff := (if px > size then px - size else size - px) % 2 ^ 32
    if diff < best.2 then (i.1, diff) else best
  sizes[((sizes.zipIdx.map Prod.swap).foldl step (0, 2 ^ 32 - 1)).1]?

/-- Height and width of `Font::Font`, by the first font. -/
def Pattern.cell (p : Pattern) (s : Settings) : Nat × Nat :=
  match p.face with
  | none => (0, 0)
  | some face =>
    let size :=
      if face.scalable then (face.height >>> 6, face.maxAdvance >>> 6)
      else match nearestSize face.availableSizes p.pixelSize with
        | none => (0, 0)
        | some size => (size.height, size.width)
    let width := if face.fixedWidth then size.2 else min size.2 ((size.1 + 1) / 2)
    (size.1, if s.fontWidth = 0 then width else (s.fontWidth % 2 ^ 32).toNat)

/-- `Font::Font` over the list of fonts. -/
def Fontconfig.newFont (fc : Fontconfig) (s : Settings) (first : Pattern) (others : List Pattern) :
    Instance :=
  let o : Instance :=
    { unicodeMap := fc.unicodeMap s.fontNames s.fontSize
      fontList := first :: others
      fontFaces := List.replicate (others.length + 1) .null
      glyphCache := .fresh
      height := (first.cell s).1
      width := (first.cell s).2 }
  o.openFont 0

/-- `createInstance`. `stale` tells that `fontList` still points to a list that was destroyed;
else the pointer is null. -/
def Fontconfig.createInstance (fc : Fontconfig) (stale : Bool) (s : Settings) :
    Except Fault (Option Instance) :=
  match fc.fontList s with
  | none => if stale then .error .released else .ok none
  | some [] => .ok none
  | some (first :: others) => .ok (some (fc.newFont s first others))

/-- The glyphs of a page that is in use are deleted. -/
def Instance.deletePage (o : Instance) (i : Nat) : Except Fault Unit :=
  if o.glyphCache.inited i then
    (List.range 256).forM fun j =>
      match o.glyphCache.entry (i * 256 + j) with
      | none => .error .uninitialized
      | some _ => .ok ()
  else .ok ()

/-- A face is closed if it was opened. -/
def Instance.closeFace (o : Instance) (i : Nat) : Except Fault Unit :=
  match o.fontFaces[i]? with
  | none => .error .overrun
  | some _ => .ok ()

/-- What `~Font` reads; what it frees is not looked at again. -/
def Instance.destroy (o : Instance) : Except Fault Unit := do
  (List.range 256).forM o.deletePage
  (List.range o.fontList.length).forM o.closeFace

def Instance.fontIndex (o : Instance) (unicode : Nat) : Option Nat :=
  if o.unicodeMap unicode then o.fontList.findIdx? (·.charset unicode) else none

/-- The `memset` of a page that is used for the first time. -/
def Instance.clearPage (o : Instance) (unicode : Nat) : Instance :=
  if o.glyphCache.inited (page unicode) then o
  else
    let start := unicode &&& 0xff00
    { o with glyphCache :=
        { inited := Function.update o.glyphCache.inited (page unicode) true
          entry := fun k =>
            if start ≤ k ∧ k < start + 256 then some none else o.glyphCache.entry k } }

/-- A face is opened when it is used for the first time. -/
def Instance.ensureOpen (o : Instance) (i : Nat) : Instance :=
  match o.fontFaces[i]? with
  | some .null => o.openFont i
  | _ => o

/-- `fresh` is what stands in the memory that `new` returns for the glyph of a character. -/
def Instance.getGlyph (fresh : Nat → Nat → UInt8) (o : Instance) (unicode : Nat) :
    Except Fault (Instance × Option Glyph) :=
  if 256 * 256 ≤ unicode then .ok (o, none)
  else
    let o := o.clearPage unicode
    match o.glyphCache.entry unicode with
    | none => .error .uninitialized
    | some (some glyph) => .ok (o, some glyph)
    | some none =>
      match o.fontIndex unicode with
      | none => .ok (o, none)
      | some i =>
        let o := o.ensureOpen i
        match o.fontFaces[i]? with
        | none => .error .overrun
        | some .null => .error .null
        | some .failed => .ok (o, none)
        | some (.opened face flags slot) =>
          let index := face.charIndex unicode
          if index = 0 then .ok (o, none)
          else
            let slot := face.loadGlyph (loadRender ||| flags) index slot
            let glyph := slot.glyph o.height face.descender (fresh unicode)
            .ok ({ o with
              fontFaces := o.fontFaces.set i (.opened face flags slot)
              glyphCache := o.glyphCache.store unicode glyph }, some glyph)

/-! ### The program's calls -/

inductive Call
  | getGlyph (unicode : Nat)
  | width
  | height
  | setInfo (fontNames : List UInt8) (fontSize fontWidth : Int)

inductive Reply
  | glyph (glyph : Option Glyph)
  | number (n : Nat)
  | done

/-- The static members; `stale` tells that `fontList` points to a list that was destroyed. -/
structure Statics where
  settings : Settings
  stale : Bool
  font : Option Instance

/-- The static members behind the first lines of `setInfo`. -/
def Settings.setInfo (s : Settings) (fontNames : List UInt8) (fontSize fontWidth : Int) :
    Settings where
  fontNames := if fontNames.length < 64 then fontNames else s.fontNames
  fontSize := if fontSize = 0 then s.fontSize else (fontSize % 2 ^ 32).toNat
  fontWidth := if fontWidth = 0 then s.fontWidth else fontWidth

/-- `Font::instance()`. -/
def Statics.instance' (fc : Fontconfig) (v : Statics) : Except Fault (Option Instance) :=
  match v.font with
  | some o => .ok (some o)
  | none => fc.createInstance v.stale v.settings

/-- A call of the font; the members of no font cannot be used. -/
def exec (fc : Fontconfig) (fresh : Nat → Nat → UInt8) (v : Statics) (c : Call) :
    Except Fault (Statics × Reply) := do
  match ← v.instance' fc with
  | none => .error .null
  | some o =>
    match c with
    | .getGlyph unicode =>
      let (o, glyph) ← o.getGlyph fresh unicode
      .ok ({ v with font := some o }, .glyph glyph)
    | .width => .ok ({ v with font := some o }, .number o.width)
    | .height => .ok ({ v with font := some o }, .number o.height)
    | .setInfo fontNames fontSize fontWidth =>
      let settings := v.settings.setInfo fontNames fontSize fontWidth
      o.destroy
      let font ← fc.createInstance true settings
      .ok (⟨settings, true, font⟩, .done)

/-! ### The font without a cache -/

/-- A rendered slot, by row and column. -/
def Slot.shown (s : Slot) (descender : Int) (fresh : Nat → UInt8) : GlyphSlot where
  metricsWidth := s.width
  metricsHeight := s.height
  horiBearingX := s.horiBearingX
  horiBearingY := s.horiBearingY
  descender := descender
  bitmapWidth := s.bitmap.width
  bitmap := fun row col =>
    if row < s.bitmap.rows ∧ col < s.bitmap.width then s.bitmap.coverage row col
    else fresh (row * s.bitmap.width + col)

/-- A character rendered by a face that was just opened. -/
def Pattern.render (p : Pattern) (fresh : Nat → Nat → UInt8) (unicode : Nat) : Option GlyphSlot :=
  p.face.bind fun face =>
    let index := face.charIndex unicode
    if index = 0 then none
    else some ((face.loadGlyph (loadRender ||| p.loadFlags) index face.slot).shown face.descender
      (fresh unicode))

/-- The font of the settings, if there is one. -/
def Fontconfig.font (fc : Fontconfig) (fresh : Nat → Nat → UInt8) (s : Settings) :
    Option Display.Font :=
  match fc.fontList s with
  | none => none
  | some [] => none
  | some (first :: others) =>
    some
      { width := (first.cell s).2
        height := (first.cell s).1
        load := fun unicode =>
          if fc.unicodeMap s.fontNames s.fontSize unicode then
            ((first :: others).find? (·.charset unicode)).bind (·.render fresh unicode)
          else none }

/-- A call answered by the settings alone. The font is not to be changed to settings for which
fontconfig returns no set. -/
def spec (fc : Fontconfig) (fresh : Nat → Nat → UInt8) (s : Settings) (c : Call) :
    Except Fault (Settings × Reply) :=
  match fc.font fresh s with
  | none => .error .null
  | some font =>
    match c with
    | .getGlyph unicode => .ok (s, .glyph (font.getGlyph unicode))
    | .width => .ok (s, .number font.width)
    | .height => .ok (s, .number font.height)
    | .setInfo fontNames fontSize fontWidth =>
      let s := s.setInfo fontNames fontSize fontWidth
      if (fc.sort s.fontNames s.fontSize).isNone then .error .released else .ok (s, .done)

/-! ### Copying a bitmap -/

theorem copyRow (c : Nat → UInt8) (start n : Nat) (pixmap : Nat → UInt8) (i : Nat) :
    (List.range n).foldl (fun pixmap x => Function.update pixmap (start + x) (c x)) pixmap i =
      if start ≤ i ∧ i < start + n then c (i - start) else pixmap i := by
  induction n with
  | zero => exact (if_neg fun inside => absurd inside.2 (not_lt.mpr inside.1)).symm
  | succ n ih =>
    rw [List.range_succ, List.foldl_append, List.foldl_cons, List.foldl_nil]
    by_cases last : i = start + n
    · rw [last, Function.update_self, if_pos (by omega), Nat.add_sub_cancel_left]
    · rw [Function.update_of_ne last, ih]
      exact if_congr (by omega) rfl rfl

theorem Bitmap.copy_apply (b : Bitmap) (fresh : Nat → UInt8) (i : Nat) :
    b.copy fresh i =
      if i < b.rows * b.width then b.coverage (i / b.width) (i % b.width) else fresh i := by
  unfold Bitmap.copy
  induction b.rows with
  | zero =>
    rw [Nat.zero_mul]
    exact (if_neg (Nat.not_lt_zero i)).symm
  | succ rows ih =>
    rw [List.range_succ, List.foldl_append, List.foldl_cons, List.foldl_nil, copyRow, ih,
      Nat.succ_mul]
    by_cases before : i < rows * b.width
    · rw [if_neg fun inside => absurd before (not_lt.mpr inside.1), if_pos before,
        if_pos (Nat.lt_add_right _ before)]
    · by_cases inside : i < rows * b.width + b.width
      · have row : i / b.width = rows := by
          apply Nat.div_eq_of_lt_le
          · exact not_lt.mp before
          · rwa [Nat.succ_mul]
        have col : i % b.width = i - rows * b.width := by
          rw [Nat.mod_eq_sub_div_mul, row]
        rw [if_pos ⟨not_lt.mp before, inside⟩, if_pos inside, row, col]
      · rw [if_neg fun both => inside both.2, if_neg before, if_neg inside]

/-- The copied pixels are the bitmap by row and column. -/
theorem Slot.copy_eq (s : Slot) (descender : Int) (fresh : Nat → UInt8) :
    s.bitmap.copy fresh = fun i =>
      (s.shown descender fresh).bitmap (i / s.bitmap.width) (i % s.bitmap.width) := by
  funext i
  have offset : i / s.bitmap.width * s.bitmap.width + i % s.bitmap.width = i := Nat.div_add_mod' ..
  rw [Bitmap.copy_apply, Slot.shown]
  dsimp only
  rw [offset]
  apply if_congr _ rfl rfl
  rcases Nat.eq_zero_or_pos s.bitmap.width with empty | wide
  · rw [empty, Nat.mul_zero]
    exact iff_of_false (Nat.not_lt_zero i) fun both => Nat.not_lt_zero _ both.2
  · rw [Nat.div_lt_iff_lt_mul wide]
    exact (and_iff_left (Nat.mod_lt i wide)).symm

/-! ### The cache serves the font -/

/-- A rendered slot does not depend on what the slot held before. -/
def Pattern.Renders (p : Pattern) : Prop :=
  ∀ face, p.face = some face → ∀ unicode, face.charIndex unicode ≠ 0 → ∀ slot slot',
    face.loadGlyph (loadRender ||| p.loadFlags) (face.charIndex unicode) slot =
      face.loadGlyph (loadRender ||| p.loadFlags) (face.charIndex unicode) slot'

/-- The font was not opened yet, or was opened as its pattern says. -/
def Pattern.Holds (p : Pattern) : FontFace → Prop
  | .null => True
  | .failed => p.face = none
  | .opened face flags _ => p.face = some face ∧ flags = p.loadFlags

/-- The object answers for the font. -/
structure Instance.Serves (fresh : Nat → Nat → UInt8) (font : Display.Font) (o : Instance) :
    Prop where
  height : font.height = o.height
  width : font.width = o.width
  load : ∀ unicode, font.load unicode =
    (o.fontIndex unicode).bind fun i => o.fontList[i]?.bind (·.render fresh unicode)
  renders : ∀ p ∈ o.fontList, p.Renders
  length : o.fontFaces.length = o.fontList.length
  faces : ∀ (i : Nat) (p : Pattern) (face : FontFace),
    o.fontList[i]? = some p → o.fontFaces[i]? = some face → p.Holds face
  cache : o.glyphCache.Caches page font.getGlyph

theorem Pattern.holds_open (p : Pattern) : p.Holds p.open' := by
  unfold Pattern.open'
  split
  · next none => exact none
  · next face opened => exact ⟨opened, rfl⟩

theorem and_pageMask {unicode : Nat} (inside : unicode < 256 * 256) :
    unicode &&& 0xff00 = unicode / 256 * 256 := by
  have shifted : unicode &&& 0xff00 = (unicode >>> 8 &&& 0xff) <<< 8 := by
    apply Nat.eq_of_testBit_eq
    intro j
    have mask : (0xff00 : Nat) = 0xff <<< 8 := rfl
    rw [mask, Nat.testBit_and, Nat.testBit_shiftLeft, Nat.testBit_shiftLeft, Nat.testBit_and,
      Nat.testBit_shiftRight]
    by_cases high : 8 ≤ j
    · rw [Nat.add_sub_cancel' high, Bool.and_left_comm]
    · rw [decide_eq_false high, Bool.false_and, Bool.false_and, Bool.and_false]
  have low : unicode >>> 8 &&& 0xff = unicode >>> 8 % 2 ^ 8 := Nat.and_two_pow_sub_one_eq_mod _ 8
  rw [shifted, low, Nat.shiftLeft_eq, Nat.shiftRight_eq_div_pow]
  omega

/-- The characters of a page are those that the `memset` clears. -/
theorem page_eq_iff {unicode : Nat} (inside : unicode < 256 * 256) (k : Nat) :
    (unicode &&& 0xff00 ≤ k ∧ k < (unicode &&& 0xff00) + 256) ↔ page k = page unicode := by
  rw [and_pageMask inside, page, page, Nat.shiftRight_eq_div_pow, Nat.shiftRight_eq_div_pow]
  omega

namespace Instance

variable {fresh : Nat → Nat → UInt8} {font : Display.Font} {o : Instance}

theorem clearPage_eq (o : Instance) {unicode : Nat} (inside : unicode < 256 * 256) :
    o.clearPage unicode = { o with glyphCache := o.glyphCache.touch page (page unicode) } := by
  unfold clearPage Table.touch
  by_cases touched : o.glyphCache.inited (page unicode) = true
  · rw [if_pos touched, if_pos touched]
  · rw [if_neg touched, if_neg touched]
    dsimp only
    congr 2
    funext k
    exact if_congr (page_eq_iff inside k) rfl rfl

theorem Serves.clearPage (h : o.Serves fresh font) {unicode : Nat} (inside : unicode < 256 * 256) :
    (o.clearPage unicode).Serves fresh font := by
  rw [o.clearPage_eq inside]
  exact { h with cache := h.cache.touch _ }

/-- What is found in the cache of a page that was cleared. -/
theorem Serves.entry (h : o.Serves fresh font) {unicode : Nat} (inside : unicode < 256 * 256) :
    ∃ entry, (o.clearPage unicode).glyphCache.entry unicode = some entry ∧
      ∀ glyph, entry = some glyph → font.getGlyph unicode = some glyph := by
  apply (h.clearPage inside).cache
  rw [o.clearPage_eq inside]
  exact o.glyphCache.touch_inited _

theorem ensureOpen_eq (o : Instance) (i : Nat) :
    o.ensureOpen i = o ∨ ∃ p, o.fontList[i]? = some p ∧
      o.ensureOpen i = { o with fontFaces := o.fontFaces.set i p.open' } := by
  unfold ensureOpen openFont
  split
  · cases found : o.fontList[i]? with
    | none => exact .inl rfl
    | some p => exact .inr ⟨p, rfl, rfl⟩
  · exact .inl rfl

/-- A font that holds may be put in place of another. -/
theorem Serves.setFace (h : o.Serves fresh font) {i : Nat} {p : Pattern}
    (here : o.fontList[i]? = some p) {face : FontFace} (holds : p.Holds face) :
    { o with fontFaces := o.fontFaces.set i face }.Serves fresh font :=
  { h with
    length := List.length_set.trans h.length
    faces := by
      intro j q face' listed stands
      rw [List.getElem?_set] at stands
      split at stands
      · next same =>
        subst same
        obtain rfl := Option.some.inj (here.symm.trans listed)
        split at stands
        · obtain rfl := Option.some.inj stands
          exact holds
        · cases stands
      · exact h.faces j q face' listed stands }

theorem Serves.ensureOpen (h : o.Serves fresh font) (i : Nat) :
    (o.ensureOpen i).Serves fresh font := by
  rcases o.ensureOpen_eq i with same | ⟨p, here, opened⟩
  · rwa [same]
  · rw [opened]
    exact h.setFace here p.holds_open

/-- Behind `ensureOpen` a font of the list was tried. -/
theorem Serves.opened (h : o.Serves fresh font) {i : Nat} {p : Pattern}
    (here : o.fontList[i]? = some p) :
    (o.ensureOpen i).fontFaces[i]? = some .failed ∧ p.face = none ∨
      ∃ face slot, (o.ensureOpen i).fontFaces[i]? = some (.opened face p.loadFlags slot) ∧
        p.face = some face := by
  have inside : i < o.fontFaces.length := by
    rw [h.length]
    exact (List.getElem?_eq_some_iff.mp here).1
  have stands : o.fontFaces[i]? = some o.fontFaces[i] := List.getElem?_eq_getElem inside
  have holds := h.faces i p _ here stands
  unfold Instance.ensureOpen
  generalize o.fontFaces[i] = face at stands holds
  rw [stands]
  cases face with
  | null =>
    dsimp only
    unfold openFont
    rw [here]
    dsimp only
    rw [List.getElem?_set_self inside]
    unfold Pattern.open'
    split
    · next none => exact .inl ⟨rfl, none⟩
    · next face opened => exact .inr ⟨face, face.slot, rfl, opened⟩
  | failed => exact .inl ⟨stands, holds⟩
  | opened face flags slot =>
    obtain ⟨opened, rfl⟩ := holds
    exact .inr ⟨face, slot, stands, opened⟩

theorem fontList_ensureOpen (o : Instance) (i : Nat) : (o.ensureOpen i).fontList = o.fontList := by
  rcases o.ensureOpen_eq i with same | ⟨p, -, opened⟩
  · rw [same]
  · rw [opened]

theorem listed_of_fontIndex {unicode i : Nat} (found : o.fontIndex unicode = some i) :
    ∃ p, o.fontList[i]? = some p := by
  unfold fontIndex at found
  split at found
  · obtain ⟨inside, -⟩ := List.findIdx?_eq_some_iff_findIdx_eq.mp found
    exact ⟨_, List.getElem?_eq_getElem inside⟩
  · cases found

/-- The font has no glyph where the search finds none to render. -/
theorem Serves.getGlyph_eq_none (h : o.Serves fresh font) {unicode : Nat}
    (missing : ((o.fontIndex unicode).bind fun i =>
      o.fontList[i]?.bind (·.render fresh unicode)) = none) : font.getGlyph unicode = none := by
  unfold Display.Font.getGlyph
  rw [h.load, missing]
  exact ite_self none

/-- The glyph that the font has of a character, as it is made of a slot. -/
theorem Serves.getGlyph_eq_some (h : o.Serves fresh font) {unicode i : Nat}
    (inside : unicode < 256 * 256) (found : o.fontIndex unicode = some i) {p : Pattern}
    (here : o.fontList[i]? = some p) {face : Face} (opened : p.face = some face)
    (mapped : face.charIndex unicode ≠ 0) (slot : Slot) :
    font.getGlyph unicode =
      some ((face.loadGlyph (loadRender ||| p.loadFlags) (face.charIndex unicode) slot).glyph
        font.height face.descender (fresh unicode)) := by
  have same := h.renders p (List.mem_of_getElem? here) face opened unicode mapped slot face.slot
  have rendered : p.render fresh unicode =
      some ((face.loadGlyph (loadRender ||| p.loadFlags) (face.charIndex unicode) slot).shown
        face.descender (fresh unicode)) := by
    rw [Pattern.render, opened, Option.bind_some]
    dsimp only
    rw [if_neg mapped, same]
  rw [Display.Font.getGlyph, if_neg (not_le.mpr inside), h.load, found, Option.bind_some, here,
    Option.bind_some, rendered, Option.map_some, Slot.glyph, Slot.copy_eq _ face.descender]
  rfl

/-- One call: the cache is used without being read before it is written, and the answer is
the font's. -/
theorem Serves.getGlyph (h : o.Serves fresh font) (unicode : Nat) :
    ∃ o' : Instance, o.getGlyph fresh unicode = .ok (o', font.getGlyph unicode) ∧
      o'.Serves fresh font := by
  unfold Instance.getGlyph
  by_cases beyond : 256 * 256 ≤ unicode
  · rw [if_pos beyond, Display.Font.getGlyph, if_pos beyond]
    exact ⟨o, rfl, h⟩
  · rw [if_neg beyond]
    have inside := not_le.mp beyond
    obtain ⟨entry, read, cached⟩ := h.entry inside
    have cleared := h.clearPage inside
    dsimp only
    generalize o.clearPage unicode = o at read cleared
    rw [read]
    cases entry with
    | some glyph =>
      rw [cached glyph rfl]
      exact ⟨o, rfl, cleared⟩
    | none =>
      dsimp only
      cases found : o.fontIndex unicode with
      | none =>
        rw [cleared.getGlyph_eq_none (by rw [found, Option.bind_none])]
        exact ⟨o, rfl, cleared⟩
      | some i =>
        obtain ⟨p, here⟩ := listed_of_fontIndex found
        have served := cleared.ensureOpen i
        have kept : (o.ensureOpen i).fontList[i]? = some p := by rw [o.fontList_ensureOpen, here]
        dsimp only
        rcases cleared.opened here with ⟨stands, failed⟩ | ⟨face, slot, stands, opened⟩
        · rw [stands, cleared.getGlyph_eq_none (by
            rw [found, Option.bind_some, here, Option.bind_some, Pattern.render, failed,
              Option.bind_none])]
          exact ⟨_, rfl, served⟩
        · rw [stands]
          dsimp only
          by_cases unmapped : face.charIndex unicode = 0
          · rw [if_pos unmapped, cleared.getGlyph_eq_none (by
              rw [found, Option.bind_some, here, Option.bind_some, Pattern.render, opened,
                Option.bind_some, if_pos unmapped])]
            exact ⟨_, rfl, served⟩
          · have glyph := cleared.getGlyph_eq_some inside found here opened unmapped slot
            rw [if_neg unmapped, glyph, served.height]
            rw [served.height] at glyph
            have holds : p.Holds (.opened face p.loadFlags
              (face.loadGlyph (loadRender ||| p.loadFlags) (face.charIndex unicode) slot)) :=
              ⟨opened, rfl⟩
            exact ⟨_, rfl, { served.setFace kept holds with cache := served.cache.store glyph }⟩

theorem Serves.deletePage (h : o.Serves fresh font) (i : Nat) : o.deletePage i = .ok ⟨⟩ := by
  unfold Instance.deletePage
  split
  · next touched =>
    apply forM_eq_ok
    intro j member
    have small := List.mem_range.mp member
    have here : page (i * 256 + j) = i := by
      rw [page, Nat.shiftRight_eq_div_pow]
      omega
    obtain ⟨entry, read, -⟩ := h.cache (i * 256 + j) (here.symm ▸ touched)
    rw [read]
  · rfl

/-- The destructor reads nothing that was not written. -/
theorem Serves.destroy (h : o.Serves fresh font) : o.destroy = .ok ⟨⟩ := by
  have faces : ∀ i ∈ List.range o.fontList.length, o.closeFace i = .ok ⟨⟩ := by
    intro i member
    have inside := List.mem_range.mp member
    rw [← h.length] at inside
    rw [Instance.closeFace, List.getElem?_eq_getElem inside]
  rw [Instance.destroy, forM_eq_ok fun i _ => h.deletePage i, ok_bind, forM_eq_ok faces]

end Instance

/-- FreeType renders every slot anew. -/
def Fontconfig.Renders (fc : Fontconfig) : Prop :=
  ∀ names size sorted p, fc.sort names size = some sorted → some p ∈ sorted → p.Renders

section
variable {fc : Fontconfig} {fresh : Nat → Nat → UInt8}

/-- What is kept of the sorted fonts was among them. -/
theorem Fontconfig.mem_families {sorted : List (Option Pattern)} {p : Pattern}
    (member : p ∈ fc.families sorted) : some p ∈ sorted := by
  unfold Fontconfig.families at member
  induction sorted using List.reverseRecOn with
  | nil => cases member
  | append_singleton fonts font ih =>
    rw [List.foldl_append, List.foldl_cons, List.foldl_nil] at member
    apply List.mem_append.mpr
    cases font with
    | none => exact .inl (ih member)
    | some font =>
      dsimp only at member
      split at member
      · exact .inl (ih member)
      · rcases List.mem_append.mp member with before | last
        · exact .inl (ih before)
        · exact .inr (List.mem_singleton.mpr (congrArg some (List.mem_singleton.mp last)))

/-- The patterns of a list of fonts are rendered anew. -/
theorem Fontconfig.Renders.of_mem (renders : fc.Renders) {s : Settings} {fonts : List Pattern}
    (listed : fc.fontList s = some fonts) {p : Pattern} (member : p ∈ fonts) : p.Renders := by
  obtain ⟨sorted, found, rfl⟩ := Option.map_eq_some_iff.mp listed
  exact renders _ _ sorted p found (mem_families member)

/-- What a call of `createInstance` comes to: an object that answers for the font of the settings,
no object, or the read of a list that was destroyed. -/
inductive Created (fc : Fontconfig) (fresh : Nat → Nat → UInt8) (stale : Bool) (s : Settings) :
    Except Fault (Option Instance) → Prop
  | released : stale = true → fc.fontList s = none → Created fc fresh stale s (.error .released)
  | nothing : (stale = true → fc.fontList s ≠ none) → fc.font fresh s = none →
      Created fc fresh stale s (.ok none)
  | font {o font} : fc.fontList s ≠ none → fc.font fresh s = some font → o.Serves fresh font →
      Created fc fresh stale s (.ok (some o))

theorem Fontconfig.createInstance_created (renders : fc.Renders) (fresh : Nat → Nat → UInt8)
    (stale : Bool) (s : Settings) : Created fc fresh stale s (fc.createInstance stale s) := by
  unfold createInstance
  cases listed : fc.fontList s with
  | none =>
    have plain : fc.font fresh s = none := by rw [font, listed]
    cases stale with
    | false => exact .nothing nofun plain
    | true => exact .released rfl listed
  | some fonts =>
    have set : fc.fontList s ≠ none := by
      rw [listed]
      nofun
    cases fonts with
    | nil => exact .nothing (fun _ => set) (by rw [font, listed])
    | cons first others =>
      refine .font set (by rw [font, listed]) ?_
      apply Instance.Serves.setFace (p := first) _ rfl first.holds_open
      exact
        { height := rfl
          width := rfl
          load := by
            intro unicode
            unfold Instance.fontIndex
            dsimp only
            split
            · rw [List.find?_eq_bind_findIdx?_getElem?, Option.bind_assoc]
            · rfl
          renders := fun p member => renders.of_mem listed member
          length := List.length_replicate
          faces := by
            intro i p face _ stands
            rw [(List.mem_replicate.mp (List.mem_of_getElem? stands)).2]
            trivial
          cache := Table.caches_fresh }

/-- The statics, and the settings that they answer for. -/
structure Statics.Related (fc : Fontconfig) (fresh : Nat → Nat → UInt8) (v : Statics)
    (s : Settings) : Prop where
  settings : v.settings = s
  listed : v.stale = true → fc.fontList s ≠ none
  font : ∀ o, v.font = some o → ∃ font, fc.font fresh s = some font ∧ o.Serves fresh font

theorem Statics.Related.instance' {v : Statics} {s : Settings} (related : v.Related fc fresh s)
    (renders : fc.Renders) :
    v.instance' fc = .ok none ∧ fc.font fresh s = none ∨
      ∃ o font, v.instance' fc = .ok (some o) ∧ fc.font fresh s = some font ∧
        o.Serves fresh font := by
  unfold Statics.instance'
  cases kept : v.font with
  | none =>
    dsimp only
    rw [related.settings]
    have created := Fontconfig.createInstance_created renders fresh v.stale s
    generalize fc.createInstance v.stale s = result at created
    cases created with
    | released stale missing => exact absurd missing (related.listed stale)
    | nothing _ plain => exact .inl ⟨rfl, plain⟩
    | font _ plain serves => exact .inr ⟨_, _, rfl, plain, serves⟩
  | some o =>
    obtain ⟨font, plain, serves⟩ := related.font o kept
    exact .inr ⟨o, font, rfl, plain, serves⟩

theorem related_of_serves {o : Instance} {font : Display.Font} {s : Settings} {stale : Bool}
    (listed : stale = true → fc.fontList s ≠ none) (plain : fc.font fresh s = some font)
    (serves : o.Serves fresh font) : Statics.Related fc fresh ⟨s, stale, some o⟩ s where
  settings := rfl
  listed := listed
  font := by
    intro o' same
    obtain rfl := Option.some.inj same
    exact ⟨font, plain, serves⟩

/-- One call of the font is answered by the settings. -/
theorem simulates (renders : fc.Renders) :
    Simulates (exec fc fresh) (spec fc fresh) (Statics.Related fc fresh) := by
  intro v s c related
  obtain rfl := related.settings
  unfold exec spec
  rcases related.instance' renders with ⟨missing, plain⟩ | ⟨o, font, found, plain, serves⟩
  · rw [missing, plain]
    exact .inl ⟨.null, rfl, rfl⟩
  · rw [found, plain, ok_bind]
    dsimp only
    cases c with
    | getGlyph unicode =>
      obtain ⟨o', answered, still⟩ := serves.getGlyph unicode
      dsimp only
      rw [answered]
      exact .inr ⟨_, _, _, rfl, rfl, related_of_serves related.listed plain still⟩
    | width =>
      dsimp only
      rw [serves.width]
      exact .inr ⟨_, _, _, rfl, rfl, related_of_serves related.listed plain serves⟩
    | height =>
      dsimp only
      rw [serves.height]
      exact .inr ⟨_, _, _, rfl, rfl, related_of_serves related.listed plain serves⟩
    | setInfo fontNames fontSize fontWidth =>
      dsimp only
      rw [serves.destroy, ok_bind]
      generalize v.settings.setInfo fontNames fontSize fontWidth = settings
      have listed : (fc.sort settings.fontNames settings.fontSize).isNone = true ↔
          fc.fontList settings = none := by
        rw [Fontconfig.fontList, Option.map_eq_none_iff, Option.isNone_iff_eq_none]
      have created := Fontconfig.createInstance_created renders fresh true settings
      generalize fc.createInstance true settings = result at created
      cases created with
      | released _ missing =>
        rw [if_pos (listed.mpr missing)]
        exact .inl ⟨.released, rfl, rfl⟩
      | nothing set _ =>
        rw [if_neg (mt listed.mp (set rfl))]
        exact .inr ⟨_, _, _, rfl, rfl, rfl, set, nofun⟩
      | font set plain serves =>
        rw [if_neg (mt listed.mp set)]
        exact .inr ⟨_, _, _, rfl, rfl, related_of_serves (fun _ => set) plain serves⟩

theorem related_start (s : Settings) : Statics.Related fc fresh ⟨s, false, none⟩ s where
  settings := rfl
  listed := nofun
  font := nofun

/-- Whatever glyphs are asked for in whatever order, and however often the font is changed in
between, the cache is never read before it is written, by a lookup or by the destructor, and the
answers are those of fonts that render every glyph anew. -/
theorem replies_exec (renders : fc.Renders) (s : Settings) (calls : List Call) :
    replies (exec fc fresh) ⟨s, false, none⟩ calls = replies (spec fc fresh) s calls :=
  (simulates renders).replies (related_start s) calls

end

/-- A font of one character, two pixels in one byte of a bitmap. -/
def twoPixels : Pattern :=
  let slot : Slot := ⟨128, 64, 0, 64, ⟨2, 1, 1, true, fun _ => 0x80⟩⟩
  { charset := (· = 65)
    pixelSize := 8
    scalable := true
    antialias := false
    hinting := true
    hintNone := false
    face := some
      { scalable := true
        fixedWidth := true
        height := 64
        maxAdvance := 128
        descender := 0
        availableSizes := []
        slot := { slot with width := 0 }
        charIndex := fun c => if c = 65 then 1 else 0
        loadGlyph := fun _ _ _ => slot } }

def oneFont : Fontconfig where
  sort _ _ := some [none, some twoPixels, some twoPixels]
  unicodeMap _ _ c := c = 65
  sameFamily _ _ := true

theorem oneFont_renders : oneFont.Renders := by
  intro names size sorted p found member face opened unicode _ slot slot'
  obtain rfl := Option.some.inj found
  have here : p = twoPixels := by
    rcases List.mem_cons.mp member with absent | kept
    · cases absent
    · rcases List.mem_cons.mp kept with same | twice
      · exact Option.some.inj same
      · exact Option.some.inj (List.mem_singleton.mp twice)
  subst here
  obtain rfl := Option.some.inj opened
  rfl

/-- A glyph is rendered, taken from the cache, and rendered again for another size. -/
theorem replies_exec_twoPixels :
    let calls := [.getGlyph 65, .width, .getGlyph 65, .setInfo [] 16 0, .getGlyph 65, .getGlyph 66]
    oneFont.Renders ∧ replies (exec oneFont fun _ _ => 0) ⟨⟨[], 14, 0⟩, false, none⟩ calls =
      replies (spec oneFont fun _ _ => 0) ⟨[], 14, 0⟩ calls :=
  ⟨oneFont_renders, replies_exec oneFont_renders _ _⟩

end Ucimf.Fonts
