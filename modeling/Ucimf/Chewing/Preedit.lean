import Ucimf.OpenVanilla.Imf
import Ucimf.Support.Outcome
import Ucimf.Text.Ustring

/-!
# The preedit string of the chewing bridge

`process_input` writes the characters of the edit buffer from inside a loop over the phrase
intervals of libchewing, with a mark around each phrase and a dot for the cursor. Each character
is read from storage that was released before, and the number of phonetic symbols is stored
through a pointer that was never set.
-/

namespace Ucimf.Chewing

open Keyboard OpenVanilla Text

abbrev Bytes := List UInt8

/-- What of an interval `it` is read: `it.from` and `it.to`. -/
structure IntervalType where
  from_ : Int
  to_ : Int
  deriving DecidableEq, Repr

/-- What `process_input` asks the context for, once the key is handled. -/
structure ChewingContext where
  zuinString : Bytes
  bufferString : Bytes
  cursorCurrent : Int
  intervals : List IntervalType

/-- `_str_to_utf32` has the body of the constructor of `ustring`. -/
def strToUtf32 (conv : Iconv) (input : Bytes) (enc : String) : List Nat := ustring conv enc input

/-- The text that `_utf32_to_str` returns a pointer to. It is in a local string, whose storage is
released before the caller reads it. -/
def utf32ToStr (conv : Iconv) (input : List Nat) (enc : String) : Bytes :=
  let inbufLen := input.length * 4
  let outbufLen := inbufLen / 4 * 8
  cString (conv.written enc "UTF-32" (input.flatMap wordBytes) outbufLen)

/-- A store through a pointer without a value, or a read of released storage. -/
inductive Fault
  | stray
  | released
  deriving DecidableEq, Repr

/-- What the undefined parts of `process_input` find in memory. -/
structure Remains where
  /-- `prdt_count`, which has no value, points to memory that is not in use. -/
  countSpare : Bool
  /-- The text returned by `_utf32_to_str` for a position is still there when it is read. -/
  kept : Int → Bool

section Preedit
variable (conv : Iconv) (remains : Remains)

/-- One round of the inner loop. -/
def wordAt (text : List Nat) (cursor i : Int) : Except Fault Bytes := do
  let word ←
    if 0 ≤ i ∧ i < text.length then
      if remains.kept i then .ok (utf32ToStr conv [text.getD i.toNat 0] "UTF-8")
      else .error .released
    else .ok []
  .ok ((if cursor = i then ascii "." else []) ++ word ++
    if i + 1 = cursor ∧ cursor = text.length then ascii "." else [])

/-- The values of `i` from `it.from` up to `it.to`. -/
def IntervalType.positions (it : IntervalType) : List Int :=
  (List.range (it.to_ - it.from_).toNat).map fun (k : Nat) => it.from_ + k

def group (text : List Nat) (cursor : Int) (it : IntervalType) : Except Fault Bytes := do
  let words ← it.positions.foldlM (fun out i => (out ++ ·) <$> wordAt conv remains text cursor i) []
  .ok (ascii "[" ++ words ++ ascii "]")

/-- `prdt_pre`. The count of `chewing_zuin_String` is stored through `prdt_count` before. -/
def prdtPre (ctx : ChewingContext) : Except Fault Bytes :=
  if remains.countSpare then
    let text := strToUtf32 conv ctx.bufferString "UTF-8"
    ctx.intervals.foldlM
      (fun out it => (out ++ ·) <$> group conv remains text ctx.cursorCurrent it) []
  else .error .stray

/-- What is asked of the preedit widget. -/
def preeditCalls (ctx : ChewingContext) : Except Fault (List PreeditCall) := do
  let prdtPre ← prdtPre conv remains ctx
  .ok [.clear, .append prdtPre, .append ctx.zuinString, .render]

end Preedit

/-! ### The mark characters -/

/-- The string without the marks of the groups. -/
def unmarked (bytes : Bytes) : Bytes := bytes.filter fun b => b ≠ 0x5b ∧ b ≠ 0x5d

/-- Neither NUL nor one of the mark characters. -/
def Plain (c : Char) : Prop := c.toNat ≠ 0 ∧ c ≠ '[' ∧ c ≠ ']' ∧ c ≠ '.'

instance (c : Char) : Decidable (Plain c) := inferInstanceAs (Decidable (_ ∧ _ ∧ _ ∧ _))

/-- A buffer of libchewing: its text, the cursor and the phrases, in order and apart. -/
structure EditBuffer where
  text : List Char
  cursor : Nat
  intervals : List IntervalType
  nonempty : text ≠ []
  short : text.length ≤ 63
  plain : ∀ c ∈ text, Plain c
  within : cursor ≤ text.length
  inside : ∀ it ∈ intervals, 0 ≤ it.from_ ∧ it.from_ ≤ it.to_ ∧ it.to_ ≤ text.length
  ordered : intervals.Pairwise fun a b => a.to_ ≤ b.from_

theorem unmarked_append (bytes more : Bytes) :
    unmarked (bytes ++ more) = unmarked bytes ++ unmarked more :=
  List.filter_append ..

theorem unmarked_flatMap {A : Type} (l : List A) (f : A → Bytes) :
    unmarked (l.flatMap f) = l.flatMap fun a => unmarked (f a) :=
  List.filter_flatMap ..

theorem unmarked_encode {text : List Char} (plain : ∀ c ∈ text, c ≠ '[' ∧ c ≠ ']') :
    unmarked (Utf8.encode text) = Utf8.encode text := by
  apply List.filter_eq_self.mpr
  intro b member
  obtain ⟨c, inside, found⟩ := List.mem_flatMap.mp member
  have other := plain c inside
  apply decide_eq_true
  constructor
  · rintro rfl
    exact other.1 (Char.toNat_inj.mp (Utf8.eq_of_mem_encodeChar (by decide) found))
  · rintro rfl
    exact other.2 (Char.toNat_inj.mp (Utf8.eq_of_mem_encodeChar (by decide) found))

namespace EditBuffer

variable (e : EditBuffer)

/-- The context that holds the buffer. -/
def context (zuin : Bytes) : ChewingContext :=
  ⟨zuin, Utf8.encode e.text, e.cursor, e.intervals⟩

/-- The buffer text with a dot at the cursor. -/
def expected : List Char := e.text.take e.cursor ++ '.' :: e.text.drop e.cursor

/-- The positions of the inner loop, over all intervals. -/
def positions : List Int := e.intervals.flatMap IntervalType.positions

/-- The characters of one round, without the marks. -/
def charsAt (i : Int) : List Char :=
  (if (e.cursor : Int) = i then ['.'] else []) ++ e.text[i.toNat]?.toList ++
    if i + 1 = e.cursor ∧ (e.cursor : Int) = e.text.length then ['.'] else []

/-- Every position of the text lies in an interval. -/
def Covered : Prop :=
  ∀ p : Int, 0 ≤ p → p < e.text.length → ∃ it ∈ e.intervals, it.from_ ≤ p ∧ p < it.to_

end EditBuffer

theorem mem_positions {it : IntervalType} {p : Int} :
    p ∈ it.positions ↔ it.from_ ≤ p ∧ p < it.to_ := by
  rw [IntervalType.positions, List.mem_map]
  constructor
  · rintro ⟨k, member, rfl⟩
    have bound := List.mem_range.mp member
    omega
  · rintro ⟨lower, upper⟩
    exact ⟨(p - it.from_).toNat, List.mem_range.mpr (by omega), by omega⟩

theorem positions_increase (it : IntervalType) : it.positions.Pairwise (· < ·) := by
  rw [IntervalType.positions, List.pairwise_map]
  refine List.pairwise_lt_range.imp ?_
  intro j k less
  omega

end Ucimf.Chewing
