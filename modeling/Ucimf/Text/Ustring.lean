import Ucimf.Keyboard.TermString
import Ucimf.Support.Memory
import Ucimf.Support.Utf8
import Mathlib.Data.Bool.AllAny

/-!
# Texts in code points

A `ustring` holds the code points that `iconv` writes to a buffer of 64 words, behind a
byte-order mark. `ustring::out` converts back through the same kind of buffer.
-/

namespace Ucimf.Text

open ByteMemory Keyboard

/-- The four bytes of a `uint32_t`. -/
def wordBytes (w : Nat) : List UInt8 := [byteOf w 0, byteOf w 1, byteOf w 2, byteOf w 3]

/-- Bytes read as an array of `uint32_t`. -/
def words : List UInt8 → List Nat
  | a :: b :: c :: d :: rest =>
    (a.toNat + 256 * (b.toNat + 256 * (c.toNat + 256 * d.toNat))) :: words rest
  | _ => []

/-- `iconv` from one encoding to another: the bytes it writes for the input bytes when the
output has the given room. The output pointer moves past them. -/
structure Iconv where
  written : (tocode fromcode : String) → (input : List UInt8) → (room : Nat) → List UInt8
  fits : ∀ tocode fromcode input room, (written tocode fromcode input room).length ≤ room

/-- `sizeof(tmp)`. -/
def tmpBytes : Nat := 256

/-- The constructor `ustring( encoding, data )`. -/
def ustring (conv : Iconv) (encoding : String) (data : List UInt8) : List Nat :=
  let output := conv.written "UTF-32" encoding (cString data) tmpBytes
  let outbytesleft := tmpBytes - output.length
  let count := (tmpBytes - outbytesleft) / 4
  -- `tmp[0]` is the byte-order mark
  ((words output).take count).drop 1

def Preedit.append (conv : Iconv) (encoding : String) (buf : List Nat) (s : List UInt8) :
    List Nat :=
  buf ++ ustring conv encoding s

def LookupChoice.append (conv : Iconv) (encoding : String) (bufs : List (List Nat))
    (s : List UInt8) : List (List Nat) :=
  match bufs.getLast? with
  | some last => bufs.dropLast ++ [last ++ ustring conv encoding s]
  | none => [ustring conv encoding s]

def LookupChoice.appendNext (conv : Iconv) (encoding : String) (bufs : List (List Nat))
    (s : List UInt8) : List (List Nat) :=
  bufs ++ [ustring conv encoding s]

/-- `ustring::out`; nothing if `udata` is read out of range. `stack` is what lies in `tmp2` and
behind it before the conversion. -/
def out (conv : Iconv) (stack : List UInt8) (udata : List Nat) (encoding : String) :
    Option (List UInt8) := do
  let tmp ← (List.range 64).mapM fun (i : Nat) => udata[i]?
  -- a number of words is passed as a number of bytes
  let inbytesleft := udata.length
  let output := conv.written encoding "UTF-32" ((tmp.flatMap wordBytes).take inbytesleft) 256
  -- `outbuf` has moved past the output
  some (cString (stack.drop output.length))

/-! ### What the converters are known to do -/

def byteOrderMark : Nat := 0xfeff

/-- To UTF-32 a byte-order mark is written first, then as many whole characters as fit. -/
def Iconv.WritesUtf32 (conv : Iconv) : Prop := ∀ (text : List Char) (room : Nat), 4 ≤ room →
  conv.written "UTF-32" "UTF-8" (Utf8.encode text) room =
    (byteOrderMark :: (text.take (room / 4 - 1)).map Char.toNat).flatMap wordBytes

/-- The text is kept, and the widgets keep it with what they have. -/
structure Lossless (conv : Iconv) (text : List Char) : Prop where
  codes : ustring conv "UTF-8" (Utf8.encode text) = text.map Char.toNat
  preedit : ∀ buf, Preedit.append conv "UTF-8" buf (Utf8.encode text) = buf ++ text.map Char.toNat
  lookup : ∀ bufs, LookupChoice.appendNext conv "UTF-8" bufs (Utf8.encode text) =
    bufs ++ [text.map Char.toNat]

/-- The text that was decoded is returned. -/
def EncodesBack (conv : Iconv) (stack : List UInt8) (encoding : String) (s : List UInt8) : Prop :=
  out conv stack (ustring conv encoding s) encoding = some s

/-! ### Words -/

theorem words_wordBytes {ws : List Nat} (small : ∀ w ∈ ws, w < 2 ^ 32) :
    words (ws.flatMap wordBytes) = ws := by
  induction ws with
  | nil => rfl
  | cons w ws ih =>
    have low := small w List.mem_cons_self
    have rest := ih fun v hv => small v (List.mem_cons_of_mem w hv)
    rw [List.flatMap_cons, wordBytes, List.cons_append, List.cons_append, List.cons_append,
      List.cons_append, List.nil_append, words, rest]
    congr 1
    simp only [byteOf, UInt8.toNat_ofNat']
    omega

theorem length_wordBytes (ws : List Nat) : (ws.flatMap wordBytes).length = 4 * ws.length := by
  induction ws with
  | nil => rfl
  | cons w ws ih =>
    rw [List.flatMap_cons, List.length_append, ih, List.length_cons, Nat.mul_succ, Nat.add_comm]
    rfl

theorem length_words (bytes : List UInt8) : (words bytes).length = bytes.length / 4 := by
  fun_induction words bytes with
  | case1 a b c d rest ih =>
    simp only [List.length_cons, ih]
    omega
  | case2 bytes short =>
    have few : bytes.length / 4 = 0 := by
      rcases bytes with _ | ⟨a, _ | ⟨b, _ | ⟨c, _ | ⟨d, rest⟩⟩⟩⟩
      · simp
      · simp
      · simp
      · simp
      · exact absurd rfl (short a b c d rest)
    rw [few]
    rfl

/-- The count is that of the words written. -/
theorem ustring_eq (conv : Iconv) (encoding : String) (data : List UInt8) :
    ustring conv encoding data =
      (words (conv.written "UTF-32" encoding (cString data) tmpBytes)).drop 1 := by
  have fits := conv.fits "UTF-32" encoding (cString data) tmpBytes
  have counted : ∀ n, n ≤ tmpBytes → tmpBytes - (tmpBytes - n) = n := fun n h => by omega
  unfold ustring
  dsimp only
  rw [counted _ fits, ← length_words, List.take_length]

theorem length_ustring_lt (conv : Iconv) (encoding : String) (data : List UInt8) :
    (ustring conv encoding data).length < 64 := by
  have fits : (conv.written "UTF-32" encoding (cString data) tmpBytes).length ≤ 256 :=
    conv.fits _ _ _ _
  rw [ustring_eq, List.length_drop, length_words]
  omega

/-! ### Decoding -/

section Decoding
variable {conv : Iconv} {text : List Char}

theorem cString_encode (plain : ∀ c ∈ text, c.toNat ≠ 0) :
    cString (Utf8.encode text) = Utf8.encode text :=
  cString_eq_self (Utf8.zero_notMem_encode plain)

/-- Only the first 63 code points have room behind the mark. -/
theorem ustring_encode (assumed : conv.WritesUtf32) (plain : ∀ c ∈ text, c.toNat ≠ 0) :
    ustring conv "UTF-8" (Utf8.encode text) = (text.take 63).map Char.toNat := by
  have small : ∀ w ∈ byteOrderMark :: (text.take 63).map Char.toNat, w < 2 ^ 32 := by
    intro w inside
    rcases List.mem_cons.mp inside with rfl | inside
    · decide
    · obtain ⟨c, -, rfl⟩ := List.mem_map.mp inside
      exact (Utf8.toNat_lt c).trans (by decide)
  have room : tmpBytes / 4 - 1 = 63 := rfl
  rw [ustring_eq, cString_encode plain, assumed text tmpBytes (by decide), room,
    words_wordBytes small]
  rfl

/-- The text is kept exactly when it has at most 63 code points. -/
theorem lossless_iff (assumed : conv.WritesUtf32) (plain : ∀ c ∈ text, c.toNat ≠ 0) :
    Lossless conv text ↔ text.length ≤ 63 := by
  constructor
  · intro lossless
    have kept := congrArg List.length lossless.codes
    rw [ustring_encode assumed plain, List.length_map, List.length_map, List.length_take] at kept
    omega
  · intro short
    have codes : ustring conv "UTF-8" (Utf8.encode text) = text.map Char.toNat := by
      rw [ustring_encode assumed plain, List.take_of_length_le short]
    refine ⟨codes, fun buf => ?_, fun bufs => ?_⟩
    · rw [Preedit.append, codes]
    · rw [LookupChoice.appendNext, codes]

end Decoding

/-! ### The converter between UTF-8 and UTF-32 -/

def toUtf32 (text : List Char) (room : Nat) : List UInt8 :=
  if 4 ≤ room then
    (byteOrderMark :: (text.take (room / 4 - 1)).map Char.toNat).flatMap wordBytes
  else []

def toUtf8 : List Char → Nat → List UInt8
  | [], _ => []
  | c :: text, room =>
    let bytes := String.utf8EncodeChar c
    if bytes.length ≤ room then bytes ++ toUtf8 text (room - bytes.length) else []

/-- The characters of UTF-32, without the mark. -/
def fromUtf32 (input : List Nat) : List Char :=
  (if input.head? = some byteOrderMark then input.tail else input).map Char.ofNat

theorem length_toUtf32_le (text : List Char) (room : Nat) : (toUtf32 text room).length ≤ room := by
  unfold toUtf32
  split
  · rw [length_wordBytes, List.length_cons, List.length_map, List.length_take]
    omega
  · exact Nat.zero_le room

theorem length_toUtf8_le (text : List Char) (room : Nat) : (toUtf8 text room).length ≤ room := by
  induction text generalizing room with
  | nil => exact Nat.zero_le room
  | cons c text ih =>
    rw [toUtf8]
    split
    · next fits =>
      rw [List.length_append]
      exact (Nat.add_le_add_left (ih _) _).trans (Nat.add_sub_of_le fits).le
    · exact Nat.zero_le room

def utf8Iconv : Iconv where
  written tocode fromcode input room :=
    if tocode = "UTF-32" ∧ fromcode = "UTF-8" then
      match input.toByteArray.utf8Decode? with
      | some text => toUtf32 text.toList room
      | none => []
    else if tocode = "UTF-8" ∧ fromcode = "UTF-32" then toUtf8 (fromUtf32 (words input)) room
    else []
  fits tocode fromcode input room := by
    repeat' split
    · exact length_toUtf32_le _ room
    · exact Nat.zero_le room
    · exact length_toUtf8_le _ room
    · exact Nat.zero_le room

theorem utf8Iconv_writesUtf32 : utf8Iconv.WritesUtf32 := by
  intro text room enough
  have decoded : (Utf8.encode text).toByteArray.utf8Decode? = some text.toArray :=
    List.utf8Decode?_utf8Encode
  simp only [utf8Iconv, and_self, if_true, decoded]
  exact if_pos enough

/-- The last of 64 letters is dropped. -/
theorem letters_dropped : ¬ ∀ (conv : Iconv) (text : List Char), conv.WritesUtf32 →
    (∀ c ∈ text, c.toNat ≠ 0) → Lossless conv text := by
  intro all
  have plain : ∀ c ∈ List.replicate 64 'a', c.toNat ≠ 0 :=
    List.all_iff_forall_prop.mp rfl
  have kept := (all utf8Iconv (List.replicate 64 'a') utf8Iconv_writesUtf32 plain).codes
  rw [ustring_encode utf8Iconv_writesUtf32 plain] at kept
  exact absurd (congrArg List.length kept) (by decide)

theorem lossless_greeting : Lossless utf8Iconv ['嗨', '!'] :=
  (lossless_iff utf8Iconv_writesUtf32 (List.all_iff_forall_prop.mp rfl)).mpr (by decide)

/-! ### Encoding -/

theorem mapM_range_getElem? (udata : List Nat) (n : Nat) :
    (List.range n).mapM (fun (i : Nat) => udata[i]?) =
      if n ≤ udata.length then some (udata.take n) else none := by
  induction n with
  | zero => rfl
  | succ n ih =>
    rw [List.range_succ, List.mapM_append, ih]
    by_cases inside : n < udata.length
    · rw [if_pos inside.le, if_pos (Nat.succ_le_of_lt inside)]
      simp [inside, List.take_append_getElem]
    · have missing : udata[n]? = none := List.getElem?_eq_none (Nat.not_lt.mp inside)
      rw [if_neg (mt Nat.lt_of_succ_le inside)]
      split <;> simp [missing]

/-- Whatever the converter, `udata` is read past its end. -/
theorem out_of_short (conv : Iconv) (stack : List UInt8) {udata : List Nat}
    (short : udata.length < 64) (encoding : String) : out conv stack udata encoding = none := by
  rw [out, mapM_range_getElem?, if_neg (Nat.not_le.mpr short)]
  rfl

/-- Where the reads are in range, the bytes behind the converted text are returned. -/
theorem out_of_long (conv : Iconv) (stack : List UInt8) {udata : List Nat}
    (long : 64 ≤ udata.length) (encoding : String) :
    ∃ output : List UInt8,
      out conv stack udata encoding = some (cString (stack.drop output.length)) := by
  rw [out, mapM_range_getElem?, if_pos long]
  exact ⟨_, rfl⟩

/-- No text comes back. -/
theorem encodesBack_never (conv : Iconv) (stack : List UInt8) (encoding : String)
    (s : List UInt8) : ¬ EncodesBack conv stack encoding s := by
  intro returned
  rw [EncodesBack, out_of_short conv stack (length_ustring_lt conv encoding s)] at returned
  cases returned

/-- The letter `a` does not come back either. -/
theorem letter_lost : ¬ ∀ (conv : Iconv) (stack : List UInt8) (text : List Char),
    conv.WritesUtf32 → (∀ c ∈ text, c.toNat ≠ 0) → text.length ≤ 63 →
      EncodesBack conv stack "UTF-8" (Utf8.encode text) := by
  intro all
  have returned := all utf8Iconv [] ['a'] utf8Iconv_writesUtf32
    (List.all_iff_forall_prop.mp rfl) (by decide)
  rw [EncodesBack, out_of_short _ _ (length_ustring_lt _ _ _)] at returned
  cases returned

end Ucimf.Text
