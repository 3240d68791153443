import Ucimf.Support.Chunks
import Ucimf.Support.Outcome
import Ucimf.Support.Utf16
import Mathlib.Data.Bool.AllAny

/-!
# The Unicode service

`UTF16ToUTF8` and `UTF8ToUTF16` convert through two buffers of 1024 elements. Both loops take
as many elements as the lead element announces, without asking whether they are there. A
`char` is signed.
-/

namespace Ucimf.OpenVanilla

open Chunks

/-- An access outside the argument or outside the buffer. -/
inductive Overrun
  | read
  | write
  deriving DecidableEq, Repr

namespace OVImfService

/-- `sizeof(internal)`, and the number of elements of `u_internal`. -/
def bufferSize : Nat := 1024

/-! ### `UTF16ToUTF8` -/

/-- `unsigned int offset= 0x10000 - (0xd800 << 10) - 0xdc00`. -/
def offset : UInt32 := (0x10000 : UInt32) - ((0xd800 : UInt32) <<< 10) - (0xdc00 : UInt32)

def codepoint (hi lo : UInt16) : UInt32 := (hi.toUInt32 <<< 10) + lo.toUInt32 + offset

def twoBytes (u : Nat) : List UInt8 :=
  [(0xc0 ||| (u >>> 6)).toUInt8, (0x80 ||| (u &&& 0x3f)).toUInt8]

def threeBytes (u : Nat) : List UInt8 :=
  [(0xe0 ||| (u >>> 12)).toUInt8, (0x80 ||| ((u >>> 6) &&& 0x3f)).toUInt8,
    (0x80 ||| (u &&& 0x3f)).toUInt8]

def fourBytes (c : Nat) : List UInt8 :=
  [(0xf0 ||| (c >>> 18)).toUInt8, (0x80 ||| ((c >>> 12) &&& 0x3f)).toUInt8,
    (0x80 ||| ((c >>> 6) &&& 0x3f)).toUInt8, (0x80 ||| (c &&& 0x3f)).toUInt8]

/-- The loop over the units. -/
def encodeUnits : List UInt16 → Except Overrun (List UInt8)
  | [] => .ok []
  | u :: rest =>
    if u.toNat < 0x80 then (u.toUInt8 :: ·) <$> encodeUnits rest
    else if u.toNat < 0x800 then (twoBytes u.toNat ++ ·) <$> encodeUnits rest
    else if u.toNat < 0xd800 ∨ 0xdbff < u.toNat then
      (threeBytes u.toNat ++ ·) <$> encodeUnits rest
    else
      match rest with
      | lo :: rest => (fourBytes (codepoint u lo).toNat ++ ·) <$> encodeUnits rest
      -- `s[i+1]` is read at the length
      | [] => .error .read

/-- What is written to `internal`, the terminator included. -/
def utf16ToUtf8 (s : List UInt16) : Except Overrun (List UInt8) := do
  let bytes ← encodeUnits s
  if bytes.length < bufferSize then .ok (bytes ++ [0]) else .error .write

/-! ### `UTF8ToUTF16` -/

def isLead2 (a : UInt8) : Bool := a &&& 0xe0 = 0xc0

def isLead3 (a : UInt8) : Bool := a &&& 0xf0 = 0xe0

def unit2 (a b : Nat) : UInt16 :=
  (((a &&& 0x1c) >>> 2) * 0x100 + (((a &&& 0x03) <<< 6) ||| (b &&& 0x3f))).toUInt16

def unit3 (a b c : Nat) : UInt16 :=
  ((((a &&& 0x0f) <<< 4) ||| ((b &&& 0x3c) >>> 2)) * 0x100 +
    (((b &&& 0x03) <<< 6) ||| (c &&& 0x3f))).toUInt16

/-- Any other `char`, with its sign. -/
def unit1 (a : UInt8) : UInt16 := a.toInt8.toInt16.toUInt16

/-- The loop over the bytes up to the terminator; the empty list is behind it. -/
def decodeBytes : List UInt8 → Except Overrun (List UInt16)
  | [] => .error .read
  | a :: rest =>
    if a = 0 then .ok []
    else if isLead2 a then
      match rest with
      | b :: rest => (unit2 a.toNat b.toNat :: ·) <$> decodeBytes rest
      | [] => .error .read
    else if isLead3 a then
      match rest with
      | b :: c :: rest => (unit3 a.toNat b.toNat c.toNat :: ·) <$> decodeBytes rest
      | _ => .error .read
    else (unit1 a :: ·) <$> decodeBytes rest

/-- `src` is what lies in memory up to the terminator. The units are those written to
`u_internal`; their number is the length that is returned. -/
def utf8ToUtf16 (src : List UInt8) : Except Overrun (List UInt16) := do
  let units ← decodeBytes src
  if units.length ≤ bufferSize then .ok units else .error .write

/-! ### Encoding well-formed sequences -/

theorem codepoint_pair {hi lo : UInt16} (high : 0xd800 ≤ hi.toNat) (high' : hi.toNat ≤ 0xdbff)
    (low : 0xdc00 ≤ lo.toNat) (low' : lo.toNat ≤ 0xdfff) :
    (codepoint hi lo).toNat = 0x10000 + (hi.toNat - 0xd800) * 0x400 + (lo.toNat - 0xdc00) := by
  have wrap : offset.toNat = 0xfca02400 := by decide
  have shifted : (hi.toUInt32 <<< 10).toNat = hi.toNat * 0x400 := by
    have ten : UInt32.toNat 10 % 32 = 10 := rfl
    rw [UInt32.toNat_shiftLeft, UInt16.toNat_toUInt32, Nat.shiftLeft_eq, ten]
    exact Nat.mod_eq_of_lt (by omega)
  rw [codepoint, UInt32.toNat_add, UInt32.toNat_add, shifted, UInt16.toNat_toUInt32, wrap]
  omega

theorem toUInt8_unit {u : UInt16} {n : Nat} (same : u.toNat = n) : u.toUInt8 = n.toUInt8 := by
  subst same
  rfl

theorem encodeUnits_cons (u : UInt16) (rest : List UInt16) : encodeUnits (u :: rest) =
    if u.toNat < 0x80 then (u.toUInt8 :: ·) <$> encodeUnits rest
    else if u.toNat < 0x800 then (twoBytes u.toNat ++ ·) <$> encodeUnits rest
    else if u.toNat < 0xd800 ∨ 0xdbff < u.toNat then
      (threeBytes u.toNat ++ ·) <$> encodeUnits rest
    else
      match rest with
      | lo :: rest => (fourBytes (codepoint u lo).toNat ++ ·) <$> encodeUnits rest
      | [] => .error .read := by
  rw [encodeUnits.eq_def]

/-- What the loop does with one character. -/
theorem encodeUnits_encodeChar (c : Char) (rest : List UInt16) :
    encodeUnits (Utf16.encodeChar c ++ rest) =
      (String.utf8EncodeChar c ++ ·) <$> encodeUnits rest := by
  by_cases basic : c.toNat < 0x10000
  · obtain ⟨u, shape, same⟩ := Utf16.encodeChar_basic basic
    have scalar := Utf8.not_surrogate c
    rw [shape, List.singleton_append, encodeUnits_cons, same]
    by_cases one : c.toNat < 0x80
    · rw [if_pos one, Utf8.encodeChar_one one, toUInt8_unit same]
      rfl
    by_cases two : c.toNat < 0x800
    · rw [if_neg one, if_pos two, Utf8.encodeChar_two (by omega) two]
      rfl
    · rw [if_neg one, if_neg two, if_pos (by omega), Utf8.encodeChar_three (by omega) basic]
      rfl
  · obtain ⟨hi, lo, shape, high, high', low, low', value⟩ :=
      Utf16.encodeChar_pair (Nat.not_lt.mp basic)
    rw [shape, List.cons_append, List.singleton_append, encodeUnits_cons, if_neg (by omega),
      if_neg (by omega), if_neg (by omega)]
    dsimp only
    rw [codepoint_pair high high' low low', ← value, Utf8.encodeChar_four (by omega)]
    rfl

theorem encodeUnits_encode (text : List Char) :
    encodeUnits (Utf16.encode text) = .ok (Utf8.encode text) := by
  induction text with
  | nil => rfl
  | cons c text ih =>
    rw [Utf16.encode_cons, encodeUnits_encodeChar, ih, Utf8.encode_cons]
    rfl

theorem utf16ToUtf8_of_fits {text : List Char} (fits : (Utf8.encode text).length ≤ 1023) :
    utf16ToUtf8 (Utf16.encode text) = .ok (Utf8.encode text ++ [0]) := by
  rw [utf16ToUtf8, encodeUnits_encode]
  exact if_pos (Nat.lt_succ_of_le fits)

/-- The encoder is right on every well-formed sequence that fits the buffer. -/
theorem utf16ToUtf8_encode {text : List Char} (units : 0 ∉ Utf16.encode text)
    (fits : (Utf8.encode text).length ≤ 1023) :
    utf16ToUtf8 (Utf16.encode text) = .ok (Utf8.encode text ++ [0]) ∧ 0 ∉ Utf8.encode text := by
  constructor
  · exact utf16ToUtf8_of_fits fits
  · exact Utf8.zero_notMem_encode (Utf16.plain_of_units units)

theorem utf16ToUtf8_encode_mixed :
    utf16ToUtf8 [0x61, 0xe9, 0x4e2d, 0xd83d, 0xde00] =
      .ok [0x61, 0xc3, 0xa9, 0xe4, 0xb8, 0xad, 0xf0, 0x9f, 0x98, 0x80, 0] := by
  have text : Utf16.encode ['a', 'é', '中', '😀'] = [0x61, 0xe9, 0x4e2d, 0xd83d, 0xde00] := by
    decide
  have units : 0 ∉ Utf16.encode ['a', 'é', '中', '😀'] := by decide
  obtain ⟨returned, -⟩ := utf16ToUtf8_encode units (by decide)
  rw [text] at returned
  exact returned

/-! ### Decoding -/

/-- What holds of all byte values holds of all bytes. -/
theorem forall_byte {P : UInt8 → Prop} (all : ∀ n < 256, P (UInt8.ofNat n)) (a : UInt8) : P a := by
  have here := all a.toNat a.toNat_lt
  rwa [UInt8.ofNat_toNat] at here

theorem isLead2_iff (a : UInt8) : isLead2 a = true ↔ 0xc0 ≤ a.toNat ∧ a.toNat < 0xe0 := by
  revert a
  exact forall_byte (by decide +kernel)

theorem isLead3_iff (a : UInt8) : isLead3 a = true ↔ 0xe0 ≤ a.toNat ∧ a.toNat < 0xf0 := by
  revert a
  exact forall_byte (by decide +kernel)

theorem unit1_toNat (a : UInt8) :
    (unit1 a).toNat = if a.toNat < 0x80 then a.toNat else a.toNat + 0xff00 := by
  revert a
  exact forall_byte (by decide +kernel)

theorem low_or (m n : Nat) : ((m &&& 0x03) <<< 6) ||| (n &&& 0x3f) = m % 4 * 64 + n % 64 := by
  have high : m &&& 0x03 = m % 4 := Nat.and_two_pow_sub_one_eq_mod m 2
  have low : n &&& 0x3f = n % 64 := Nat.and_two_pow_sub_one_eq_mod n 6
  have joined : 2 ^ 6 * (m % 4) ||| n % 64 = n % 64 + 2 ^ 6 * (m % 4) :=
    Utf8.header_or 6 (m % 4) (Nat.mod_lt n (by decide))
  rw [high, low, Nat.shiftLeft_eq, Nat.mul_comm, joined]
  omega

theorem unit2_toNat (a b : Nat) : (unit2 a b).toNat = a % 32 * 64 + b % 64 := by
  have high : (a &&& 0x1c) >>> 2 = a / 4 % 8 := by
    rw [Nat.shiftRight_and_distrib, Nat.shiftRight_eq_div_pow]
    exact Nat.and_two_pow_sub_one_eq_mod _ 3
  rw [unit2, high, low_or, Nat.toUInt16_eq, UInt16.toNat_ofNat']
  omega

theorem unit3_toNat (a b c : Nat) :
    (unit3 a b c).toNat = a % 16 * 4096 + b % 64 * 64 + c % 64 := by
  have high : ((a &&& 0x0f) <<< 4) ||| ((b &&& 0x3c) >>> 2) = a % 16 * 16 + b / 4 % 16 := by
    have first : a &&& 0x0f = a % 16 := Nat.and_two_pow_sub_one_eq_mod a 4
    have second : (b &&& 0x3c) >>> 2 = b / 4 % 16 := by
      rw [Nat.shiftRight_and_distrib, Nat.shiftRight_eq_div_pow]
      exact Nat.and_two_pow_sub_one_eq_mod _ 4
    have joined : 2 ^ 4 * (a % 16) ||| b / 4 % 16 = b / 4 % 16 + 2 ^ 4 * (a % 16) :=
      Utf8.header_or 4 (a % 16) (Nat.mod_lt _ (by decide))
    rw [first, second, Nat.shiftLeft_eq, Nat.mul_comm, joined]
    omega
  rw [unit3, high, low_or, Nat.toUInt16_eq, UInt16.toNat_ofNat']
  omega

theorem decodeBytes_lead2 {a : UInt8} (lead : isLead2 a = true) (b : UInt8) (rest : List UInt8) :
    decodeBytes (a :: b :: rest) = (unit2 a.toNat b.toNat :: ·) <$> decodeBytes rest := by
  have text : a ≠ 0 := by
    rintro rfl
    exact absurd lead (by decide)
  rw [decodeBytes.eq_def]
  dsimp only
  rw [if_neg text, if_pos lead]

theorem decodeBytes_lead3 {a : UInt8} (lead : isLead3 a = true) (b c : UInt8)
    (rest : List UInt8) : decodeBytes (a :: b :: c :: rest) =
      (unit3 a.toNat b.toNat c.toNat :: ·) <$> decodeBytes rest := by
  have bounds := (isLead3_iff a).mp lead
  have text : a ≠ 0 := by
    rintro rfl
    exact absurd lead (by decide)
  have other : ¬ isLead2 a = true := by
    rw [isLead2_iff]
    omega
  rw [decodeBytes.eq_def]
  dsimp only
  rw [if_neg text, if_neg other, if_pos lead]

theorem decodeBytes_single {a : UInt8} (text : a ≠ 0) (two : ¬ isLead2 a = true)
    (three : ¬ isLead3 a = true) (rest : List UInt8) :
    decodeBytes (a :: rest) = (unit1 a :: ·) <$> decodeBytes rest := by
  rw [decodeBytes.eq_def]
  dsimp only
  rw [if_neg text, if_neg two, if_neg three]

/-- An ASCII byte, a continuation byte or the lead of four. -/
theorem decodeBytes_other {a : UInt8} (bounds : 0 < a.toNat ∧ a.toNat < 0xc0 ∨ 0xf0 ≤ a.toNat)
    (rest : List UInt8) : decodeBytes (a :: rest) = (unit1 a :: ·) <$> decodeBytes rest := by
  apply decodeBytes_single
  · rintro rfl
    exact absurd bounds (by decide)
  · rw [isLead2_iff]
    omega
  · rw [isLead3_iff]
    omega

/-- What comes back for a character: four bytes are taken for four characters. -/
def decoded (c : Char) : List UInt16 :=
  if c.toNat < 0x10000 then [c.toNat.toUInt16] else (String.utf8EncodeChar c).map unit1

theorem decoded_basic {c : Char} {u : UInt16} (same : u.toNat = c.toNat)
    (basic : c.toNat < 0x10000) : decoded c = [u] := by
  rw [decoded, if_pos basic, ← same, Nat.toUInt16_eq, UInt16.ofNat_toNat]

theorem decodeBytes_encodeChar {c : Char} (text : c.toNat ≠ 0) (rest : List UInt8) :
    decodeBytes (String.utf8EncodeChar c ++ rest) = (decoded c ++ ·) <$> decodeBytes rest := by
  rcases Nat.lt_or_ge c.toNat 0x80 with one | low
  · have byte : c.toNat.toUInt8.toNat = c.toNat := Nat.mod_eq_of_lt (by omega)
    have value : (unit1 c.toNat.toUInt8).toNat = c.toNat := by
      rw [unit1_toNat, if_pos (by omega), byte]
    rw [Utf8.encodeChar_one one, List.singleton_append, decodeBytes_other (by omega),
      decoded_basic value (by omega)]
    rfl
  rcases Nat.lt_or_ge c.toNat 0x800 with two | low
  · obtain ⟨a, b, shape, lead, tail⟩ := Utf8.bytes_two (by omega) two
    have first : isLead2 a = true := (isLead2_iff a).mpr (by omega)
    have value : (unit2 a.toNat b.toNat).toNat = c.toNat := by
      rw [unit2_toNat]
      omega
    rw [shape, List.cons_append, List.singleton_append, decodeBytes_lead2 first,
      decoded_basic value (by omega)]
    rfl
  rcases Nat.lt_or_ge c.toNat 0x10000 with three | low
  · obtain ⟨a, b, d, shape, lead, middle, tail⟩ := Utf8.bytes_three (by omega) three
    have first : isLead3 a = true := (isLead3_iff a).mpr (by omega)
    have value : (unit3 a.toNat b.toNat d.toNat).toNat = c.toNat := by
      rw [unit3_toNat]
      omega
    rw [shape, List.cons_append, List.cons_append, List.singleton_append,
      decodeBytes_lead3 first, decoded_basic value three]
    rfl
  · obtain ⟨a, b, d, e, shape, lead, second, third, fourth⟩ := Utf8.bytes_four low
    rw [decoded, if_neg (Nat.not_lt.mpr low), shape]
    simp only [List.cons_append, List.nil_append, List.map_cons, List.map_nil]
    rw [decodeBytes_other (by omega), decodeBytes_other (by omega), decodeBytes_other (by omega),
      decodeBytes_other (by omega)]
    cases decodeBytes rest <;> rfl

theorem decodeBytes_encode {text : List Char} (plain : ∀ c ∈ text, c.toNat ≠ 0) :
    decodeBytes (Utf8.encode text ++ [0]) = .ok (text.flatMap decoded) := by
  induction text with
  | nil => rfl
  | cons c text ih =>
    rw [Utf8.encode_cons, List.append_assoc, decodeBytes_encodeChar (plain c List.mem_cons_self),
      ih fun d inside => plain d (List.mem_cons_of_mem c inside), List.flatMap_cons]
    rfl

/-! ### The round trip -/

/-- `UTF8ToUTF16(UTF16ToUTF8(s))`. -/
def roundTrip (s : List UInt16) : Except Overrun (List UInt16) := do
  let bytes ← utf16ToUtf8 s
  utf8ToUtf16 bytes

theorem length_decoded_le (c : Char) : (decoded c).length ≤ (String.utf8EncodeChar c).length := by
  rw [decoded]
  split
  · exact List.length_pos_iff.mpr String.utf8EncodeChar_ne_nil
  · exact (List.length_map _).le

theorem length_flatMap_decoded_le (text : List Char) :
    (text.flatMap decoded).length ≤ (Utf8.encode text).length := by
  induction text with
  | nil => exact le_rfl
  | cons c text ih =>
    rw [List.flatMap_cons, Utf8.encode_cons, List.length_append, List.length_append]
    exact Nat.add_le_add (length_decoded_le c) ih

theorem roundTrip_encode {text : List Char} (units : 0 ∉ Utf16.encode text)
    (fits : (Utf8.encode text).length ≤ 1023) :
    roundTrip (Utf16.encode text) = .ok (text.flatMap decoded) := by
  rw [roundTrip, utf16ToUtf8_of_fits fits, Outcome.ok_bind, utf8ToUtf16,
    decodeBytes_encode (Utf16.plain_of_units units)]
  apply if_pos
  exact (length_flatMap_decoded_le text).trans (fits.trans (by decide))

/-- The first unit that comes back for a pair is no surrogate. -/
theorem flatMap_decoded_iff {text : List Char} :
    text.flatMap decoded = Utf16.encode text ↔ ∀ c ∈ text, c.toNat < 0x10000 := by
  induction text with
  | nil => exact iff_of_true rfl fun c inside => absurd inside List.not_mem_nil
  | cons c text ih =>
    rw [List.flatMap_cons, Utf16.encode_cons, List.forall_mem_cons, ← ih]
    by_cases basic : c.toNat < 0x10000
    · have unit : decoded c = Utf16.encodeChar c := by
        rw [decoded, Utf16.encodeChar, if_pos basic, if_pos basic]
      rw [unit, List.append_right_inj, and_iff_right basic]
    · obtain ⟨a, b, d, e, shape, lead, -⟩ := Utf8.bytes_four (Nat.not_lt.mp basic)
      obtain ⟨hi, lo, pair, high, high', -⟩ := Utf16.encodeChar_pair (Nat.not_lt.mp basic)
      apply iff_of_false
      · intro same
        rw [decoded, if_neg basic, shape, pair] at same
        have first : unit1 a = hi := (List.cons.inj same).1
        have value := unit1_toNat a
        rw [first, if_neg (by omega)] at value
        omega
      · exact fun both => basic both.1

/-- A sequence comes back exactly when it has no surrogate pair. -/
theorem roundTrip_iff {text : List Char} (units : 0 ∉ Utf16.encode text)
    (fits : (Utf8.encode text).length ≤ 1023) :
    roundTrip (Utf16.encode text) = .ok (Utf16.encode text) ↔
      ∀ u ∈ Utf16.encode text, ¬ Utf16.IsSurrogate u := by
  rw [roundTrip_encode units fits, Utf16.no_surrogate_iff, ← flatMap_decoded_iff]
  exact ⟨Except.ok.inj, congrArg Except.ok⟩

/-- The pair of U+1F600 comes back as four units. -/
theorem roundTrip_pair : ¬ ∀ text : List Char, 0 ∉ Utf16.encode text →
    (Utf8.encode text).length ≤ 1023 →
      roundTrip (Utf16.encode text) = .ok (Utf16.encode text) := by
  intro all
  have back := all ['😀'] (by decide) (by decide)
  rw [roundTrip_encode (by decide) (by decide)] at back
  exact absurd (congrArg List.length (Except.ok.inj back)) (by decide)

theorem roundTrip_basic :
    roundTrip (Utf16.encode ['a', 'é', '中']) = .ok (Utf16.encode ['a', 'é', '中']) :=
  (roundTrip_iff (by decide) (by decide)).mpr (List.all_iff_forall_prop.mp rfl)

/-! ### Malformed input -/

/-- How many bytes are taken from a lead byte on. -/
def sequenceLength (a : UInt8) : Nat := if isLead2 a then 2 else if isLead3 a then 3 else 1

/-- How many units are taken from a unit on: two from a high surrogate. -/
def unitLength (u : UInt16) : Nat := if u.toNat < 0xd800 ∨ 0xdbff < u.toNat then 1 else 2

theorem not_lead3_of_lead2 {a : UInt8} (two : isLead2 a = true) : ¬ isLead3 a = true := by
  rw [isLead2_iff] at two
  rw [isLead3_iff]
  omega

/-- The three ways a sequence can start. -/
theorem sequenceLength_cases (a : UInt8) : (isLead2 a = true ∧ sequenceLength a = 2) ∨
    (isLead3 a = true ∧ sequenceLength a = 3) ∨
    (¬ isLead2 a = true ∧ ¬ isLead3 a = true ∧ sequenceLength a = 1) := by
  rw [sequenceLength]
  by_cases two : isLead2 a = true
  · exact .inl ⟨two, if_pos two⟩
  by_cases three : isLead3 a = true
  · exact .inr (.inl ⟨three, by rw [if_neg two, if_pos three]⟩)
  · exact .inr (.inr ⟨two, three, by rw [if_neg two, if_neg three]⟩)

theorem decodeBytes_chunk {a : UInt8} {tail : List UInt8} (lead : a ≠ 0)
    (length : tail.length + 1 = sequenceLength a) :
    ∃ u, ∀ rest, decodeBytes (a :: (tail ++ rest)) = (u :: ·) <$> decodeBytes rest := by
  rcases sequenceLength_cases a with ⟨two, size⟩ | ⟨three, size⟩ | ⟨two, three, size⟩
  · obtain ⟨b, rfl⟩ := List.length_eq_one_iff.mp (by omega : tail.length = 1)
    exact ⟨_, decodeBytes_lead2 two b⟩
  · obtain ⟨b, c, rfl⟩ := List.length_eq_two.mp (by omega : tail.length = 2)
    exact ⟨_, decodeBytes_lead3 three b c⟩
  · obtain rfl := List.length_eq_zero_iff.mp (by omega : tail.length = 0)
    exact ⟨_, decodeBytes_single lead two three⟩

/-- A sequence that is cut off takes the terminator with it. -/
theorem decodeBytes_cut {a : UInt8} {tail : List UInt8} (lead : a ≠ 0)
    (length : tail.length + 1 < sequenceLength a) :
    decodeBytes (a :: (tail ++ [0])) = .error .read := by
  rcases sequenceLength_cases a with ⟨two, size⟩ | ⟨three, size⟩ | ⟨two, three, size⟩
  · obtain rfl := List.length_eq_zero_iff.mp (by omega : tail.length = 0)
    exact decodeBytes_lead2 two 0 []
  · rcases tail with _ | ⟨b, _ | ⟨c, tail⟩⟩
    · have other := mt not_lead3_of_lead2 (not_not.mpr three)
      rw [List.nil_append, decodeBytes.eq_def]
      dsimp only
      rw [if_neg lead, if_neg other, if_pos three]
    · exact decodeBytes_lead3 three b 0 []
    · rw [size, List.length_cons, List.length_cons] at length
      omega
  · omega

theorem sequenceLength_pos (a : UInt8) : 0 < sequenceLength a := by
  rcases sequenceLength_cases a with ⟨-, size⟩ | ⟨-, size⟩ | ⟨-, -, size⟩ <;> omega

/-- The bytes are decoded without an access out of range exactly when they are whole sequences. -/
theorem decodeBytes_ok_iff {bytes : List UInt8} (text : 0 ∉ bytes) :
    (∃ units, decodeBytes (bytes ++ [0]) = .ok units) ↔ Whole sequenceLength bytes := by
  apply iff_whole (P := fun bytes => ∃ units, decodeBytes (bytes ++ [0]) = .ok units)
    sequenceLength_pos ⟨[], rfl⟩
  intro a rest suffix
  have lead : a ≠ 0 := fun zero => text (suffix.subset (zero ▸ List.mem_cons_self))
  rw [List.cons_append]
  by_cases enough : sequenceLength a ≤ rest.length + 1
  · have length : (rest.take (sequenceLength a - 1)).length + 1 = sequenceLength a := by
      have positive := sequenceLength_pos a
      rw [List.length_take]
      omega
    obtain ⟨u, next⟩ := decodeBytes_chunk lead length
    have split : rest ++ [0] =
        rest.take (sequenceLength a - 1) ++ (rest.drop (sequenceLength a - 1) ++ [0]) := by
      rw [← List.append_assoc, List.take_append_drop]
    rw [split, next, and_iff_right enough]
    exact Outcome.exists_map_ok
  · rw [decodeBytes_cut lead (Nat.lt_of_not_le enough)]
    apply iff_of_false
    · rintro ⟨units, decoded⟩
      cases decoded
    · exact fun both => enough both.1

/-- No byte gives more than one unit. -/
theorem length_decodeBytes {src : List UInt8} {units : List UInt16}
    (decoded : decodeBytes src = .ok units) : units.length < src.length := by
  fun_induction decodeBytes src generalizing units with
  | case1 => cases decoded
  | case2 rest =>
    obtain rfl := Except.ok.inj decoded
    exact Nat.succ_pos _
  | case3 a text two b rest ih =>
    obtain ⟨later, next, rfl⟩ := Outcome.map_eq_ok.mp decoded
    exact Nat.succ_lt_succ ((ih next).trans (Nat.lt_succ_self _))
  | case4 => cases decoded
  | case5 a text two three b c rest ih =>
    obtain ⟨later, next, rfl⟩ := Outcome.map_eq_ok.mp decoded
    have shorter := ih next
    simp only [List.length_cons]
    omega
  | case6 => cases decoded
  | case7 a rest text two three ih =>
    obtain ⟨later, next, rfl⟩ := Outcome.map_eq_ok.mp decoded
    exact Nat.succ_lt_succ (ih next)

theorem utf8ToUtf16_ok_iff {bytes : List UInt8} (text : 0 ∉ bytes)
    (fits : bytes.length ≤ 1023) :
    (∃ units, utf8ToUtf16 (bytes ++ [0]) = .ok units) ↔ Whole sequenceLength bytes := by
  rw [← decodeBytes_ok_iff text]
  constructor
  · rintro ⟨units, returned⟩
    obtain ⟨units, decoded, -⟩ := Outcome.bind_eq_ok.mp returned
    exact ⟨units, decoded⟩
  · rintro ⟨units, decoded⟩
    have short := length_decodeBytes decoded
    rw [List.length_append, List.length_singleton] at short
    have room : units.length ≤ bufferSize :=
      (Nat.le_of_lt_succ short).trans (fits.trans (by decide))
    exact ⟨units, Outcome.bind_eq_ok.mpr ⟨units, decoded, if_pos room⟩⟩

theorem encodeUnits_single {u : UInt16} (single : u.toNat < 0xd800 ∨ 0xdbff < u.toNat) :
    ∃ out : List UInt8, ∀ rest, encodeUnits (u :: rest) = (out ++ ·) <$> encodeUnits rest := by
  by_cases one : u.toNat < 0x80
  · exact ⟨[u.toUInt8], fun rest => (encodeUnits_cons u rest).trans (if_pos one)⟩
  by_cases two : u.toNat < 0x800
  · refine ⟨twoBytes u.toNat, fun rest => ?_⟩
    rw [encodeUnits_cons, if_neg one, if_pos two]
  · refine ⟨threeBytes u.toNat, fun rest => ?_⟩
    rw [encodeUnits_cons, if_neg one, if_neg two, if_pos single]

theorem encodeUnits_pair {hi : UInt16} (pair : ¬ (hi.toNat < 0xd800 ∨ 0xdbff < hi.toNat))
    (lo : UInt16) (rest : List UInt16) : encodeUnits (hi :: lo :: rest) =
      (fourBytes (codepoint hi lo).toNat ++ ·) <$> encodeUnits rest := by
  rw [encodeUnits_cons, if_neg (by omega), if_neg (by omega), if_neg pair]

/-- A high surrogate at the end is combined with what lies behind the array. -/
theorem encodeUnits_cut {hi : UInt16} (pair : ¬ (hi.toNat < 0xd800 ∨ 0xdbff < hi.toNat)) :
    encodeUnits [hi] = .error .read := by
  rw [encodeUnits_cons, if_neg (by omega), if_neg (by omega), if_neg pair]

theorem unitLength_pos (u : UInt16) : 0 < unitLength u := by
  rw [unitLength]
  split <;> decide

theorem encodeUnits_ok_iff {units : List UInt16} :
    (∃ bytes, encodeUnits units = .ok bytes) ↔ Whole unitLength units := by
  apply iff_whole (P := fun units => ∃ bytes, encodeUnits units = .ok bytes) unitLength_pos
    ⟨[], rfl⟩
  intro u rest _
  by_cases single : u.toNat < 0xd800 ∨ 0xdbff < u.toNat
  · have size : unitLength u = 1 := if_pos single
    obtain ⟨out, next⟩ := encodeUnits_single single
    rw [next, size, and_iff_right (Nat.le_add_left _ _)]
    exact Outcome.exists_map_ok
  · have size : unitLength u = 2 := if_neg single
    cases rest with
    | nil =>
      rw [encodeUnits_cut single, size]
      apply iff_of_false
      · rintro ⟨bytes, encoded⟩
        cases encoded
      · exact fun both => absurd both.1 (by decide)
    | cons lo rest =>
      rw [encodeUnits_pair single, size, and_iff_right (by rw [List.length_cons]; omega)]
      exact Outcome.exists_map_ok

/-- No unit gives more than three bytes. -/
theorem length_encodeUnits {units : List UInt16} {bytes : List UInt8}
    (encoded : encodeUnits units = .ok bytes) : bytes.length ≤ 3 * units.length := by
  fun_induction encodeUnits units generalizing bytes with
  | case1 =>
    obtain rfl := Except.ok.inj encoded
    exact le_rfl
  | case2 u rest one ih | case3 u rest one two ih | case4 u rest one two single ih =>
    obtain ⟨later, next, rfl⟩ := Outcome.map_eq_ok.mp encoded
    have bound := ih next
    simp only [twoBytes, threeBytes, List.length_cons, List.length_append, List.length_nil]
    omega
  | case5 u one two single lo rest ih =>
    obtain ⟨later, next, rfl⟩ := Outcome.map_eq_ok.mp encoded
    have bound := ih next
    simp only [fourBytes, List.length_cons, List.length_append, List.length_nil]
    omega
  | case6 => cases encoded

theorem utf16ToUtf8_ok_iff {units : List UInt16} (fits : units.length ≤ 340) :
    (∃ bytes, utf16ToUtf8 units = .ok bytes) ↔ Whole unitLength units := by
  rw [← encodeUnits_ok_iff]
  constructor
  · rintro ⟨bytes, returned⟩
    obtain ⟨bytes, encoded, -⟩ := Outcome.bind_eq_ok.mp returned
    exact ⟨bytes, encoded⟩
  · rintro ⟨bytes, encoded⟩
    have bound := length_encodeUnits encoded
    have room : bytes.length < bufferSize := by
      rw [bufferSize]
      omega
    exact ⟨_, Outcome.bind_eq_ok.mpr ⟨bytes, encoded, if_pos room⟩⟩

/-- The conversions stay in bounds exactly on whole sequences: no lead byte announces more
bytes than there are, and no high surrogate stands last. -/
theorem conversions_in_bounds_iff {bytes : List UInt8} {units : List UInt16} (text : 0 ∉ bytes)
    (short : bytes.length ≤ 1023) (few : units.length ≤ 340) :
    ((∃ decoded, utf8ToUtf16 (bytes ++ [0]) = .ok decoded) ↔ Whole sequenceLength bytes) ∧
      ((∃ encoded, utf16ToUtf8 units = .ok encoded) ↔ Whole unitLength units) :=
  ⟨utf8ToUtf16_ok_iff text short, utf16ToUtf8_ok_iff few⟩

/-- A lead byte alone, and a high surrogate alone. -/
theorem conversions_overrun :
    ¬ (∀ bytes : List UInt8, 0 ∉ bytes → bytes.length ≤ 1023 →
      ∃ units, utf8ToUtf16 (bytes ++ [0]) = .ok units) ∧
    ¬ ∀ units : List UInt16, units.length ≤ 340 → ∃ bytes, utf16ToUtf8 units = .ok bytes := by
  constructor
  · intro all
    obtain ⟨units, returned⟩ := all [0xc3] (by decide) (by decide)
    have cut : utf8ToUtf16 ([0xc3] ++ [0]) = .error .read := rfl
    rw [cut] at returned
    cases returned
  · intro all
    obtain ⟨bytes, returned⟩ := all [0xd83d] (by decide)
    have cut : utf16ToUtf8 [0xd83d] = .error .read := rfl
    rw [cut] at returned
    cases returned

theorem conversions_in_bounds_whole :
    (∃ decoded, utf8ToUtf16 ([0x61, 0xc3, 0xa9] ++ [0]) = .ok decoded) ∧
      ∃ encoded, utf16ToUtf8 [0xd83d, 0xde00] = .ok encoded := by
  obtain ⟨decodes, encodes⟩ := @conversions_in_bounds_iff [0x61, 0xc3, 0xa9] [0xd83d, 0xde00]
    (by decide) (by decide) (by decide)
  constructor
  · apply decodes.mpr
    exact @Whole.chunk _ _ 0x61 [] _ rfl (@Whole.chunk _ _ 0xc3 [0xa9] _ rfl .nil)
  · apply encodes.mpr
    exact @Whole.chunk _ _ 0xd83d [0xde00] _ rfl .nil

end OVImfService

end Ucimf.OpenVanilla
