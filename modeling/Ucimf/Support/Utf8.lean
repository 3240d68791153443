import Mathlib.Data.Nat.Bitwise

/-!
# UTF-8

The standard encoding of a character is `String.utf8EncodeChar`. Encoders write its bytes with
shifts, masks and `or`; the lemmas here turn those into the sums of the standard.
-/

namespace Utf8

/-- The encoding of a text. -/
def encode (text : List Char) : List UInt8 := text.flatMap String.utf8EncodeChar

@[simp] theorem encode_nil : encode [] = [] := rfl

@[simp] theorem encode_cons (c : Char) (text : List Char) :
    encode (c :: text) = String.utf8EncodeChar c ++ encode text := List.flatMap_cons

/-- A header over low bits that it leaves free. -/
theorem header_or {n : Nat} (i a : Nat) (small : n < 2 ^ i) : 2 ^ i * a ||| n = n + 2 ^ i * a := by
  rw [Nat.add_comm]
  exact (Nat.two_pow_add_eq_or_of_lt small a).symm

/-- A continuation byte. -/
theorem tail_or (n : Nat) : 0x80 ||| (n &&& 0x3f) = n % 0x40 + 0x80 := by
  have low : n &&& 0x3f = n % 0x40 := Nat.and_two_pow_sub_one_eq_mod n 6
  rw [low]
  exact header_or 6 2 (Nat.mod_lt n (by decide))

/-- The lead bytes of two, three and four. -/
theorem lead2_or {n : Nat} (small : n < 0x20) : 0xc0 ||| n = n % 0x20 + 0xc0 := by
  rw [Nat.mod_eq_of_lt small]
  exact header_or 5 6 small

theorem lead3_or {n : Nat} (small : n < 0x10) : 0xe0 ||| n = n % 0x10 + 0xe0 := by
  rw [Nat.mod_eq_of_lt small]
  exact header_or 4 14 small

theorem lead4_or {n : Nat} (small : n < 0x08) : 0xf0 ||| n = n % 0x08 + 0xf0 := by
  rw [Nat.mod_eq_of_lt small]
  exact header_or 3 30 small

theorem toNat_lt (c : Char) : c.toNat < 0x110000 := by
  rcases c.valid with low | ⟨-, high⟩
  · exact low.trans (by decide)
  · exact high

theorem not_surrogate (c : Char) : ¬ (0xd800 ≤ c.toNat ∧ c.toNat < 0xe000) := by
  intro both
  have valid : c.toNat.isValidChar := c.valid
  rcases valid with low | ⟨high, -⟩ <;> omega

theorem toNat_ofNat {n : Nat} (valid : n.isValidChar) : (Char.ofNat n).toNat = n := by
  rw [Char.ofNat, dif_pos valid]
  rfl

/-! ### The four classes -/

section Classes
variable {c : Char}

theorem encodeChar_one (one : c.toNat < 0x80) : String.utf8EncodeChar c = [c.toNat.toUInt8] :=
  if_pos (Nat.le_of_lt_succ one)

theorem encodeChar_two (low : 0x80 ≤ c.toNat) (two : c.toNat < 0x800) :
    String.utf8EncodeChar c =
      [(0xc0 ||| (c.toNat >>> 6)).toUInt8, (0x80 ||| (c.toNat &&& 0x3f)).toUInt8] := by
  rw [tail_or, Nat.shiftRight_eq_div_pow, lead2_or (by omega)]
  exact (if_neg (Nat.not_le.mpr low)).trans (if_pos (Nat.le_of_lt_succ two))

theorem encodeChar_three (low : 0x800 ≤ c.toNat) (three : c.toNat < 0x10000) :
    String.utf8EncodeChar c = [(0xe0 ||| (c.toNat >>> 12)).toUInt8,
      (0x80 ||| ((c.toNat >>> 6) &&& 0x3f)).toUInt8, (0x80 ||| (c.toNat &&& 0x3f)).toUInt8] := by
  have above : ¬ c.toNat ≤ 0x7f := by omega
  rw [tail_or, tail_or, Nat.shiftRight_eq_div_pow, Nat.shiftRight_eq_div_pow, lead3_or (by omega)]
  exact (if_neg above).trans ((if_neg (Nat.not_le.mpr low)).trans
    (if_pos (Nat.le_of_lt_succ three)))

theorem encodeChar_four (low : 0x10000 ≤ c.toNat) :
    String.utf8EncodeChar c = [(0xf0 ||| (c.toNat >>> 18)).toUInt8,
      (0x80 ||| ((c.toNat >>> 12) &&& 0x3f)).toUInt8,
      (0x80 ||| ((c.toNat >>> 6) &&& 0x3f)).toUInt8, (0x80 ||| (c.toNat &&& 0x3f)).toUInt8] := by
  have high := toNat_lt c
  have one : ¬ c.toNat ≤ 0x7f := by omega
  have two : ¬ c.toNat ≤ 0x7ff := by omega
  rw [tail_or, tail_or, tail_or, Nat.shiftRight_eq_div_pow, Nat.shiftRight_eq_div_pow,
    Nat.shiftRight_eq_div_pow, lead4_or (by omega)]
  exact (if_neg one).trans ((if_neg two).trans (if_neg (Nat.not_le.mpr low)))

/-- The values of the bytes. -/
theorem bytes_two (low : 0x80 ≤ c.toNat) (two : c.toNat < 0x800) :
    ∃ a b : UInt8, String.utf8EncodeChar c = [a, b] ∧
      a.toNat = c.toNat / 64 + 0xc0 ∧ b.toNat = c.toNat % 64 + 0x80 := by
  refine ⟨_, _, encodeChar_two low two, ?_⟩
  rw [tail_or, Nat.shiftRight_eq_div_pow, lead2_or (by omega)]
  simp only [Nat.toUInt8_eq, UInt8.toNat_ofNat']
  omega

theorem bytes_three (low : 0x800 ≤ c.toNat) (three : c.toNat < 0x10000) :
    ∃ a b d : UInt8, String.utf8EncodeChar c = [a, b, d] ∧ a.toNat = c.toNat / 4096 + 0xe0 ∧
      b.toNat = c.toNat / 64 % 64 + 0x80 ∧ d.toNat = c.toNat % 64 + 0x80 := by
  refine ⟨_, _, _, encodeChar_three low three, ?_⟩
  rw [tail_or, tail_or, Nat.shiftRight_eq_div_pow, Nat.shiftRight_eq_div_pow,
    lead3_or (by omega)]
  simp only [Nat.toUInt8_eq, UInt8.toNat_ofNat']
  omega

theorem bytes_four (low : 0x10000 ≤ c.toNat) :
    ∃ a b d e : UInt8, String.utf8EncodeChar c = [a, b, d, e] ∧
      a.toNat = c.toNat / 262144 + 0xf0 ∧ b.toNat = c.toNat / 4096 % 64 + 0x80 ∧
      d.toNat = c.toNat / 64 % 64 + 0x80 ∧ e.toNat = c.toNat % 64 + 0x80 := by
  have high := toNat_lt c
  refine ⟨_, _, _, _, encodeChar_four low, ?_⟩
  rw [tail_or, tail_or, tail_or, Nat.shiftRight_eq_div_pow, Nat.shiftRight_eq_div_pow,
    Nat.shiftRight_eq_div_pow, lead4_or (by omega)]
  simp only [Nat.toUInt8_eq, UInt8.toNat_ofNat']
  omega

end Classes

/-! ### ASCII bytes -/

/-- A byte below `0x80` stands for the character of its value. -/
theorem eq_of_mem_encodeChar {c : Char} {b : UInt8} (small : b.toNat < 0x80)
    (inside : b ∈ String.utf8EncodeChar c) : c.toNat = b.toNat := by
  by_cases one : c.toNat < 0x80
  · rw [encodeChar_one one] at inside
    have same := congrArg UInt8.toNat (List.mem_singleton.mp inside)
    rw [Nat.toUInt8_eq, UInt8.toNat_ofNat'] at same
    omega
  have low := Nat.not_lt.mp one
  by_cases two : c.toNat < 0x800
  · obtain ⟨x, y, bytes, hx, hy⟩ := bytes_two low two
    rw [bytes] at inside
    rcases List.mem_cons.mp inside with rfl | inside
    · omega
    · obtain rfl := List.mem_singleton.mp inside
      omega
  have low := Nat.not_lt.mp two
  by_cases three : c.toNat < 0x10000
  · obtain ⟨x, y, z, bytes, hx, hy, hz⟩ := bytes_three low three
    rw [bytes] at inside
    simp only [List.mem_cons, List.not_mem_nil, or_false] at inside
    rcases inside with rfl | rfl | rfl <;> omega
  · obtain ⟨x, y, z, w, bytes, hx, hy, hz, hw⟩ := bytes_four (Nat.not_lt.mp three)
    rw [bytes] at inside
    simp only [List.mem_cons, List.not_mem_nil, or_false] at inside
    rcases inside with rfl | rfl | rfl | rfl <;> omega

theorem zero_notMem_encodeChar {c : Char} (text : c.toNat ≠ 0) : 0 ∉ String.utf8EncodeChar c := by
  intro zero
  exact text (eq_of_mem_encodeChar (by decide) zero)

theorem zero_notMem_encode {text : List Char} (plain : ∀ c ∈ text, c.toNat ≠ 0) :
    0 ∉ encode text := by
  intro zero
  obtain ⟨c, inside, zero⟩ := List.mem_flatMap.mp zero
  exact zero_notMem_encodeChar (plain c inside) zero

/-! ### Decoding -/

theorem encode_injective {text other : List Char} (same : encode text = encode other) :
    text = other := by
  have decoded (t : List Char) : (encode t).toByteArray.utf8Decode? = some t.toArray :=
    List.utf8Decode?_utf8Encode
  have both := (decoded text).symm.trans (same ▸ decoded other)
  exact Array.toList_inj.mpr (Option.some.inj both)

theorem encode_append (text other : List Char) :
    encode (text ++ other) = encode text ++ encode other :=
  List.flatMap_append

end Utf8
