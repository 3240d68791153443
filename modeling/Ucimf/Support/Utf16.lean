import Ucimf.Support.Utf8

/-!
# UTF-16

A character of the basic plane is one unit, any other a pair of surrogates.
-/

namespace Utf16

def encodeChar (c : Char) : List UInt16 :=
  if c.toNat < 0x10000 then [c.toNat.toUInt16]
  else
    [(0xd800 + (c.toNat - 0x10000) / 0x400).toUInt16,
      (0xdc00 + (c.toNat - 0x10000) % 0x400).toUInt16]

/-- The well-formed sequences are the encodings of texts. -/
def encode (text : List Char) : List UInt16 := text.flatMap encodeChar

@[simp] theorem encode_nil : encode [] = [] := rfl

@[simp] theorem encode_cons (c : Char) (text : List Char) :
    encode (c :: text) = encodeChar c ++ encode text := List.flatMap_cons

theorem plain_of_units {text : List Char} (units : 0 ∉ encode text) :
    ∀ c ∈ text, c.toNat ≠ 0 := by
  intro c inside zero
  apply units
  apply List.mem_flatMap.mpr
  refine ⟨c, inside, ?_⟩
  rw [encodeChar, zero]
  exact List.mem_singleton_self _

/-- The unit of a character of the basic plane. -/
theorem encodeChar_basic {c : Char} (basic : c.toNat < 0x10000) :
    ∃ u : UInt16, encodeChar c = [u] ∧ u.toNat = c.toNat := by
  refine ⟨_, if_pos basic, ?_⟩
  rw [Nat.toUInt16_eq, UInt16.toNat_ofNat']
  exact Nat.mod_eq_of_lt basic

/-- The surrogates of any other character. -/
theorem encodeChar_pair {c : Char} (beyond : 0x10000 ≤ c.toNat) :
    ∃ hi lo : UInt16, encodeChar c = [hi, lo] ∧ 0xd800 ≤ hi.toNat ∧ hi.toNat ≤ 0xdbff ∧
      0xdc00 ≤ lo.toNat ∧ lo.toNat ≤ 0xdfff ∧
      c.toNat = 0x10000 + (hi.toNat - 0xd800) * 0x400 + (lo.toNat - 0xdc00) := by
  have top := Utf8.toNat_lt c
  refine ⟨_, _, if_neg (Nat.not_lt.mpr beyond), ?_⟩
  simp only [Nat.toUInt16_eq, UInt16.toNat_ofNat']
  omega

/-- A unit of a pair. -/
def IsSurrogate (u : UInt16) : Prop := 0xd800 ≤ u.toNat ∧ u.toNat ≤ 0xdfff

instance (u : UInt16) : Decidable (IsSurrogate u) := inferInstanceAs (Decidable (_ ∧ _))

theorem no_surrogate_iff {text : List Char} :
    (∀ u ∈ encode text, ¬ IsSurrogate u) ↔ ∀ c ∈ text, c.toNat < 0x10000 := by
  constructor
  · intro none_ c inside
    by_contra beyond
    obtain ⟨hi, lo, shape, high, high', -⟩ := encodeChar_pair (Nat.not_lt.mp beyond)
    have listed : hi ∈ encode text :=
      List.mem_flatMap.mpr ⟨c, inside, shape ▸ List.mem_cons_self⟩
    exact none_ hi listed ⟨high, high'.trans (by decide)⟩
  · intro basic u listed surrogate
    obtain ⟨c, inside, listed⟩ := List.mem_flatMap.mp listed
    obtain ⟨v, shape, same⟩ := encodeChar_basic (basic c inside)
    rw [shape, List.mem_singleton] at listed
    have scalar := Utf8.not_surrogate c
    obtain ⟨low, high⟩ := surrogate
    rw [listed, same] at low high
    omega

end Utf16
