import Mathlib.Data.Nat.Digits.Defs
import Mathlib.Data.List.TakeWhile

/-!
# Decimal text

`text` is what a stream prints for an integer, and `atoi` reads a text as the C library
does: it skips white space, takes a sign and the digits that follow, and drops the rest.
-/

namespace Decimal

def minus : UInt8 := 0x2d
def plus : UInt8 := 0x2b

def isSpace (c : UInt8) : Bool := c = 0x20 || (0x09 ≤ c && c ≤ 0x0d)

def isDigit (c : UInt8) : Bool := 0x30 ≤ c && c ≤ 0x39

def digitChar (d : Nat) : UInt8 := UInt8.ofNat (0x30 + d)

/-- The digits of a number from the first; zero has one. -/
def digits (n : Nat) : List Nat := if n = 0 then [0] else (Nat.digits 10 n).reverse

def natText (n : Nat) : List UInt8 := (digits n).map digitChar

def text (v : Int) : List UInt8 :=
  if v < 0 then minus :: natText v.natAbs else natText v.natAbs

def digitsValue (s : List UInt8) : Nat :=
  (s.takeWhile isDigit).foldl (fun n c => 10 * n + (c.toNat - 0x30)) 0

def signedValue : List UInt8 → Int
  | [] => 0
  | c :: rest =>
    if c = minus then -(digitsValue rest)
    else if c = plus then digitsValue rest
    else digitsValue (c :: rest)

/-- `strtol` in base ten keeps to the range of a `long`. -/
def strtol (s : List UInt8) : Int :=
  max (-2 ^ 63) (min (2 ^ 63 - 1) (signedValue (s.dropWhile isSpace)))

def atoi (s : List UInt8) : Int32 := Int32.ofInt (strtol s)

theorem digitChar_toNat {d : Nat} (digit : d < 10) : (digitChar d).toNat = 0x30 + d := by
  rw [digitChar, UInt8.toNat_ofNat']
  omega

theorem isDigit_iff (c : UInt8) : isDigit c = true ↔ 0x30 ≤ c.toNat ∧ c.toNat ≤ 0x39 := by
  rw [isDigit, Bool.and_eq_true, decide_eq_true_eq, decide_eq_true_eq, UInt8.le_iff_toNat_le,
    UInt8.le_iff_toNat_le]
  exact Iff.rfl

theorem isDigit_digitChar {d : Nat} (digit : d < 10) : isDigit (digitChar d) = true := by
  rw [isDigit_iff, digitChar_toNat digit]
  omega

theorem lt_ten_of_mem_digits {n d : Nat} (mem : d ∈ digits n) : d < 10 := by
  unfold digits at mem
  split at mem
  · rw [List.mem_singleton.mp mem]
    decide
  · exact Nat.digits_lt_base (by decide) (List.mem_reverse.mp mem)

theorem digits_ne_nil (n : Nat) : digits n ≠ [] := by
  unfold digits
  split
  · exact List.cons_ne_nil _ _
  · intro none_
    have zero := Nat.digits_eq_nil_iff_eq_zero.mp (List.reverse_eq_nil_iff.mp none_)
    exact absurd zero ‹_›

theorem foldl_digits (n : Nat) : (digits n).foldl (fun v d => d + 10 * v) 0 = n := by
  unfold digits
  split
  · exact Eq.symm ‹_›
  · rw [List.foldl_reverse]
    exact (Nat.ofDigits_eq_foldr 10 _).symm.trans (Nat.ofDigits_digits 10 n)

theorem isDigit_of_mem_natText {n : Nat} {c : UInt8} (mem : c ∈ natText n) :
    isDigit c = true := by
  obtain ⟨d, digit, rfl⟩ := List.mem_map.mp mem
  exact isDigit_digitChar (lt_ten_of_mem_digits digit)

theorem foldl_digitChar {ds : List Nat} (digits : ∀ d ∈ ds, d < 10) (n : Nat) :
    (ds.map digitChar).foldl (fun n c => 10 * n + (c.toNat - 0x30)) n =
      ds.foldl (fun n d => d + 10 * n) n := by
  induction ds generalizing n with
  | nil => rfl
  | cons d ds ih =>
    rw [List.forall_mem_cons] at digits
    rw [List.map_cons, List.foldl_cons, List.foldl_cons, ih digits.2, digitChar_toNat digits.1,
      Nat.add_sub_cancel_left, Nat.add_comm]

theorem digitsValue_natText (n : Nat) : digitsValue (natText n) = n := by
  have whole : (natText n).takeWhile isDigit = natText n :=
    List.takeWhile_eq_self_iff.mpr fun c mem => isDigit_of_mem_natText mem
  rw [digitsValue, whole, natText, foldl_digitChar fun d => lt_ten_of_mem_digits, foldl_digits]

theorem of_isDigit {c : UInt8} (digit : isDigit c = true) :
    c ≠ minus ∧ c ≠ plus ∧ isSpace c = false := by
  refine ⟨?_, ?_, ?_⟩
  · rintro rfl
    exact absurd digit (by decide)
  · rintro rfl
    exact absurd digit (by decide)
  · have range := (isDigit_iff c).mp digit
    rw [isSpace, Bool.or_eq_false_iff, Bool.and_eq_false_iff]
    refine ⟨decide_eq_false ?_, .inr (decide_eq_false ?_)⟩
    · rintro rfl
      exact absurd range.1 (by decide)
    · rw [UInt8.le_iff_toNat_le]
      exact Nat.not_le.mpr (Nat.lt_of_lt_of_le (by decide) range.1)

theorem signedValue_natText (n : Nat) : signedValue (natText n) = n := by
  have value := digitsValue_natText n
  cases shape : natText n with
  | nil => exact absurd (List.map_eq_nil_iff.mp shape) (digits_ne_nil n)
  | cons c rest =>
    have digit : isDigit c = true :=
      isDigit_of_mem_natText (n := n) (shape ▸ List.mem_cons_self)
    obtain ⟨not_minus, not_plus, -⟩ := of_isDigit digit
    rw [signedValue, if_neg not_minus, if_neg not_plus, ← shape, value]

theorem signedValue_text (v : Int) : signedValue (text v) = v := by
  unfold text
  split
  · rw [signedValue, if_pos rfl, digitsValue_natText]
    omega
  · rw [signedValue_natText]
    omega

theorem dropWhile_text (v : Int) : (text v).dropWhile isSpace = text v := by
  have first : ∀ c, (text v).head? = some c → isSpace c = false := by
    unfold text
    split
    · intro c head
      obtain rfl := Option.some.inj head
      decide
    · intro c head
      exact (of_isDigit (isDigit_of_mem_natText (List.mem_of_head? head))).2.2
  cases shape : text v with
  | nil => rfl
  | cons c rest =>
    rw [shape] at first
    exact List.dropWhile_cons_of_neg (by simp [first c rfl])

/-- An `int` is read back from its text. -/
theorem atoi_text (v : Int32) : atoi (text v.toInt) = v := by
  have low := v.le_toInt
  have high := v.toInt_lt
  rw [atoi, strtol, dropWhile_text, signedValue_text, min_eq_right, max_eq_right,
    Int32.ofInt_toInt]
  · omega
  · omega

end Decimal
