import Ucimf.Keyboard.TermString
import Ucimf.Support.Utf8
import Mathlib.Data.List.Induction

/-!
# Characters composed on the keypad

While a modifier is held, digits of the keypad build a number in `npadch`, which the release
of the modifier writes as a character. `npadch` is an `int` that says `-1` when nothing was
typed, so a number that comes to `-1` is forgotten and the next digit starts anew.
-/

namespace Ucimf.Keyboard

open KeyType

/-- A key of type `KT_ASCII`: `K_ASC0` to `K_ASC9`, then `K_HEX0` to `K_HEXf`. -/
abbrev Digit := Fin 26

namespace Digit

def keysym (d : Digit) : Keysym := ⟨ktAscii, UInt8.ofNat d⟩

def base (d : Digit) : Nat := if 10 ≤ d.val then 16 else 10

def value (d : Digit) : Nat := if 10 ≤ d.val then d.val - 10 else d.val

end Digit

/-- The number that the digits denote. -/
def number (ds : List Digit) : Nat := ds.foldl (fun n d => n * d.base + d.value) 0

/-- The digits after the last one that brings the number to `-1` modulo `2 ^ 32`. -/
def stretch (ds : List Digit) : List Digit :=
  ds.foldl (fun typed d =>
    if number (typed ++ [d]) % 2 ^ 32 = 2 ^ 32 - 1 then [] else typed ++ [d]) []

/-- The text of a number: nothing for what is no character, for NUL and for U+FFFF. -/
def character (n : Nat) : List UInt8 :=
  if n.isValidChar ∧ n ≠ 0 ∧ n ≠ 0xFFFF then String.utf8EncodeChar (Char.ofNat n) else []

namespace KeyState

/-- The keys are pressed one after another. -/
def presses (k : Kernel) (s : KeyState) (ds : List Digit) : KeyState :=
  ds.foldl (fun s d => (s.keysymToTermString k d.keysym true).2) s

/-- After the digits the release of a modifier returns the character they denote. -/
def Composes (k : Kernel) (s : KeyState) (ds : List Digit) (modifier : UInt8) : Prop :=
  ((s.presses k ds).keysymToTermString k ⟨ktShift, modifier⟩ false).1 = character (number ds) ∧
    ((s.presses k ds).keysymToTermString k ⟨ktShift, modifier⟩ false).2.npadch = -1

end KeyState

/-! ### The number -/

theorem number_append (ds : List Digit) (d : Digit) :
    number (ds ++ [d]) = number ds * d.base + d.value := by
  simp only [number, List.foldl_append, List.foldl_cons, List.foldl_nil]

theorem stretch_append (ds : List Digit) (d : Digit) : stretch (ds ++ [d]) =
    if number (stretch ds ++ [d]) % 2 ^ 32 = 2 ^ 32 - 1 then [] else stretch ds ++ [d] := by
  rw [stretch, List.foldl_append]
  rfl

theorem Digit.base_pos (d : Digit) : 0 < d.base := by
  rw [base]
  split <;> decide

theorem Digit.value_lt (d : Digit) : d.value < 16 := by
  have small := d.isLt
  rw [value]
  split <;> omega

theorem number_le_append (ds : List Digit) (d : Digit) : number ds ≤ number (ds ++ [d]) := by
  rw [number_append]
  exact (Nat.le_mul_of_pos_right _ d.base_pos).trans (Nat.le_add_right _ _)

/-- A small number was never forgotten. -/
theorem stretch_eq_self {ds : List Digit} (small : number ds < 2 ^ 32 - 1) : stretch ds = ds := by
  induction ds using List.reverseRecOn with
  | nil => rfl
  | append_singleton ds d ih =>
    have before := ih ((number_le_append ds d).trans_lt small)
    rw [stretch_append, before, if_neg]
    rw [Nat.mod_eq_of_lt (by omega)]
    omega

theorem stretch_ne {ds : List Digit} (typed : stretch ds ≠ []) :
    number (stretch ds) % 2 ^ 32 ≠ 2 ^ 32 - 1 := by
  induction ds using List.reverseRecOn with
  | nil => exact absurd rfl typed
  | append_singleton ds d ih =>
    rw [stretch_append] at typed ⊢
    split
    · next forgotten =>
      rw [if_pos forgotten] at typed
      exact absurd rfl typed
    · next kept => exact kept

/-! ### The accumulator -/

namespace KeyState

variable {k : Kernel} {s : KeyState}

theorem composed_digit (n : BitVec 32) (d : Digit) : composed n d.keysym.val =
    if n = -1 then BitVec.ofNat 32 d.value
    else n * BitVec.ofNat 32 d.base + BitVec.ofNat 32 d.value := by
  have digits : ∀ d : Digit,
      (if kHex0.val ≤ d.keysym.val then (16 : BitVec 32) else 10) = BitVec.ofNat 32 d.base ∧
      BitVec.ofNat 32 (if kHex0.val ≤ d.keysym.val then (d.keysym.val - kHex0.val).toNat
        else d.keysym.val.toNat) = BitVec.ofNat 32 d.value := by
    decide
  obtain ⟨base, value⟩ := digits d
  rw [composed, base, value]

theorem npadch_press (d : Digit) :
    (s.keysymToTermString k d.keysym true).2.npadch = composed s.npadch d.keysym.val := by
  have digit : ∀ d : Digit, d.keysym.val.toNat < nrAscii := by decide
  have other : d.keysym.type ≠ ktPad := by
    intro pad
    cases pad
  rw [npadch_keysymToTermString_press other]
  exact if_pos (digit d)

theorem ofNat_eq_neg_one {n : Nat} : BitVec.ofNat 32 n = -1 ↔ n % 2 ^ 32 = 2 ^ 32 - 1 := by
  rw [← BitVec.toNat_inj, BitVec.toNat_ofNat]
  rfl

/-- What `npadch` holds after the presses. -/
theorem npadch_presses (idle : s.npadch = -1) (ds : List Digit) : (s.presses k ds).npadch =
    if stretch ds = [] then -1 else BitVec.ofNat 32 (number (stretch ds)) := by
  induction ds using List.reverseRecOn with
  | nil => exact idle
  | append_singleton ds d ih =>
    have last : (s.presses k (ds ++ [d])).npadch =
        composed (s.presses k ds).npadch d.keysym.val := by
      rw [presses, List.foldl_append]
      exact npadch_press d
    have value := d.value_lt
    rw [last, composed_digit, ih, stretch_append, number_append]
    by_cases typed : stretch ds = []
    · have first : number [] * d.base + d.value = d.value := by
        rw [show number [] = 0 from rfl, zero_mul, zero_add]
      have kept : ¬ d.value % 2 ^ 32 = 2 ^ 32 - 1 := by omega
      rw [if_pos typed, if_pos rfl, typed, first, if_neg kept, if_neg (by simp), number_append,
        first]
    · have kept := stretch_ne typed
      rw [if_neg typed, if_neg (mt ofNat_eq_neg_one.mp kept), ← BitVec.ofNat_mul,
        ← BitVec.ofNat_add]
      by_cases forgotten : (number (stretch ds) * d.base + d.value) % 2 ^ 32 = 2 ^ 32 - 1
      · rw [if_pos forgotten, if_pos rfl, ofNat_eq_neg_one]
        exact forgotten
      · rw [if_neg forgotten, if_neg (by simp), number_append]

/-- The string that the release returns. -/
theorem release_presses (idle : s.npadch = -1) (ds : List Digit) (modifier : UInt8) :
    (s.presses k ds).keysymToTermString k ⟨ktShift, modifier⟩ false =
      (cString (toUtf8 (number (stretch ds) % 2 ^ 32)), { s.presses k ds with npadch := -1 }) := by
  rw [keysymToTermString_shift rfl, npadch_presses idle]
  by_cases typed : stretch ds = []
  · rw [if_pos typed, if_pos rfl, typed]
    rfl
  · rw [if_neg typed, if_neg (mt ofNat_eq_neg_one.mp (stretch_ne typed)), BitVec.toNat_ofNat]

end KeyState

/-! ### The character -/

theorem toUtf8_toNat {c : Char} (last : c.toNat ≠ 0xFFFF) :
    toUtf8 c.toNat = String.utf8EncodeChar c := by
  have surrogate := Utf8.not_surrogate c
  have small := Utf8.toNat_lt c
  unfold toUtf8
  split
  · next one => rw [Utf8.encodeChar_one one]
  split
  · next two => rw [Utf8.encodeChar_two (by omega) two]
  split
  · next three => rw [Utf8.encodeChar_three (by omega) three]
  · next four => rw [if_pos (by omega), Utf8.encodeChar_four (by omega)]

/-- Below the end of Unicode, `to_utf8` writes the characters and nothing else. -/
theorem cString_toUtf8_of_lt {n : Nat} (small : n < 0x110000) :
    cString (toUtf8 n) = character n := by
  rw [character]
  by_cases writes : n.isValidChar ∧ n ≠ 0 ∧ n ≠ 0xFFFF
  · obtain ⟨valid, text, last⟩ := writes
    have same := Utf8.toNat_ofNat valid
    have encoded : toUtf8 n = String.utf8EncodeChar (Char.ofNat n) := by
      rw [← toUtf8_toNat (by rwa [same]), same]
    rw [if_pos ⟨valid, text, last⟩, encoded]
    exact cString_eq_self (Utf8.zero_notMem_encodeChar (by rwa [same]))
  · rw [if_neg writes, cString_toUtf8_eq_nil]
    rintro ⟨text, -, surrogate, last⟩
    have valid : n.isValidChar := by
      rw [Nat.isValidChar]
      omega
    exact writes ⟨valid, text, last⟩

/-- Beyond it nothing denotes a character. -/
theorem character_of_le {n : Nat} (large : 0x110000 ≤ n) : character n = [] := by
  apply if_neg
  rintro ⟨valid, -, -⟩
  rcases valid with low | ⟨-, high⟩ <;> omega

namespace KeyState

variable {k : Kernel} {s : KeyState}

/-- The character is right exactly when the number is below the end of Unicode, or what is
kept of it in 32 bits is nothing that `to_utf8` writes. -/
theorem composes_iff (idle : s.npadch = -1) (ds : List Digit) (modifier : UInt8) :
    s.Composes k ds modifier ↔
      number ds < 0x110000 ∨ ¬ Encodable (number (stretch ds) % 2 ^ 32) := by
  rw [Composes, release_presses idle]
  simp only [and_true]
  by_cases small : number ds < 0x110000
  · rw [stretch_eq_self (by omega), Nat.mod_eq_of_lt (by omega), cString_toUtf8_of_lt small]
    exact iff_of_true rfl (.inl small)
  · rw [character_of_le (by omega), cString_toUtf8_eq_nil, or_iff_right small]

/-- The digits 1, 1, 1, 4, 1, 1, 2 denote the first number beyond Unicode. -/
theorem composes_beyond : ¬ ∀ (k : Kernel) (s : KeyState) (ds : List Digit) (modifier : UInt8),
    ds ≠ [] → s.npadch = -1 → s.Composes k ds modifier := by
  intro all
  have composed := (all ⟨fun _ => none, fun _ => [], false⟩
    ⟨fun _ => false, fun _ => 0, 0, 0, 0, false, false, false, -1⟩ [1, 1, 1, 4, 1, 1, 2] 0
    (by decide) rfl).1
  exact absurd composed (by decide +kernel)

theorem composes_euro :
    Composes ⟨fun _ => none, fun _ => [], false⟩
      ⟨fun _ => false, fun _ => 0, 0, 0, 0, false, false, false, -1⟩ [8, 3, 6, 4] 3 :=
  (composes_iff rfl [8, 3, 6, 4] 3).mpr (.inl (by decide))

end KeyState

end Ucimf.Keyboard
