import Ucimf.Keyboard.KeyState
import Mathlib.Data.Nat.Bitwise
import Mathlib.Data.List.TakeWhile

/-!
# From keysyms to terminal strings

`keysym_to_term_string` writes the bytes of a keysym to a static buffer, which its callers
read as a C string. A character composed on the keypad is written on the release of a
modifier.
-/

namespace Ucimf.Keyboard

open KeyType

/-- What a C string holds: the bytes before the first NUL. -/
def cString (bytes : List UInt8) : List UInt8 := bytes.takeWhile (· ≠ 0)

/-- The bytes of an ASCII text. -/
def ascii (text : String) : List UInt8 := text.toList.map fun c => c.toNat.toUInt8

def esc : UInt8 := 0x1b

def toUtf8 (c : Nat) : List UInt8 :=
  if c < 0x80 then [c.toUInt8]
  else if c < 0x800 then [(0xc0 ||| (c >>> 6)).toUInt8, (0x80 ||| (c &&& 0x3f)).toUInt8]
  else if c < 0x10000 then
    if 0xD800 ≤ c ∧ c < 0xE000 then []
    else if c = 0xFFFF then []
    else [(0xe0 ||| (c >>> 12)).toUInt8, (0x80 ||| ((c >>> 6) &&& 0x3f)).toUInt8,
      (0x80 ||| (c &&& 0x3f)).toUInt8]
  else if c < 0x200000 then
    [(0xf0 ||| (c >>> 18)).toUInt8, (0x80 ||| ((c >>> 12) &&& 0x3f)).toUInt8,
      (0x80 ||| ((c >>> 6) &&& 0x3f)).toUInt8, (0x80 ||| (c &&& 0x3f)).toUInt8]
  else []

theorem length_cString_le (bytes : List UInt8) : (cString bytes).length ≤ bytes.length :=
  (List.takeWhile_prefix _).length_le

@[simp] theorem cString_cString (bytes : List UInt8) : cString (cString bytes) = cString bytes :=
  List.takeWhile_idem

theorem cString_eq_self {bytes : List UInt8} (text : 0 ∉ bytes) : cString bytes = bytes := by
  apply List.takeWhile_eq_self_iff.mpr
  intro b hb
  exact decide_eq_true fun zero => text (zero ▸ hb)

theorem cString_eq_nil {b : UInt8} {bytes : List UInt8} : cString (b :: bytes) = [] ↔ b = 0 := by
  rw [cString, List.takeWhile_cons]
  by_cases zero : b = 0 <;> simp [zero]

theorem of_cString_cons {b c : UInt8} {bytes rest : List UInt8}
    (text : cString (b :: bytes) = c :: rest) : b = c ∧ cString bytes = rest := by
  rw [cString, List.takeWhile_cons] at text
  split at text
  · exact List.cons.inj text
  · cases text

theorem length_toUtf8_le (c : Nat) : (toUtf8 c).length ≤ 4 := by
  unfold toUtf8
  repeat' split
  all_goals simp

/-- The numbers `to_utf8` writes as a text. -/
def Encodable (c : Nat) : Prop :=
  c ≠ 0 ∧ c < 0x200000 ∧ ¬ (0xD800 ≤ c ∧ c < 0xE000) ∧ c ≠ 0xFFFF

instance (c : Nat) : Decidable (Encodable c) :=
  inferInstanceAs (Decidable (_ ∧ _ ∧ _ ∧ _))

theorem le_or_toUInt8 {high low : Nat} (small : high < 256) (below : low < 256) :
    high ≤ (high ||| low).toUInt8.toNat := by
  have value : (high ||| low).toUInt8.toNat = (high ||| low) % 256 := rfl
  rw [value, Nat.mod_eq_of_lt (Nat.or_lt_two_pow (n := 8) small below)]
  exact Nat.left_le_or

theorem or_toUInt8_ne_zero {high low : Nat} (positive : 0 < high) (small : high < 256)
    (below : low < 256) : (high ||| low).toUInt8 ≠ 0 := by
  intro zero
  have bound := le_or_toUInt8 small below
  rw [zero] at bound
  exact absurd positive (Nat.not_lt.mpr bound)

theorem cString_lead_ne_nil {high low : Nat} (positive : 0 < high) (small : high < 256)
    (below : low < 256) (tail : List UInt8) : cString ((high ||| low).toUInt8 :: tail) ≠ [] :=
  fun empty => or_toUInt8_ne_zero positive small below (cString_eq_nil.mp empty)

theorem cString_toUtf8_eq_nil {c : Nat} : cString (toUtf8 c) = [] ↔ ¬ Encodable c := by
  unfold toUtf8 Encodable
  simp only [Nat.shiftRight_eq_div_pow]
  split
  · next one =>
    have value : c.toUInt8 = 0 ↔ c = 0 := by
      rw [← UInt8.toNat_inj, Nat.toUInt8_eq, UInt8.toNat_ofNat', UInt8.toNat_zero]
      omega
    rw [cString_eq_nil, value]
    omega
  split
  · next two =>
    refine iff_of_false (cString_lead_ne_nil (by decide) (by decide) (by omega) _) ?_
    omega
  split
  · next three =>
    split
    · next surrogate => exact iff_of_true rfl fun encodable => encodable.2.2.1 surrogate
    split
    · next last => exact iff_of_true rfl fun encodable => encodable.2.2.2 last
    · refine iff_of_false (cString_lead_ne_nil (by decide) (by decide) (by omega) _) ?_
      omega
  split
  · next four =>
    refine iff_of_false (cString_lead_ne_nil (by decide) (by decide) (by omega) _) ?_
    omega
  · next large => exact iff_of_true rfl fun encodable => large encodable.2.1

/-- The escape character begins no longer encoding. -/
theorem cString_toUtf8_escape {c : Nat} {rest : List UInt8}
    (text : cString (toUtf8 c) = 27 :: rest) : rest = [] := by
  have lead {high low : Nat} {tail : List UInt8} (large : 27 < high) (small : high < 256)
      (below : low < 256) : cString ((high ||| low).toUInt8 :: tail) ≠ 27 :: rest := by
    intro same
    have value := le_or_toUInt8 small below
    rw [(of_cString_cons same).1] at value
    exact absurd value (by simpa using large)
  unfold toUtf8 at text
  simp only [Nat.shiftRight_eq_div_pow] at text
  split at text
  · exact (of_cString_cons text).2.symm
  split at text
  · exact absurd text (lead (by decide) (by decide) (by omega))
  split at text
  · split at text
    · cases text
    split at text
    · cases text
    · exact absurd text (lead (by decide) (by decide) (by omega))
  split at text
  · exact absurd text (lead (by decide) (by decide) (by omega))
  · cases text

/-- `KL( val )`. -/
def kl (c : Char) : Keysym := ⟨ktLatin, c.toNat.toUInt8⟩

def numMap : List Keysym :=
  [kl '0', kl '1', kl '2', kl '3', kl '4', kl '5', kl '6', kl '7', kl '8', kl '9',
   kl '+', kl '-', kl '*', kl '/', kEnter, kl ',', kl '.', kl '?', kl '(', kl ')', kl '#']

def fnMap : List Keysym :=
  [kInsert, kSelect, kDown, kPgdn, kLeft, kP5, kRight, kFind, kUp, kPgup,
   kl '+', kl '-', kl '*', kl '/', kEnter, kRemove, kRemove, kl '?', kl '(', kl ')', kl '#']

def appMap : List UInt8 := ascii "pqrstuvwxylSRQMnnmPQS"

def curChars : List UInt8 := ascii "BDCA"

namespace KeyState

def keypadKeysymRedirect (s : KeyState) (sym : Keysym) : Keysym :=
  if s.applicKeypad = true ∨ sym.type ≠ ktPad ∨ nrPad ≤ sym.val.toNat then sym
  else if s.numLock then numMap.getD sym.val.toNat sym
  else fnMap.getD sym.val.toNat sym

/-- `npadch` after one more digit; the product wraps as an `int` does. -/
def composed (npadch : BitVec 32) (value : UInt8) : BitVec 32 :=
  let base : BitVec 32 := if kHex0.val ≤ value then 16 else 10
  let digit : BitVec 32 :=
    BitVec.ofNat 32 (if kHex0.val ≤ value then (value - kHex0.val).toNat else value.toNat)
  if npadch = -1 then digit else npadch * base + digit

/-- What the switch of `keysym_to_term_string` writes to its buffer. -/
def termBytes (k : Kernel) (s : KeyState) (sym : Keysym) (down : Bool) : List UInt8 :=
  match sym.type with
  | .ktLatin | .ktLetter =>
    if sym.val < acStart ∨ acEnd < sym.val then toUtf8 sym.val.toNat else []
  | .ktFn => cString (k.funcString sym.val)
  | .ktSpec =>
    if sym = kEnter then if s.crWithLf then ascii "\r\n" else ascii "\r"
    else if sym = kNum ∧ s.applicKeypad = true then esc :: ascii "OP"
    else []
  | .ktPad =>
    if s.applicKeypad = true ∧ s.shiftDown kgShift = 0 then
      match appMap[sym.val.toNat]? with
      | some c => if sym.val.toNat < nrPad then esc :: ascii "O" ++ [c] else []
      | none => []
    else if sym = kP5 ∧ ¬ s.numLock then
      esc :: ascii (if s.applicKeypad then "O" else "[") ++ ascii "G"
    else []
  | .ktCur =>
    match curChars[sym.val.toNat]? with
    | some c => esc :: ascii (if s.cursorEsco then "O" else "[") ++ [c]
    | none => []
  | .ktMeta => if k.metaBit then [0x80 ||| sym.val] else [esc, sym.val]
  | .ktShift => if down = false ∧ s.npadch ≠ -1 then toUtf8 s.npadch.toNat else []
  | _ => []

/-- What it does to `npadch`. -/
def termNpadch (s : KeyState) (sym : Keysym) (down : Bool) : BitVec 32 :=
  match sym.type with
  | .ktShift => if down then s.npadch else -1
  | .ktAscii => if sym.val.toNat < nrAscii then composed s.npadch sym.val else s.npadch
  | _ => s.npadch

def keysymToTermString (k : Kernel) (s : KeyState) (sym : Keysym) (down : Bool) :
    List UInt8 × KeyState :=
  if sym.type ≠ ktShift ∧ down = false then ([], s)
  else
    let sym := s.keypadKeysymRedirect sym
    (cString (s.termBytes k sym down), { s with npadch := s.termNpadch sym down })

section TermString

variable {k : Kernel} {s : KeyState} {sym : Keysym} {down : Bool}

theorem keysymToTermString_release (plain : sym.type ≠ ktShift) :
    keysymToTermString k s sym false = ([], s) :=
  if_pos ⟨plain, rfl⟩

theorem keypadKeysymRedirect_of_ne (other : sym.type ≠ ktPad) :
    s.keypadKeysymRedirect sym = sym :=
  if_pos (.inr (.inl other))

/-- A key event does not change how its own keysym is redirected: only the lock keys and
the modifiers touch the locks. -/
theorem keypadKeysymRedirect_keycodeToKeysym (keycode : Nat) :
    (keycodeToKeysym k s keycode down).2.keypadKeysymRedirect (entry k s keycode) =
      s.keypadKeysymRedirect (entry k s keycode) := by
  by_cases pad : (entry k s keycode).type = ktPad
  · rw [keycodeToKeysym_plain (by rw [pad]; decide) (by rw [pad]; decide)]
    rfl
  · rw [keypadKeysymRedirect_of_ne pad, keypadKeysymRedirect_of_ne pad]

theorem npadch_keysymToTermString_press (other : sym.type ≠ ktPad) :
    (keysymToTermString k s sym true).2.npadch = s.termNpadch sym true := by
  rw [keysymToTermString, if_neg fun both => Bool.false_ne_true both.2.symm]
  simp only [keypadKeysymRedirect_of_ne other]

/-- The release of a modifier ends the composition on the keypad. -/
theorem keysymToTermString_shift (shift : sym.type = ktShift) :
    keysymToTermString k s sym false =
      (if s.npadch = -1 then [] else cString (toUtf8 s.npadch.toNat), { s with npadch := -1 }) := by
  have redirect : s.keypadKeysymRedirect sym = sym :=
    keypadKeysymRedirect_of_ne (by rw [shift]; decide)
  rw [keysymToTermString, if_neg fun both => both.1 shift]
  simp only [redirect, termBytes, termNpadch, shift, Bool.false_eq_true, if_false, true_and,
    ne_eq, ite_not]
  by_cases idle : s.npadch = -1
  · rw [if_pos idle, if_pos idle]
    rfl
  · rw [if_neg idle, if_neg idle]

theorem keysymToTermString_hole : keysymToTermString k s kHole down = ([], s) := by
  cases down with
  | false => exact keysymToTermString_release (by decide)
  | true =>
    have redirect : s.keypadKeysymRedirect kHole = kHole :=
      keypadKeysymRedirect_of_ne (by decide)
    rw [keysymToTermString, if_neg fun both => Bool.false_ne_true both.2.symm]
    simp only [redirect]
    rfl

/-- What the translator writes for a keysym that is no function key. -/
theorem termBytes_cases (k : Kernel) (s : KeyState) (down : Bool) (plain : sym.type ≠ ktFn) :
    (∃ c, s.termBytes k sym down = toUtf8 c) ∨ (s.termBytes k sym down).length ≤ 2 ∨
      (∃ c, s.termBytes k sym down = [0x1b, 0x4f, c]) ∨
      (∃ c ∈ curChars, s.termBytes k sym down = [0x1b, 0x5b, c]) ∨
      (sym = kP5 ∧ s.termBytes k sym down = [0x1b, 0x5b, 0x47]) := by
  unfold termBytes
  split
  · split
    · exact .inl ⟨_, rfl⟩
    · exact .inr (.inl (Nat.zero_le 2))
  · split
    · exact .inl ⟨_, rfl⟩
    · exact .inr (.inl (Nat.zero_le 2))
  · next fn => exact absurd fn plain
  · split
    · split
      · exact .inr (.inl le_rfl)
      · exact .inr (.inl (by decide))
    split
    · exact .inr (.inr (.inl ⟨80, rfl⟩))
    · exact .inr (.inl (Nat.zero_le 2))
  · split
    · split
      · next c _ =>
        split
        · exact .inr (.inr (.inl ⟨c, rfl⟩))
        · exact .inr (.inl (Nat.zero_le 2))
      · exact .inr (.inl (Nat.zero_le 2))
    split
    · next centre =>
      split
      · exact .inr (.inr (.inl ⟨71, rfl⟩))
      · exact .inr (.inr (.inr (.inr ⟨centre.1, rfl⟩)))
    · exact .inr (.inl (Nat.zero_le 2))
  · split
    · next c found =>
      split
      · exact .inr (.inr (.inl ⟨c, rfl⟩))
      · exact .inr (.inr (.inr (.inl ⟨c, List.mem_of_getElem? found, rfl⟩)))
    · exact .inr (.inl (Nat.zero_le 2))
  · split
    · exact .inr (.inl (Nat.le_succ 1))
    · exact .inr (.inl le_rfl)
  · split
    · exact .inl ⟨_, rfl⟩
    · exact .inr (.inl (Nat.zero_le 2))
  · exact .inr (.inl (Nat.zero_le 2))

theorem length_termBytes_le (other : sym.type ≠ ktFn) :
    (s.termBytes k sym down).length ≤ 4 := by
  rcases termBytes_cases k s down other with
    ⟨c, bytes⟩ | short | ⟨c, bytes⟩ | ⟨c, -, bytes⟩ | ⟨-, bytes⟩
  · rw [bytes]
    exact length_toUtf8_le c
  · exact short.trans (by decide)
  all_goals
    rw [bytes]
    exact Nat.le_succ 3

/-- The string of an event fits `char str[128]` unless it is the text of a function key. -/
theorem length_keysymToTermString :
    (keysymToTermString k s sym down).1.length < 128 ↔
      (down = true → (s.keypadKeysymRedirect sym).type = ktFn →
        (cString (k.funcString (s.keypadKeysymRedirect sym).val)).length < 128) := by
  unfold keysymToTermString
  split
  · next quiet => simp [quiet.2]
  · next written =>
    dsimp only
    by_cases fn : (s.keypadKeysymRedirect sym).type = ktFn
    · have plain : sym.type ≠ ktShift := by
        intro shift
        rw [keypadKeysymRedirect_of_ne (by rw [shift]; decide), shift] at fn
        cases fn
      have press : down = true := by simpa [plain] using written
      simp [press, termBytes, fn]
    · have short := (length_cString_le (s.termBytes k (s.keypadKeysymRedirect sym) down)).trans
        (length_termBytes_le fn)
      exact iff_of_true (by omega) fun _ found => absurd found fn

end TermString

end KeyState

end Ucimf.Keyboard
