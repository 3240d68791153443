import Ucimf.Decoder.KeyEvent
import Ucimf.OpenVanilla.Commit
import Ucimf.Keyboard.Balance
import Ucimf.Keyboard.TermString

/-!
# Keys with an undefined value

A cursor sequence that is not of an arrow key falls through the table without an assignment;
in the SunPinyin copy so does a sequence with a tilde that is not of a page key. The code
then reads what lies on the stack. The centre key of the keypad sends such a sequence.
-/

namespace Ucimf.Decoder

open OpenVanilla OpenVanilla.OVImf Keyboard KeyState KeyType

variable {t : Table} {buf : Text} {vk : KeyCodes} {stack : Key}

/-- A cursor sequence other than those of the four arrows. -/
def UnknownCursor (buf : Text) : Prop := ∃ b, buf = [27, 91, b] ∧ b ∉ ([65, 66, 67, 68] : Text)

/-- A sequence that ends in a tilde, other than those of the page keys. -/
def UnknownTilde (buf : Text) : Prop := ∃ b, buf = [27, 91, b, 126] ∧ b ∉ ([53, 54] : Text)

/-- The variables of the OpenVanilla bridge are assigned before they are read: whatever lies on
the stack, the module is asked with the same event and the input is answered in the same way. -/
def OpenVanillaDefined (buf : Text) : Prop :=
  (openVanilla.assigns buf).Definite ∧
    ∀ stack stack', OVImf.asked stack buf = OVImf.asked stack' buf ∧
      ∀ o : OVImf, o.processInput stack buf = o.processInput stack' buf

/-- The same of the SunPinyin bridge. -/
def SunPinyinDefined (vk : KeyCodes) (buf : Text) : Prop :=
  ((sunPinyin vk).assigns buf).Definite ∧
    ∀ stack stack', UcimfWindowHandler.keyEventOf (UcimfWindowHandler.decodeKey vk stack buf) =
        UcimfWindowHandler.keyEventOf (UcimfWindowHandler.decodeKey vk stack' buf) ∧
      ∀ h : UcimfWindowHandler, h.processInput vk stack buf = h.processInput vk stack' buf

/-! ### What the tables assign -/

theorem isCursor_iff :
    (buf.length = 3 ∧ charAt buf 0 = 27 ∧ charAt buf 1 = 91) ↔ ∃ b, buf = [27, 91, b] := by
  constructor
  · rintro ⟨three, esc, bracket⟩
    obtain ⟨x, y, b, rfl⟩ := List.length_eq_three.mp three
    obtain rfl : x = 27 := esc
    obtain rfl : y = 91 := bracket
    exact ⟨b, rfl⟩
  · rintro ⟨b, rfl⟩
    exact ⟨rfl, rfl, rfl⟩

theorem isTilde_iff :
    (buf.length = 4 ∧ charAt buf 0 = 27 ∧ charAt buf 1 = 91 ∧ charAt buf 3 = 126) ↔
      ∃ b, buf = [27, 91, b, 126] := by
  constructor
  · rintro ⟨four, esc, bracket, tilde⟩
    match buf, four with
    | [x, y, b, z], _ =>
      obtain rfl : x = 27 := esc
      obtain rfl : y = 91 := bracket
      obtain rfl : z = 126 := tilde
      exact ⟨b, rfl⟩
  · rintro ⟨b, rfl⟩
    exact ⟨rfl, rfl, rfl, rfl⟩

/-- Behind the four bytes there is only the NUL. -/
theorem charAt_length : charAt buf buf.length = 0 := by
  rw [charAt, List.getD_eq_default _ _ le_rfl]

theorem assigns_char (b : UInt8) :
    t.assigns [b] = .assigned b.toInt8.toInt (t.ofChar b.toInt8.toInt) 0 :=
  rfl

def Table.arrow (t : Table) (b : UInt8) : Locals :=
  if b = 65 then .assigned 0 t.codes.up 0
  else if b = 66 then .assigned 0 t.codes.down 0
  else if b = 67 then .assigned 0 t.codes.right 0
  else if b = 68 then .assigned 0 t.codes.left 0
  else .unassigned

def Table.page (t : Table) (b : UInt8) : Locals :=
  if b = 53 then .assigned 0 t.codes.pageUp 0
  else if b = 54 then .assigned 0 t.codes.pageDown 0
  else .unassigned

theorem assigns_cursor (b : UInt8) : t.assigns [27, 91, b] = t.arrow b :=
  rfl

theorem assigns_tilde (b : UInt8) :
    (sunPinyin vk).assigns [27, 91, b, 126] = (sunPinyin vk).page b :=
  rfl

theorem openVanilla_assigns_tilde (b : UInt8) :
    openVanilla.assigns [27, 91, b, 126] = .assigned 0 0 0 :=
  rfl

/-- A string outside the three tables is given the key of no code. -/
theorem assigns_other (char : ∀ b, buf ≠ [b]) (cursor : ∀ b, buf ≠ [27, 91, b])
    (four : ¬ (buf.length = 4 ∧ charAt buf 0 = 27 ∧ charAt buf 1 = 91 ∧
      charAt buf t.tilde = 126)) : t.assigns buf = .assigned 0 0 0 := by
  have one : buf.length ≠ 1 := by
    intro length
    obtain ⟨b, same⟩ := List.length_eq_one_iff.mp length
    exact char b same
  have three := mt isCursor_iff.mp (not_exists.mpr cursor)
  rw [Table.assigns, if_neg one, if_neg three, if_neg four]

theorem openVanilla_assigns_other (char : ∀ b, buf ≠ [b]) (cursor : ∀ b, buf ≠ [27, 91, b]) :
    openVanilla.assigns buf = .assigned 0 0 0 := by
  apply assigns_other char cursor
  rintro ⟨length, -, -, found⟩
  have nul : charAt buf 4 = 0 := length ▸ charAt_length
  exact absurd (nul.symm.trans found) (by decide)

theorem sunPinyin_assigns_other (char : ∀ b, buf ≠ [b]) (cursor : ∀ b, buf ≠ [27, 91, b])
    (tilde : ∀ b, buf ≠ [27, 91, b, 126]) : (sunPinyin vk).assigns buf = .assigned 0 0 0 := by
  apply assigns_other char cursor
  exact mt isTilde_iff.mp (not_exists.mpr tilde)

/-- The strings of the table, one by one. -/
theorem forms (buf : Text) :
    (∃ b, buf = [b]) ∨ (∃ b, buf = [27, 91, b]) ∨ (∃ b, buf = [27, 91, b, 126]) ∨
      ((∀ b, buf ≠ [b]) ∧ (∀ b, buf ≠ [27, 91, b]) ∧ ∀ b, buf ≠ [27, 91, b, 126]) := by
  by_cases char : ∃ b, buf = [b]
  · exact .inl char
  by_cases cursor : ∃ b, buf = [27, 91, b]
  · exact .inr (.inl cursor)
  by_cases tilde : ∃ b, buf = [27, 91, b, 126]
  · exact .inr (.inr (.inl tilde))
  · exact .inr (.inr (.inr ⟨not_exists.mp char, not_exists.mp cursor, not_exists.mp tilde⟩))

theorem definite_arrow (b : UInt8) :
    (t.arrow b).Definite ↔ b ∈ ([65, 66, 67, 68] : Text) := by
  unfold Table.arrow
  repeat' split
  all_goals simp_all [Locals.definite_assigned, Locals.not_definite_unassigned]

theorem definite_page (b : UInt8) : (t.page b).Definite ↔ b ∈ ([53, 54] : Text) := by
  unfold Table.page
  repeat' split
  all_goals simp_all [Locals.definite_assigned, Locals.not_definite_unassigned]

theorem unknownCursor_cursor (b : UInt8) :
    UnknownCursor [27, 91, b] ↔ b ∉ ([65, 66, 67, 68] : Text) := by
  simp [UnknownCursor]

theorem unknownTilde_tilde (b : UInt8) :
    UnknownTilde [27, 91, b, 126] ↔ b ∉ ([53, 54] : Text) := by
  simp [UnknownTilde]

theorem definite_openVanilla : (openVanilla.assigns buf).Definite ↔ ¬ UnknownCursor buf := by
  rcases forms buf with ⟨b, rfl⟩ | ⟨b, rfl⟩ | ⟨b, rfl⟩ | ⟨char, cursor, tilde⟩
  · simp [assigns_char, Locals.definite_assigned, UnknownCursor]
  · rw [assigns_cursor, definite_arrow, unknownCursor_cursor, not_not]
  · simp [openVanilla_assigns_tilde, Locals.definite_assigned, UnknownCursor]
  · rw [openVanilla_assigns_other char cursor]
    simp [Locals.definite_assigned, UnknownCursor, cursor]

theorem definite_sunPinyin :
    ((sunPinyin vk).assigns buf).Definite ↔ ¬ UnknownCursor buf ∧ ¬ UnknownTilde buf := by
  rcases forms buf with ⟨b, rfl⟩ | ⟨b, rfl⟩ | ⟨b, rfl⟩ | ⟨char, cursor, tilde⟩
  · simp [assigns_char, Locals.definite_assigned, UnknownCursor, UnknownTilde]
  · have short : ¬ UnknownTilde [27, 91, b] := by simp [UnknownTilde]
    rw [assigns_cursor, definite_arrow, unknownCursor_cursor, not_not, and_iff_left short]
  · have long : ¬ UnknownCursor [27, 91, b, 126] := by simp [UnknownCursor]
    rw [assigns_tilde, definite_page, unknownTilde_tilde, not_not, and_iff_right long]
  · rw [sunPinyin_assigns_other char cursor tilde]
    simp [Locals.definite_assigned, UnknownCursor, UnknownTilde, cursor, tilde]

/-- The key of the OpenVanilla bridge is what its table assigns. -/
theorem decodeKey_eq (stack : Key) (buf : Text) :
    OVImf.decodeKey stack buf = (openVanilla.assigns buf).read stack := by
  rcases forms buf with ⟨b, rfl⟩ | ⟨b, rfl⟩ | ⟨b, rfl⟩ | ⟨char, cursor, tilde⟩
  · rfl
  · rw [assigns_cursor, Table.arrow, OVImf.decodeKey]
    repeat' split
    all_goals rfl
  · rfl
  · rw [openVanilla_assigns_other char cursor]
    unfold OVImf.decodeKey
    split
    · next b => exact absurd rfl (char b)
    · next b => exact absurd rfl (cursor b)
    · rfl

/-! ### When the key is defined -/

theorem openVanillaDefined_iff : OpenVanillaDefined buf ↔ (openVanilla.assigns buf).Definite := by
  constructor
  · intro defined
    exact defined.1
  · intro definite
    refine ⟨definite, fun stack stack' => ?_⟩
    have same : OVImf.decodeKey stack buf = OVImf.decodeKey stack' buf := by
      rw [decodeKey_eq, decodeKey_eq]
      exact definite.read_eq stack stack'
    refine ⟨congrArg OVImf.keyEventOf same, fun o => ?_⟩
    simp only [OVImf.processInput, same]

theorem sunPinyinDefined_iff :
    SunPinyinDefined vk buf ↔ ((sunPinyin vk).assigns buf).Definite := by
  constructor
  · intro defined
    exact defined.1
  · intro definite
    refine ⟨definite, fun stack stack' => ?_⟩
    have same : UcimfWindowHandler.decodeKey vk stack buf =
        UcimfWindowHandler.decodeKey vk stack' buf := definite.read_eq stack stack'
    refine ⟨congrArg UcimfWindowHandler.keyEventOf same, fun h => ?_⟩
    simp only [UcimfWindowHandler.processInput, same]

/-- Both bridges ask their engines with a defined key except for the sequences that the table
lists no case for. -/
theorem defined_iff (vk : KeyCodes) (buf : Text) :
    (OpenVanillaDefined buf ↔ ¬ UnknownCursor buf) ∧
      (SunPinyinDefined vk buf ↔ ¬ UnknownCursor buf ∧ ¬ UnknownTilde buf) :=
  ⟨openVanillaDefined_iff.trans definite_openVanilla, sunPinyinDefined_iff.trans definite_sunPinyin⟩

/-- Nothing is composed yet. -/
def emptyImf : OVImf where
  im := some sendTwice
  commitBuf := []
  preedit := ⟨[], []⟩

/-- The centre key of the keypad passes a carriage return or asks the module, as the stack has
it. The Insert key of a console leaves the SunPinyin variables unassigned as well. -/
theorem centre_key_undefined :
    (keysymToTermString fullKeymap idleKeyboard kP5 true).1 = [27, 91, 71] ∧
      openVanilla.assigns [27, 91, 71] = .unassigned ∧
      (sunPinyin ovkCodes).assigns [27, 91, 71] = .unassigned ∧
      (emptyImf.processInput ⟨0, 0, 0⟩ [27, 91, 71]).1 = [0] ∧
      (emptyImf.processInput ⟨0, 13, 0⟩ [27, 91, 71]).1 = [13] ∧
      ¬ OpenVanillaDefined [27, 91, 71] ∧ ¬ SunPinyinDefined ovkCodes [27, 91, 71] ∧
      ¬ SunPinyinDefined ovkCodes [27, 91, 50, 126] :=
  ⟨by decide, rfl, rfl, by decide, by decide,
    mt openVanillaDefined_iff.mp Locals.not_definite_unassigned,
    mt sunPinyinDefined_iff.mp Locals.not_definite_unassigned,
    mt sunPinyinDefined_iff.mp Locals.not_definite_unassigned⟩

/-! ### The strings of the key translator -/

/-- A sequence that begins like those of the cursor keys. -/
theorem opens_of_unknown {str : Text} (unknown : UnknownCursor str ∨ UnknownTilde str) :
    ∃ b rest, str = 27 :: 91 :: b :: rest := by
  rcases unknown with ⟨b, rfl, -⟩ | ⟨b, rfl, -⟩
  · exact ⟨b, [], rfl⟩
  · exact ⟨b, [126], rfl⟩

variable {k : Kernel} {s : KeyState} {sym : Keysym} {down : Bool}

/-- The only sequence without a case that the translator writes by itself is that of the centre
key of the keypad. -/
theorem unknown_keysymToTermString (plain : (s.keypadKeysymRedirect sym).type ≠ ktFn)
    (unknown : UnknownCursor (keysymToTermString k s sym down).1 ∨
      UnknownTilde (keysymToTermString k s sym down).1) :
    s.keypadKeysymRedirect sym = kP5 ∧ (keysymToTermString k s sym down).1 = [27, 91, 71] := by
  obtain ⟨b, rest, str⟩ := opens_of_unknown unknown
  unfold keysymToTermString at unknown str ⊢
  split at str
  · cases str
  next quiet =>
  simp only [quiet, if_false] at unknown str ⊢
  rcases termBytes_cases k s down plain with
    ⟨c, bytes⟩ | short | ⟨c, bytes⟩ | ⟨c, cursor, bytes⟩ | ⟨centre, bytes⟩
  · rw [bytes] at str
    cases cString_toUtf8_escape str
  · have length := (length_cString_le _).trans short
    rw [str, List.length_cons, List.length_cons, List.length_cons] at length
    omega
  · rw [bytes] at str
    exact absurd (of_cString_cons (of_cString_cons str).2).1 (by decide)
  · rw [bytes] at unknown
    have arrow : c ∈ ([65, 66, 67, 68] : Text) ∧ cString [27, 91, c] = [27, 91, c] := by
      obtain rfl | rfl | rfl | rfl : c = 66 ∨ c = 68 ∨ c = 67 ∨ c = 65 := by
        simpa [curChars, ascii] using cursor
      all_goals exact ⟨by decide, rfl⟩
    rw [arrow.2] at unknown
    rcases unknown with other | ⟨b, same, -⟩
    · exact absurd arrow.1 ((unknownCursor_cursor c).mp other)
    · cases same
  · rw [bytes]
    exact ⟨centre, rfl⟩

end Ucimf.Decoder
