import Ucimf.Decoder.Assigned

/-!
# The two tables against each other

An engine is handed a key event, and the key is read off the code of the event: the OpenVanilla
event carries nothing else. The codes of the two engines are unrelated, so the tables are
compared by the key that a code stands for. They disagree on the page keys, since the OpenVanilla
copy looks for the tilde one byte too far, and on a character that has the number of a key in one
engine and not in the other.
-/

namespace Ucimf.Decoder

open OpenVanilla OpenVanilla.OVImf

inductive LogicalKey
  | return
  | esc
  | space
  | delete
  | backspace
  | up
  | down
  | right
  | left
  | pageUp
  | pageDown
  | char (c : Int)
  | none
  deriving DecidableEq, Repr

/-- The keys that have a code of their own. -/
def namedKeys : List LogicalKey :=
  [.none, .return, .esc, .space, .delete, .backspace, .up, .down, .right, .left, .pageUp,
    .pageDown]

namespace KeyCodes

/-- The code of a key. -/
def code (codes : KeyCodes) : LogicalKey → Int
  | .return => codes.enter
  | .esc => codes.escape
  | .space => codes.space
  | .delete => codes.delete
  | .backspace => codes.backSpace
  | .up => codes.up
  | .down => codes.down
  | .right => codes.right
  | .left => codes.left
  | .pageUp => codes.pageUp
  | .pageDown => codes.pageDown
  | .char c => c
  | .none => 0

/-- The key with a code. -/
def logical (codes : KeyCodes) (code : Int) : LogicalKey :=
  (namedKeys.find? fun key => codes.code key = code).getD (.char code)

/-- The codes of the named keys differ, and none is zero. -/
def Distinct (codes : KeyCodes) : Prop := (namedKeys.map codes.code).Nodup

instance (codes : KeyCodes) : Decidable codes.Distinct := inferInstanceAs (Decidable (List.Nodup _))

end KeyCodes

/-- The key that OpenVanilla is asked with. -/
def openVanillaKey (stack : Key) (buf : Text) : LogicalKey :=
  ovkCodes.logical (OVImf.keyEventOf (OVImf.decodeKey stack buf)).chr

/-- The key that SunPinyin is asked with. -/
def sunPinyinKey (vk : KeyCodes) (stack : Key) (buf : Text) : LogicalKey :=
  vk.logical (UcimfWindowHandler.keyEventOf (UcimfWindowHandler.decodeKey vk stack buf)).code

/-- Where both tables assign a key, it is the same key. -/
def Agree (vk : KeyCodes) (buf : Text) : Prop :=
  (openVanilla.assigns buf).Definite → ((sunPinyin vk).assigns buf).Definite →
    ∀ stack stack', openVanillaKey stack buf = sunPinyinKey vk stack' buf

/-- The characters to which both tables give the code of a key. -/
def translated : List Int := [13, 27, 32, 126, 127]

/-- A number is the code of the same key in both engines, or of no key in either. -/
def SharesKeys (vk : KeyCodes) (c : Int) : Prop :=
  ∀ key ∈ namedKeys, c = ovkCodes.code key ↔ c = vk.code key

instance (vk : KeyCodes) (c : Int) : Decidable (SharesKeys vk c) :=
  inferInstanceAs (Decidable (∀ key ∈ namedKeys, _))

theorem ovkCodes_distinct : ovkCodes.Distinct := by decide

variable {codes vk : KeyCodes} {buf : Text} {c : Int}

/-! ### Codes -/

theorem code_logical (codes : KeyCodes) (c : Int) : codes.code (codes.logical c) = c := by
  rw [KeyCodes.logical]
  cases found : namedKeys.find? fun key => codes.code key = c with
  | none => rfl
  | some key =>
    have same := List.find?_some found
    exact of_decide_eq_true same

theorem mem_namedKeys_iff {key : LogicalKey} : key ∈ namedKeys ↔ ∀ c, key ≠ .char c := by
  cases key with
  | char c => exact iff_of_false (by simp [namedKeys]) fun other => other c rfl
  | _ => exact iff_of_true (by decide) nofun

theorem logical_char {d : Int} (char : codes.logical c = .char d) : d = c := by
  have back := code_logical codes c
  rwa [char] at back

/-- A named key is read off its code alone. -/
theorem logical_eq_iff (distinct : codes.Distinct) {key : LogicalKey} (named : key ∈ namedKeys) :
    codes.logical c = key ↔ c = codes.code key := by
  constructor
  · rintro rfl
    exact (code_logical codes c).symm
  · rintro rfl
    rw [KeyCodes.logical]
    cases found : namedKeys.find? fun other => codes.code other = codes.code key with
    | none =>
      have missed := List.find?_eq_none.mp found key named
      exact absurd (decide_eq_true rfl) missed
    | some other =>
      have same := List.find?_some found
      exact List.inj_on_of_nodup_map distinct (List.mem_of_find?_eq_some found) named
        (of_decide_eq_true same)

theorem logical_code (distinct : vk.Distinct) (key : LogicalKey) (named : key ∈ namedKeys) :
    ovkCodes.logical (ovkCodes.code key) = vk.logical (vk.code key) :=
  ((logical_eq_iff ovkCodes_distinct named).mpr rfl).trans
    ((logical_eq_iff distinct named).mpr rfl).symm

/-- A number stands for the same key in the engines when they share their keys there. -/
theorem logical_eq_logical_iff (distinct : vk.Distinct) :
    ovkCodes.logical c = vk.logical c ↔ SharesKeys vk c := by
  constructor
  · intro same key named
    rw [← logical_eq_iff ovkCodes_distinct named, ← logical_eq_iff distinct named, same]
  · intro shared
    by_cases named : ovkCodes.logical c ∈ namedKeys
    · exact ((logical_eq_iff distinct named).mpr
        ((shared _ named).mp (code_logical ovkCodes c).symm)).symm
    · have unnamed : vk.logical c ∉ namedKeys := fun other => named <|
        ((logical_eq_iff ovkCodes_distinct other).mpr
          ((shared _ other).mpr (code_logical vk c).symm)).symm ▸ other
      rw [mem_namedKeys_iff, not_forall_not] at named unnamed
      obtain ⟨d, char⟩ := named
      obtain ⟨e, char'⟩ := unnamed
      rw [char, char', logical_char char, logical_char char']

/-! ### The forms of the table -/

/-- A character that the tables translate is the same key to both. -/
theorem translated_agree (distinct : vk.Distinct) (known : c ∈ translated) :
    ovkCodes.logical (stdinToOpenvanilaKeycode c) = vk.logical (stdinToSunpinyinKeycode vk c) := by
  simp only [translated, List.mem_cons, List.not_mem_nil, or_false] at known
  rcases known with rfl | rfl | rfl | rfl | rfl
  · exact logical_code distinct .return (by decide)
  · exact logical_code distinct .esc (by decide)
  · exact logical_code distinct .space (by decide)
  · exact logical_code distinct .delete (by decide)
  · exact logical_code distinct .backspace (by decide)

/-- Any other character is handed on as its number. -/
theorem untranslated (vk : KeyCodes) (unknown : c ∉ translated) :
    stdinToOpenvanilaKeycode c = c ∧ stdinToSunpinyinKeycode vk c = c := by
  simp only [translated, List.mem_cons, List.not_mem_nil, or_false, not_or] at unknown
  constructor
  · unfold stdinToOpenvanilaKeycode
    split
    · next tab => exact tab.symm
    · simp only [unknown, if_false]
  · simp only [stdinToSunpinyinKeycode, unknown, if_false]

theorem agree_char_iff (distinct : vk.Distinct) (b : UInt8) :
    Agree vk [b] ↔ (b.toInt8.toInt ∉ translated → SharesKeys vk b.toInt8.toInt) := by
  have asked : Agree vk [b] ↔ ovkCodes.logical (stdinToOpenvanilaKeycode b.toInt8.toInt) =
      vk.logical (stdinToSunpinyinKeycode vk b.toInt8.toInt) := by
    refine ⟨fun agree => ?_, fun same _ _ _ _ => same⟩
    exact agree (Locals.definite_assigned _ _ _) (Locals.definite_assigned _ _ _)
      ⟨0, 0, 0⟩ ⟨0, 0, 0⟩
  rw [asked]
  by_cases known : b.toInt8.toInt ∈ translated
  · exact iff_of_true (translated_agree distinct known) fun unknown => absurd known unknown
  · obtain ⟨here, there⟩ := untranslated vk known
    rw [here, there, logical_eq_logical_iff distinct]
    exact ⟨fun shared _ => shared, fun shared => shared known⟩

theorem agree_cursor (distinct : vk.Distinct) (b : UInt8) : Agree vk [27, 91, b] := by
  intro definite _ stack stack'
  rw [assigns_cursor, definite_arrow] at definite
  simp only [List.mem_cons, List.not_mem_nil, or_false] at definite
  rcases definite with rfl | rfl | rfl | rfl
  · exact logical_code distinct .up (by decide)
  · exact logical_code distinct .down (by decide)
  · exact logical_code distinct .right (by decide)
  · exact logical_code distinct .left (by decide)

/-- The OpenVanilla copy never sees a page key. -/
theorem agree_tilde_iff (distinct : vk.Distinct) (b : UInt8) :
    Agree vk [27, 91, b, 126] ↔ b ∉ ([53, 54] : Text) := by
  constructor
  · intro agree known
    have definite : ((sunPinyin vk).assigns [27, 91, b, 126]).Definite := by
      rwa [assigns_tilde, definite_page]
    have same : LogicalKey.none = sunPinyinKey vk ⟨0, 0, 0⟩ [27, 91, b, 126] :=
      agree (Locals.definite_assigned 0 0 0) definite ⟨0, 0, 0⟩ ⟨0, 0, 0⟩
    obtain rfl | rfl : b = 53 ∨ b = 54 := by simpa using known
    · have page : vk.logical (vk.code .pageUp) = .pageUp :=
        (logical_eq_iff distinct (by decide)).mpr rfl
      exact absurd (same.trans page) (by decide)
    · have page : vk.logical (vk.code .pageDown) = .pageDown :=
        (logical_eq_iff distinct (by decide)).mpr rfl
      exact absurd (same.trans page) (by decide)
  · intro unknown _ definite
    rw [assigns_tilde, definite_page] at definite
    exact absurd definite unknown

/-- A string outside the table is no key to either engine. -/
theorem agree_other (distinct : vk.Distinct) (char : ∀ b, buf ≠ [b])
    (cursor : ∀ b, buf ≠ [27, 91, b]) (tilde : ∀ b, buf ≠ [27, 91, b, 126]) : Agree vk buf := by
  intro _ _ stack stack'
  rw [openVanillaKey, decodeKey_eq, openVanilla_assigns_other char cursor, sunPinyinKey,
    UcimfWindowHandler.decodeKey, sunPinyin_assigns_other char cursor tilde]
  exact logical_code distinct .none (by decide)

/-- The engines are asked with the same key on every input but the page keys, and a character
that is the code of a key in one of them only, or of another key in the other. -/
theorem agree_iff (distinct : vk.Distinct) (buf : Text) :
    Agree vk buf ↔ buf ≠ [27, 91, 53, 126] ∧ buf ≠ [27, 91, 54, 126] ∧
      ∀ b : UInt8, buf = [b] → b.toInt8.toInt ∉ translated → SharesKeys vk b.toInt8.toInt := by
  rcases forms buf with ⟨b, rfl⟩ | ⟨b, rfl⟩ | ⟨b, rfl⟩ | ⟨char, cursor, tilde⟩
  · rw [agree_char_iff distinct]
    simp
  · exact iff_of_true (agree_cursor distinct b) (by simp)
  · rw [agree_tilde_iff distinct]
    simp
  · exact iff_of_true (agree_other distinct char cursor tilde)
      ⟨tilde 53, tilde 54, fun b single => absurd single (char b)⟩

/-- Where the SunPinyin codes are no numbers of characters, the characters on which the engines
disagree are those with the number of an OpenVanilla code. -/
theorem sharesKeys_iff_of_high (high : ∀ key ∈ namedKeys, key ≠ .none → 127 < vk.code key)
    {b : UInt8} (unknown : b.toInt8.toInt ∉ translated) :
    SharesKeys vk b.toInt8.toInt ↔
      b.toInt8.toInt ∉ ([8, 11, 12, 28, 29, 30, 31] : List Int) := by
  have byte : b.toInt8.toInt ≤ 127 := Int8.toInt_le _
  generalize b.toInt8.toInt = c at byte unknown ⊢
  have far : ∀ key ∈ namedKeys, key ≠ .none → c ≠ vk.code key := fun key named key_ne same =>
    absurd (high key named key_ne) (not_lt.mpr (same ▸ byte))
  have shares : SharesKeys vk c ↔ ∀ key ∈ namedKeys, key ≠ .none → c ≠ ovkCodes.code key := by
    constructor
    · exact fun shared key named key_ne same => far key named key_ne ((shared key named).mp same)
    · intro quiet key named
      by_cases none : key = .none
      · rw [none]
        rfl
      · exact iff_of_false (quiet key named none) (far key named none)
  rw [shares]
  constructor
  · intro quiet known
    simp only [List.mem_cons, List.not_mem_nil, or_false] at known
    rcases known with rfl | rfl | rfl | rfl | rfl | rfl | rfl
    · exact quiet .backspace (by decide) nofun rfl
    · exact quiet .pageUp (by decide) nofun rfl
    · exact quiet .pageDown (by decide) nofun rfl
    · exact quiet .left (by decide) nofun rfl
    · exact quiet .right (by decide) nofun rfl
    · exact quiet .up (by decide) nofun rfl
    · exact quiet .down (by decide) nofun rfl
  · rintro unlisted key named key_ne rfl
    -- every OpenVanilla code is the one of a translated character or in the list
    have covered : ∀ key ∈ namedKeys, key ≠ .none → ovkCodes.code key ∉ translated →
        ovkCodes.code key ∈ ([8, 11, 12, 28, 29, 30, 31] : List Int) := by
      decide
    exact unlisted (covered key named key_ne unknown)

/-- The codes of an engine that numbers its keys from 256 on. -/
def highCodes : KeyCodes where
  enter := 256
  escape := 257
  space := 258
  delete := 259
  backSpace := 260
  up := 261
  down := 262
  right := 263
  left := 264
  pageUp := 265
  pageDown := 266

/-- The letter a is no key of either engine. -/
theorem agree_letter : Agree highCodes [97] :=
  (agree_iff (by decide) [97]).mpr ⟨by decide, by decide, fun b same _ => by
    obtain rfl : b = 97 := (List.cons.inj same).1.symm
    decide⟩

/-- Page up is a key to one engine and none to the other, and the byte 28 is the left arrow to
one and a character to the other. -/
theorem page_up_disagrees :
    highCodes.Distinct ∧
      ((openVanilla.assigns [27, 91, 53, 126]).Definite ∧
        ((sunPinyin highCodes).assigns [27, 91, 53, 126]).Definite ∧
        openVanillaKey ⟨0, 0, 0⟩ [27, 91, 53, 126] = .none ∧
        sunPinyinKey highCodes ⟨0, 0, 0⟩ [27, 91, 53, 126] = .pageUp ∧
        ¬ Agree highCodes [27, 91, 53, 126]) ∧
      openVanillaKey ⟨0, 0, 0⟩ [28] = .left ∧
        sunPinyinKey highCodes ⟨0, 0, 0⟩ [28] = .char 28 ∧ ¬ Agree highCodes [28] := by
  refine ⟨by decide, ⟨by decide, by decide, rfl, rfl, fun agree => ?_⟩, rfl, rfl, fun agree => ?_⟩
  · exact absurd (agree (by decide) (by decide) ⟨0, 0, 0⟩ ⟨0, 0, 0⟩) (by decide)
  · exact absurd (agree (by decide) (by decide) ⟨0, 0, 0⟩ ⟨0, 0, 0⟩) (by decide)

end Ucimf.Decoder
