import Ucimf.Keyboard.TermString
import Ucimf.Support.StdMap
import Mathlib.Data.Bool.AllAny

/-!
# The configuration file

`set_config_value` of the setup script appends a comment and a line `name=value`;
`Options::parse_file` reads the file line by line and keeps the first value of a name. Its
scanner ends a value at the first space or tab.
-/

namespace Ucimf.Config

open StdMap Keyboard

abbrev Text := List UInt8

def newline : UInt8 := 0x0a
def tab : UInt8 := 0x09
def space : UInt8 := 0x20
def hash : UInt8 := 0x23
def equals : UInt8 := 0x3d

/-! ### Reading -/

/-- The lines that `getline` finds. -/
def getlines : Text → List Text
  | [] => []
  | c :: rest =>
    if c = newline then [] :: getlines rest
    else
      match getlines rest with
      | [] => [[c]]
      | line :: lines => (c :: line) :: lines

/-- The scanner's loops over one line; nothing for a comment or a line without a name. -/
def parseLine (s : Text) : Option (Text × Text) :=
  if s.head? = some hash then none
  else
    let p := (cString s).dropWhile (· = space)
    let o := p.takeWhile fun c => c ≠ space ∧ c ≠ tab ∧ c ≠ equals
    let p := p.dropWhile fun c => c ≠ space ∧ c ≠ tab ∧ c ≠ equals
    let p := p.dropWhile fun c => c = space ∨ c = tab ∨ c = equals
    let p := p.dropWhile fun c => c = space ∨ c = tab
    let v := p.takeWhile fun c => c ≠ space ∧ c ≠ tab
    if o = [] then none else some (o, v)

/-- `_opts` after `parse_file`. -/
def parseFile (input : Text) : Map Text Text :=
  (getlines input).foldl
    (fun opts s =>
      match parseLine s with
      | some (o, v) => insert o v opts
      | none => opts)
    empty

def getOption (opts : Map Text Text) (opt : Text) : Text :=
  match opts opt with
  | some v => cString v
  | none => ascii "nothing"

/-! ### Writing -/

/-- A name and a value as the setup script can write them. -/
structure Setting where
  name : Text
  value : Text
  name_ne : name ≠ []
  name_plain : ∀ c ∈ name, c ≠ 0 ∧ c ≠ newline ∧ c ≠ space ∧ c ≠ tab ∧ c ≠ equals
  name_head : name.head? ≠ some hash
  value_ne : value ≠ []
  value_line : ∀ c ∈ value, c ≠ 0 ∧ c ≠ newline
  value_head : ∀ c, value.head? = some c → c ≠ space ∧ c ≠ tab ∧ c ≠ equals

/-- The comment of a setting. -/
def Setting.comment (s : Setting) : Text := ascii "# <" ++ s.name ++ ascii ">"

def Setting.line (s : Setting) : Text := s.name ++ ascii "=" ++ s.value

/-- What `set_config_value` appends; the lines that its `sed` deletes first are not counted. -/
def setConfigValue (conf : Text) (s : Setting) : Text :=
  conf ++ s.comment ++ [newline] ++ s.line ++ [newline]

def written (settings : List Setting) : Text := settings.foldl setConfigValue []

/-- The option reads as the value of the first line for its name, or as `nothing`. -/
def ReadsBack (settings : List Setting) (name : Text) : Prop :=
  getOption (parseFile (written settings)) name =
    ((settings.find? (·.name = name)).map (·.value)).getD (ascii "nothing")

/-- `AR PL ShanHeiSun Uni`, the font of the sample configuration. -/
def shanHeiSun : Setting where
  name := ascii "font-name"
  value := ascii "AR PL ShanHeiSun Uni"
  name_ne := by decide
  name_plain := List.all_iff_forall_prop.mp rfl
  name_head := by decide
  value_ne := by decide
  value_line := List.all_iff_forall_prop.mp rfl
  value_head := by
    intro c head
    obtain rfl := Option.some.inj head
    decide

/-! ### The lines of the file -/

theorem getlines_append {line : Text} (single : newline ∉ line) (rest : Text) :
    getlines (line ++ newline :: rest) = line :: getlines rest := by
  induction line with
  | nil => exact if_pos rfl
  | cons c line ih =>
    rw [List.mem_cons, not_or] at single
    rw [List.cons_append, getlines, if_neg (Ne.symm single.1), ih single.2]

theorem Setting.of_mem_comment (s : Setting) : ∀ c ∈ s.comment, c ≠ 0 ∧ c ≠ newline := by
  intro c inside
  rcases List.mem_append.mp inside with front | back
  · rcases List.mem_append.mp front with mark | name
    · have marks : ∀ c ∈ ascii "# <", c ≠ 0 ∧ c ≠ newline :=
        List.all_iff_forall_prop.mp rfl
      exact marks c mark
    · obtain ⟨text, single, -⟩ := s.name_plain c name
      exact ⟨text, single⟩
  · have marks : ∀ c ∈ ascii ">", c ≠ 0 ∧ c ≠ newline :=
      List.all_iff_forall_prop.mp rfl
    exact marks c back

theorem Setting.of_mem_line (s : Setting) : ∀ c ∈ s.line, c ≠ 0 ∧ c ≠ newline := by
  intro c inside
  rcases List.mem_append.mp inside with front | value
  · rcases List.mem_append.mp front with name | sign
    · obtain ⟨text, single, -⟩ := s.name_plain c name
      exact ⟨text, single⟩
    · have marks : ∀ c ∈ ascii "=", c ≠ 0 ∧ c ≠ newline :=
        List.all_iff_forall_prop.mp rfl
      exact marks c sign
  · exact s.value_line c value

theorem foldl_setConfigValue (settings : List Setting) (conf : Text) :
    settings.foldl setConfigValue conf =
      conf ++ settings.flatMap fun s => s.comment ++ newline :: (s.line ++ [newline]) := by
  induction settings generalizing conf with
  | nil => exact (List.append_nil conf).symm
  | cons s settings ih =>
    rw [List.foldl_cons, ih, setConfigValue, List.flatMap_cons]
    simp only [List.append_assoc, List.cons_append, List.nil_append]

theorem getlines_written (settings : List Setting) :
    getlines (written settings) = settings.flatMap fun s => [s.comment, s.line] := by
  rw [written, foldl_setConfigValue, List.nil_append]
  induction settings with
  | nil => rfl
  | cons s settings ih =>
    have comment : newline ∉ s.comment := fun inside => (s.of_mem_comment _ inside).2 rfl
    have line : newline ∉ s.line := fun inside => (s.of_mem_line _ inside).2 rfl
    rw [List.flatMap_cons, List.append_assoc, List.cons_append, getlines_append comment,
      List.append_assoc, List.singleton_append, getlines_append line, ih]
    rfl

/-! ### One line -/

theorem parseLine_comment (s : Setting) : parseLine s.comment = none := if_pos rfl

theorem dropWhile_of_head {p : UInt8 → Bool} {text : Text}
    (head : ∀ c, text.head? = some c → p c = false) : text.dropWhile p = text := by
  cases text with
  | nil => rfl
  | cons c text => exact List.dropWhile_cons_of_neg (by simp [head c rfl])

theorem Setting.head_line (s : Setting) : s.line.head? = s.name.head? := by
  obtain ⟨c, name, shape⟩ := List.exists_cons_of_ne_nil s.name_ne
  rw [line, shape]
  rfl

/-- The scanner reads the name, and the value up to its first space or tab. -/
theorem parseLine_line (s : Setting) : parseLine s.line =
    some (s.name, s.value.takeWhile fun c => c ≠ space ∧ c ≠ tab) := by
  have text : cString s.line = s.line :=
    cString_eq_self fun inside => (s.of_mem_line 0 inside).1 rfl
  have indented : s.line.dropWhile (· = space) = s.line := by
    apply dropWhile_of_head
    intro c first
    rw [s.head_line] at first
    obtain ⟨-, -, blank, -⟩ := s.name_plain c (List.mem_of_head? first)
    exact decide_eq_false blank
  have plain : ∀ c ∈ s.name, decide (c ≠ space ∧ c ≠ tab ∧ c ≠ equals) = true :=
    fun c inside => decide_eq_true (s.name_plain c inside).2.2
  have sign : s.line = s.name ++ equals :: s.value := List.append_assoc ..
  have value : (equals :: s.value).dropWhile (fun c => c = space ∨ c = tab ∨ c = equals) =
      s.value := by
    rw [List.dropWhile_cons_of_pos (by decide)]
    apply dropWhile_of_head
    intro c first
    obtain ⟨blank, tabbed, sign⟩ := s.value_head c first
    simp [blank, tabbed, sign]
  have unpadded : s.value.dropWhile (fun c => c = space ∨ c = tab) = s.value := by
    apply dropWhile_of_head
    intro c first
    obtain ⟨blank, tabbed, -⟩ := s.value_head c first
    simp [blank, tabbed]
  have stop : (equals :: s.value).takeWhile (fun c => c ≠ space ∧ c ≠ tab ∧ c ≠ equals) = [] :=
    List.takeWhile_cons_of_neg (by decide)
  have here : (equals :: s.value).dropWhile (fun c => c ≠ space ∧ c ≠ tab ∧ c ≠ equals) =
      equals :: s.value := List.dropWhile_cons_of_neg (by decide)
  unfold parseLine
  rw [s.head_line, if_neg s.name_head, text]
  dsimp only
  rw [indented, sign, List.takeWhile_append_of_pos plain, List.dropWhile_append_of_pos plain, stop,
    here, value, unpadded, List.append_nil, if_neg s.name_ne]

/-! ### The whole file -/

theorem parseFile_eq (input : Text) :
    parseFile input = insertAll ((getlines input).filterMap parseLine) empty := by
  rw [parseFile, insertAll]
  generalize (empty : Map Text Text) = opts
  induction getlines input generalizing opts with
  | nil => rfl
  | cons line lines ih =>
    rw [List.foldl_cons, ih]
    cases read : parseLine line <;> simp [read]

theorem parsed_written (settings : List Setting) :
    (getlines (written settings)).filterMap parseLine =
      settings.map fun s => (s.name, s.value.takeWhile fun c => c ≠ space ∧ c ≠ tab) := by
  rw [getlines_written, List.filterMap_flatMap]
  induction settings with
  | nil => rfl
  | cons s settings ih =>
    rw [List.flatMap_cons, ih, List.map_cons]
    simp [parseLine_comment, parseLine_line]

/-- The first line for a name decides, cut at its first space or tab. -/
theorem parseFile_written (settings : List Setting) (name : Text) :
    parseFile (written settings) name = (settings.find? (·.name = name)).map
      fun s => s.value.takeWhile fun c => c ≠ space ∧ c ≠ tab := by
  rw [parseFile_eq, parsed_written, insertAll_apply, empty, Option.none_or, List.find?_map,
    Option.map_map]
  rfl

/-- An option is read back exactly when the first value for its name has no space or tab. -/
theorem readsBack_iff (settings : List Setting) (name : Text) : ReadsBack settings name ↔
    ∀ s, settings.find? (·.name = name) = some s → ∀ c ∈ s.value, c ≠ space ∧ c ≠ tab := by
  rw [ReadsBack, getOption, parseFile_written]
  cases found : settings.find? (·.name = name) with
  | none => exact iff_of_true rfl fun s absent => nomatch absent
  | some s =>
    have text : cString (s.value.takeWhile fun c => c ≠ space ∧ c ≠ tab) =
        s.value.takeWhile fun c => c ≠ space ∧ c ≠ tab :=
      cString_eq_self fun inside =>
        (s.value_line 0 ((List.takeWhile_prefix _).subset inside)).1 rfl
    rw [Option.map_some, Option.map_some, Option.getD_some]
    dsimp only
    rw [text, List.takeWhile_eq_self_iff]
    constructor
    · intro plain s' first c inside
      obtain rfl := Option.some.inj first
      exact of_decide_eq_true (plain c inside)
    · exact fun plain c inside => decide_eq_true (plain s rfl c inside)

/-- The font of the sample configuration comes back as `AR`. -/
theorem font_name_cut : ¬ ∀ (settings : List Setting) (name : Text), ReadsBack settings name := by
  intro all
  have read := all [shanHeiSun] (ascii "font-name")
  unfold ReadsBack at read
  exact absurd read (by decide)

end Ucimf.Config
