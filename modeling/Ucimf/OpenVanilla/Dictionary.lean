import Ucimf.OpenVanilla.Imf
import Ucimf.Support.Decimal
import Ucimf.Support.StdMap

/-!
# The dictionary of a module

`OVImfDictionary` is to be a dictionary whose values can be replaced, with the conversion
between integer and text done by it. Its sets go through `insert` and its gets through
`operator[]`, so the first call that names a key decides what the key holds.
-/

namespace Ucimf.OpenVanilla

open StdMap

/-- The map `_dict`. -/
abbrev OVImfDictionary := Map Text Text

namespace OVImfDictionary

def keyExist (dict : OVImfDictionary) (key : Text) : Bool := (dict key).isSome

def getInteger (dict : OVImfDictionary) (key : Text) : Int32 × OVImfDictionary :=
  let (value, dict) := index [] key dict
  (Decimal.atoi value, dict)

def setInteger (dict : OVImfDictionary) (key : Text) (value : Int32) : Int32 × OVImfDictionary :=
  (value, insert key (Decimal.text value.toInt) dict)

def getString (dict : OVImfDictionary) (key : Text) : Text × OVImfDictionary := index [] key dict

def setString (dict : OVImfDictionary) (key value : Text) : Text × OVImfDictionary :=
  (value, insert key value dict)

end OVImfDictionary

/-- A value as a set gives it. -/
inductive DictValue
  | string (s : Text)
  | integer (v : Int32)
  deriving DecidableEq

namespace DictValue

def asString : DictValue → Text
  | string s => s
  | integer v => Decimal.text v.toInt

def asInteger : DictValue → Int32
  | string s => Decimal.atoi s
  | integer v => v

theorem atoi_asString (v : DictValue) : Decimal.atoi v.asString = v.asInteger := by
  cases v with
  | string => rfl
  | integer v => exact Decimal.atoi_text v

end DictValue

inductive DictCall
  | setString (key value : Text)
  | setInteger (key : Text) (value : Int32)
  | getString (key : Text)
  | getInteger (key : Text)
  | keyExist (key : Text)
  deriving DecidableEq

namespace DictCall

def isGet : DictCall → Bool
  | getString _ | getInteger _ => true
  | _ => false

/-- What a set asks for. -/
def written : DictCall → Option (Text × DictValue)
  | setString key value => some (key, .string value)
  | setInteger key value => some (key, .integer value)
  | _ => none

/-- What a call gives a key that is missing; a get gives it the empty text. -/
def touched : DictCall → Option (Text × DictValue)
  | getString key | getInteger key => some (key, .string [])
  | c => c.written

/-- The dictionary after a call. -/
def exec (dict : OVImfDictionary) : DictCall → OVImfDictionary
  | setString key value => (dict.setString key value).2
  | setInteger key value => (dict.setInteger key value).2
  | getString key => (dict.getString key).2
  | getInteger key => (dict.getInteger key).2
  | keyExist _ => dict

def after (calls : List DictCall) : OVImfDictionary := calls.foldl exec empty

/-- The value of the most recent set of a key. -/
def latest (calls : List DictCall) (key : Text) : Option DictValue :=
  ((calls.filterMap written).reverse.find? (·.1 = key)).map Prod.snd

/-- The value that the first set or get of a key asks for. -/
def first (calls : List DictCall) (key : Text) : Option DictValue :=
  ((calls.filterMap touched).find? (·.1 = key)).map Prod.snd

/-- A get returns the most recent value, and `keyExist` answers as if there had been no get. -/
def Meets (before : List DictCall) : DictCall → Prop
  | getString key => ∀ v, latest before key = some v → ((after before).getString key).1 = v.asString
  | getInteger key =>
    ∀ v, latest before key = some v → ((after before).getInteger key).1 = v.asInteger
  | keyExist key =>
    (after before).keyExist key = (after (before.filter fun c => !c.isGet)).keyExist key
  | setString .. | setInteger .. => True

def Replaceable (calls : List DictCall) : Prop :=
  ∀ before c, before ++ [c] <+: calls → Meets before c

/-- A get of a set key finds the latest value already in the first call for the key, and
`keyExist` asks for no key that was only read. -/
def Settled (before : List DictCall) : DictCall → Prop
  | getString key => ∀ u v, first before key = some u → latest before key = some v →
      u.asString = v.asString
  | getInteger key => ∀ u v, first before key = some u → latest before key = some v →
      u.asInteger = v.asInteger
  | keyExist key => (first before key).isSome → (latest before key).isSome
  | setString .. | setInteger .. => True

/-! ### What the map holds -/

def entry : Text × DictValue → Text × Text := Prod.map id DictValue.asString

theorem exec_eq (dict : OVImfDictionary) (c : DictCall) :
    exec dict c = insertAll (c.touched.map entry).toList dict := by
  cases c <;> rfl

theorem after_eq (calls : List DictCall) :
    after calls = insertAll ((calls.filterMap touched).map entry) empty := by
  rw [after]
  generalize (empty : OVImfDictionary) = dict
  induction calls generalizing dict with
  | nil => rfl
  | cons c calls ih =>
    rw [List.foldl_cons, ih, exec_eq, List.filterMap_cons]
    cases c.touched <;> rfl

/-- The first call for a key decides. -/
theorem after_apply (calls : List DictCall) (key : Text) :
    after calls key = (first calls key).map DictValue.asString := by
  rw [after_eq, insertAll_apply, empty, Option.none_or, List.find?_map, Option.map_map, first,
    Option.map_map]
  rfl

theorem keyExist_after (calls : List DictCall) (key : Text) :
    (after calls).keyExist key = (first calls key).isSome := by
  rw [OVImfDictionary.keyExist, after_apply, Option.isSome_map]

theorem first_isSome_iff (calls : List DictCall) (key : Text) :
    (first calls key).isSome ↔ ∃ e ∈ calls.filterMap touched, e.1 = key := by
  rw [first, Option.isSome_map, List.find?_isSome]
  simp only [decide_eq_true_eq]

theorem latest_isSome_iff (calls : List DictCall) (key : Text) :
    (latest calls key).isSome ↔ ∃ e ∈ calls.filterMap written, e.1 = key := by
  rw [latest, Option.isSome_map, List.find?_isSome]
  simp only [decide_eq_true_eq, List.mem_reverse]

theorem touched_of_written {c : DictCall} {e : Text × DictValue} (set : c.written = some e) :
    c.touched = some e := by
  cases c with
  | setString | setInteger => exact set
  | getString | getInteger | keyExist => cases set

theorem first_of_latest {calls : List DictCall} {key : Text} (set : (latest calls key).isSome) :
    (first calls key).isSome := by
  obtain ⟨e, mem, named⟩ := (latest_isSome_iff calls key).mp set
  obtain ⟨c, called, wrote⟩ := List.mem_filterMap.mp mem
  apply (first_isSome_iff calls key).mpr
  exact ⟨e, List.mem_filterMap.mpr ⟨c, called, touched_of_written wrote⟩, named⟩

theorem touched_sets (calls : List DictCall) :
    (calls.filter fun c => !c.isGet).filterMap touched = calls.filterMap written := by
  rw [List.filterMap_filter]
  congr 1
  funext c
  cases c <;> rfl

/-- Without the gets a key is there when it has been set. -/
theorem keyExist_sets (calls : List DictCall) (key : Text) :
    (after (calls.filter fun c => !c.isGet)).keyExist key = (latest calls key).isSome := by
  rw [keyExist_after, Bool.eq_iff_iff, first_isSome_iff, latest_isSome_iff, touched_sets]

theorem index_after {calls : List DictCall} {key : Text} {u : DictValue}
    (begun : first calls key = some u) : (index [] key (after calls)).1 = u.asString := by
  rw [index, after_apply, begun]
  rfl

/-! ### One call and all calls -/

theorem get_iff {before : List DictCall} {key : Text} {α : Type} (read : Text → α)
    (value : DictValue → α) (conv : ∀ v, read v.asString = value v) :
    (∀ v, latest before key = some v → read (index [] key (after before)).1 = value v) ↔
      ∀ u v, first before key = some u → latest before key = some v → value u = value v := by
  constructor
  · intro meets u v begun set
    rw [← meets v set, index_after begun, conv]
  · intro settled v set
    obtain ⟨u, begun⟩ := Option.isSome_iff_exists.mp
      (first_of_latest (Option.isSome_iff_exists.mpr ⟨v, set⟩))
    rw [index_after begun, conv, settled u v begun set]

theorem meets_iff (before : List DictCall) (c : DictCall) : Meets before c ↔ Settled before c := by
  cases c with
  | setString | setInteger => exact Iff.rfl
  | getString key => exact get_iff id DictValue.asString fun _ => rfl
  | getInteger key => exact get_iff Decimal.atoi DictValue.asInteger DictValue.atoi_asString
  | keyExist key =>
    rw [Meets, Settled, keyExist_after, keyExist_sets, Bool.eq_iff_iff]
    exact ⟨Iff.mp, fun asked => ⟨asked, first_of_latest⟩⟩

/-- Values can be replaced exactly when no get sees a second value and `keyExist` asks for
no key that was only read. -/
theorem replaceable_iff (calls : List DictCall) :
    Replaceable calls ↔ ∀ before c, before ++ [c] <+: calls → Settled before c :=
  forall₂_congr fun before c => imp_congr_right fun _ => meets_iff before c

/-- The second `setString` of a key is lost. -/
theorem second_set_lost : ¬ ∀ calls, Replaceable calls := by
  intro all
  have read := all [setString [0x6b] [0x61], setString [0x6b] [0x62], getString [0x6b]]
    [setString [0x6b] [0x61], setString [0x6b] [0x62]] (getString [0x6b]) (List.prefix_refl _)
  exact absurd (read (.string [0x62]) rfl) (by decide)

end DictCall

end Ucimf.OpenVanilla
