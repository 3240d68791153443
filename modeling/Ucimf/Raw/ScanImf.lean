import Ucimf.Raw.Session
import Ucimf.Support.Outcome
import Ucimf.Support.Run
import Mathlib.Data.List.Infix

/-!
# Loading the input methods

`scanImf` opens every `.so` entry of the module directory. The two symbol pointers are
declared outside the loop and the failure branches only log, so each entry ends in a call of
`create_imf`: its own, or the one that the last opened library has left there.
-/

namespace Ucimf.Raw

open Transition

/-- An opened library: the symbol `createImf` with what it returns, and whether there is a
symbol `destroyImf`. The modules hand out one instance, so every call returns the same. -/
structure Library where
  createImf : Option (Option Nat)
  destroyImf : Bool
  deriving DecidableEq, Repr

/-- A directory entry and what `lt_dlopen` returns for it. -/
structure DirEntry where
  dName : String
  handle : Option Library
  deriving DecidableEq, Repr

/-- A call through a null pointer, or `imfs[0]` of an empty vector. -/
inductive ScanFault
  | nullCall
  | emptyIndex
  deriving DecidableEq, Repr

/-- The variables of `scanImf`. -/
structure Scan where
  createImf : Option (Option Nat)
  destroyImf : Bool
  imfs : List Nat

/-- `strstr( d_ent->d_name, ".so")`. -/
def DirEntry.isModule (e : DirEntry) : Bool := decide (".so".toList <:+: e.dName.toList)

/-- The body of the loop over the directory. -/
def loadEntry (s : Scan) (e : DirEntry) : Except ScanFault Scan :=
  if e.isModule then
    let s := match e.handle with
      | some lib => { s with createImf := lib.createImf, destroyImf := lib.destroyImf }
      | none => s
    -- a symbol that is missing is only logged
    match s.createImf with
    | some i => .ok { s with imfs := s.imfs ++ i.toList }
    | none => .error .nullCall
  else .ok s

/-- `dir` is what `opendir` found. -/
def scanImf (dir : Option (List DirEntry)) : Except ScanFault Scan :=
  (dir.getD []).foldlM loadEntry ⟨none, false, []⟩

/-- The part of `ucimf_init` behind the fonts: the windows are attached, the focus is dropped
and the first input method is selected. -/
def Session.ucimfInit (s : Session) (dir : Option (List DirEntry)) : Except ScanFault Session := do
  let s := { s with imf := none, attached := true }.setFocus false
  let scan ← scanImf dir
  match scan.imfs[0]? with
  | some imf => .ok { s with imfs := scan.imfs, currentImf := 0, imf := some imf }
  | none => .error .emptyIndex

/-! ### What a scan should find -/

/-- The input method of an entry whose library has both symbols. -/
def DirEntry.imf (e : DirEntry) : Option Nat :=
  if e.isModule then
    match e.handle with
    | some ⟨some i, true⟩ => i
    | _ => none
  else none

def loaded (dir : Option (List DirEntry)) : List Nat := (dir.getD []).filterMap DirEntry.imf

/-- The start finds the input methods of the sound entries and selects the first. -/
def Session.Starts (s : Session) (dir : Option (List DirEntry)) : Prop :=
  ∃ t, s.ucimfInit dir = .ok t ∧ t.imfs = loaded dir ∧ t.imf = (loaded dir).head?

/-- The library opened last. -/
def opened (last : Option Library) (e : DirEntry) : Option Library :=
  if e.isModule then e.handle.or last else last

/-- The library that is called for the entry has `createImf`, and if the entry did not load
with both symbols that call returns null. -/
def Harmless (last : Option Library) (e : DirEntry) : Prop :=
  e.isModule = true → ∃ lib i, opened last e = some lib ∧ lib.createImf = some i ∧
    (i = none ∨ (e.handle = some lib ∧ lib.destroyImf = true))

section Scan
variable {last : Option Library} {e : DirEntry} {s t : Scan}

/-- The pointer that is called comes from the library opened last. -/
theorem loadEntry_ok (left : s.createImf = last.bind (·.createImf)) (so : e.isModule = true) :
    loadEntry s e = .ok t ↔ ∃ lib i, opened last e = some lib ∧ lib.createImf = some i ∧
      t = ⟨some i, (e.handle.map (·.destroyImf)).getD s.destroyImf, s.imfs ++ i.toList⟩ := by
  unfold loadEntry opened
  rw [if_pos so, if_pos so]
  cases e.handle with
  | none =>
    cases last with
    | none => simp [left]
    | some lib => cases found : lib.createImf <;> simp [left, found, eq_comm]
  | some lib => cases found : lib.createImf <;> simp [found, eq_comm]

/-- Any other entry is passed over. -/
theorem loadEntry_other (other : ¬ e.isModule = true) :
    loadEntry s e = .ok s ∧ opened last e = last ∧ e.imf = none :=
  ⟨if_neg other, if_neg other, if_neg other⟩

theorem imf_of_handle {lib : Library} {i : Option Nat} (so : e.isModule = true)
    (handle : e.handle = some lib) (found : lib.createImf = some i) :
    e.imf = if lib.destroyImf then i else none := by
  obtain ⟨create, destroy⟩ := lib
  obtain rfl : create = some i := found
  rw [DirEntry.imf, if_pos so, handle]
  cases destroy <;> rfl

theorem imf_of_none (handle : e.handle = none) : e.imf = none := by
  rw [DirEntry.imf, handle, ite_self]

/-- What one entry adds: its own input method, and nothing else if it is harmless. -/
theorem loadEntry_adds (left : s.createImf = last.bind (·.createImf))
    (taken : loadEntry s e = .ok t) : t.createImf = (opened last e).bind (·.createImf) ∧
      ∃ more, t.imfs = s.imfs ++ more ∧ List.Sublist e.imf.toList more ∧
        (more = e.imf.toList ↔ Harmless last e) := by
  by_cases so : e.isModule = true
  case neg =>
    obtain ⟨passed, kept, own⟩ := @loadEntry_other last e s so
    obtain rfl := Except.ok.inj (passed.symm.trans taken)
    refine ⟨by rw [kept, left], [], (List.append_nil _).symm, by rw [own]; exact .slnil, ?_⟩
    exact iff_of_true (by rw [own]; rfl) fun so' => absurd so' so
  case pos =>
    obtain ⟨lib, i, open_, found, rfl⟩ := (loadEntry_ok left so).mp taken
    have harmless : Harmless last e ↔ i = none ∨ (e.handle = some lib ∧ lib.destroyImf = true) := by
      constructor
      · intro h
        obtain ⟨lib', i', open', found', rest⟩ := h so
        obtain rfl := Option.some.inj (open_.symm.trans open')
        obtain rfl := Option.some.inj (found.symm.trans found')
        exact rest
      · exact fun rest _ => ⟨lib, i, open_, found, rest⟩
    refine ⟨by rw [open_, Option.bind_some, found], i.toList, rfl, ?_⟩
    rw [harmless]
    cases handle : e.handle with
    | none =>
      rw [imf_of_none handle]
      exact ⟨List.nil_sublist _, by cases i <;> simp⟩
    | some own =>
      obtain rfl : own = lib := by
        rw [opened, if_pos so, handle] at open_
        exact Option.some.inj open_
      rw [imf_of_handle so handle found]
      cases own.destroyImf with
      | false => exact ⟨List.nil_sublist _, by cases i <;> simp⟩
      | true => exact ⟨List.Sublist.refl _, by simp⟩

theorem loadEntry_harmless (left : s.createImf = last.bind (·.createImf))
    (harmless : Harmless last e) : ∃ t, loadEntry s e = .ok t := by
  by_cases so : e.isModule = true
  · obtain ⟨lib, i, open_, found, -⟩ := harmless so
    exact ⟨_, (loadEntry_ok left so).mpr ⟨lib, i, open_, found, rfl⟩⟩
  · exact ⟨s, if_neg so⟩

/-- Lists that contain two others keep to them if their concatenations are the same. -/
theorem append_eq_append_of_sublist {a b m n : List Nat} (front : List.Sublist a m)
    (back : List.Sublist b n) : m ++ n = a ++ b ↔ m = a ∧ n = b := by
  constructor
  · intro same
    have lengths := congrArg List.length same
    rw [List.length_append, List.length_append] at lengths
    have first := front.length_le
    have second := back.length_le
    exact ⟨(front.eq_of_length (by omega)).symm, (back.eq_of_length (by omega)).symm⟩
  · rintro ⟨rfl, rfl⟩
    rfl

/-- What the whole loop adds. -/
theorem scan_adds {entries : List DirEntry} (left : s.createImf = last.bind (·.createImf))
    (taken : entries.foldlM loadEntry s = .ok t) :
    ∃ more, t.imfs = s.imfs ++ more ∧ List.Sublist (entries.filterMap DirEntry.imf) more ∧
      (more = entries.filterMap DirEntry.imf ↔ Along opened Harmless last entries) := by
  induction entries generalizing last s with
  | nil =>
    obtain rfl := Except.ok.inj taken
    exact ⟨[], (List.append_nil _).symm, .slnil, iff_of_true rfl trivial⟩
  | cons e entries ih =>
    rw [List.foldlM_cons] at taken
    obtain ⟨mid, first, rest⟩ := Outcome.bind_eq_ok.mp taken
    obtain ⟨next, m, added, own, harmless⟩ := loadEntry_adds left first
    obtain ⟨n, later, others, along⟩ := ih next rest
    have split : (e :: entries).filterMap DirEntry.imf =
        e.imf.toList ++ entries.filterMap DirEntry.imf := by
      cases found : e.imf <;> simp [found]
    refine ⟨m ++ n, by rw [later, added, List.append_assoc], ?_, ?_⟩
    · rw [split]
      exact own.append others
    · rw [split, append_eq_append_of_sublist own others, harmless, along]
      exact Iff.rfl

theorem scan_harmless {entries : List DirEntry} (left : s.createImf = last.bind (·.createImf))
    (along : Along opened Harmless last entries) : ∃ t, entries.foldlM loadEntry s = .ok t := by
  induction entries generalizing last s with
  | nil => exact ⟨s, rfl⟩
  | cons e entries ih =>
    obtain ⟨harmless, rest⟩ := along
    obtain ⟨mid, first⟩ := loadEntry_harmless left harmless
    obtain ⟨t, later⟩ := ih (loadEntry_adds left first).1 rest
    exact ⟨t, by rw [List.foldlM_cons, first]; exact later⟩

end Scan

/-- `scanImf` returns what it should exactly when every entry is harmless. -/
theorem scanImf_eq_loaded_iff {dir : Option (List DirEntry)} :
    (∃ t, scanImf dir = .ok t ∧ t.imfs = loaded dir) ↔
      Along opened Harmless none (dir.getD []) := by
  have start : (none : Option (Option Nat)) = (none : Option Library).bind (·.createImf) := rfl
  constructor
  · rintro ⟨t, scanned, same⟩
    obtain ⟨more, added, -, along⟩ := scan_adds start scanned
    exact along.mp (added.symm.trans same)
  · intro along
    obtain ⟨t, scanned⟩ := scan_harmless (s := ⟨none, false, []⟩) start along
    obtain ⟨more, added, -, exact_⟩ := scan_adds start scanned
    exact ⟨t, scanned, added.trans (exact_.mpr along)⟩

theorem Session.ucimfInit_ok {s t : Session} {dir : Option (List DirEntry)} :
    s.ucimfInit dir = .ok t ↔ ∃ scan imf, scanImf dir = .ok scan ∧ scan.imfs[0]? = some imf ∧
      t = { ({ s with imf := none, attached := true } : Session).setFocus false with
        imfs := scan.imfs, currentImf := 0, imf := some imf } := by
  rw [ucimfInit, Outcome.bind_eq_ok]
  constructor
  · rintro ⟨scan, scanned, selected⟩
    cases first : scan.imfs[0]? with
    | none =>
      rw [first] at selected
      cases selected
    | some imf =>
      rw [first] at selected
      exact ⟨scan, imf, scanned, first, (Except.ok.inj selected).symm⟩
  · rintro ⟨scan, imf, scanned, first, rfl⟩
    exact ⟨scan, scanned, by rw [first]⟩

/-- The start is right exactly when every entry is harmless and one input method is found. -/
theorem starts_iff (s : Session) (dir : Option (List DirEntry)) :
    s.Starts dir ↔ Along opened Harmless none (dir.getD []) ∧ loaded dir ≠ [] := by
  rw [← scanImf_eq_loaded_iff]
  constructor
  · rintro ⟨t, started, same, -⟩
    obtain ⟨scan, imf, scanned, first, rfl⟩ := Session.ucimfInit_ok.mp started
    have all : scan.imfs = loaded dir := same
    refine ⟨⟨scan, scanned, all⟩, fun empty => ?_⟩
    rw [all, empty] at first
    cases first
  · rintro ⟨⟨scan, scanned, same⟩, found⟩
    obtain ⟨imf, rest, shape⟩ := List.exists_cons_of_ne_nil found
    have first : scan.imfs[0]? = some imf := by
      rw [same, shape]
      rfl
    refine ⟨_, Session.ucimfInit_ok.mpr ⟨scan, imf, scanned, first, rfl⟩, same, ?_⟩
    rw [shape]
    rfl

/-- A first module that cannot be opened is called through the null pointer. -/
theorem starts_broken_first : ¬ ∀ (s : Session) (dir : Option (List DirEntry)), s.Starts dir := by
  intro all
  obtain ⟨t, started, -, -⟩ :=
    all ⟨⟨fun _ => false, fun _ => 0, 0, 0, 0, false, false, false, -1⟩, false, false, none, [], 0,
      []⟩ (some [⟨"broken.so", none⟩])
  obtain ⟨scan, -, scanned, -⟩ := Session.ucimfInit_ok.mp started
  have module : (DirEntry.mk "broken.so" none).isModule = true := by decide +kernel
  have crashes : scanImf (some [⟨"broken.so", none⟩]) = .error .nullCall := by
    simp only [scanImf, Option.getD_some, List.foldlM_cons, loadEntry, module, if_true]
    rfl
  rw [crashes] at scanned
  cases scanned

end Ucimf.Raw
