import Ucimf.Chewing.Preedit
import Mathlib.Data.List.Sort

/-!
# What the preedit string leaves out

A character outside every interval is not written, and with it goes a cursor that stands
there. The string shows the buffer exactly when the intervals cover the text and the undefined
accesses do no harm: every character is still there when its released storage is read.
-/

namespace Ucimf.Chewing

open Keyboard OpenVanilla Outcome Text

namespace EditBuffer

variable {e : EditBuffer}

/-! ### Positions -/

theorem length_pos (e : EditBuffer) : 0 < e.text.length := List.length_pos_iff.mpr e.nonempty

theorem positions_sorted (e : EditBuffer) : e.positions.Pairwise (· < ·) := by
  apply List.pairwise_flatMap.mpr
  refine ⟨fun it _ => positions_increase it, e.ordered.imp ?_⟩
  intro a b apart p hp q hq
  exact (mem_positions.mp hp).2.trans_le (apart.trans (mem_positions.mp hq).1)

theorem bounds_of_mem {p : Int} (member : p ∈ e.positions) : 0 ≤ p ∧ p < e.text.length := by
  obtain ⟨it, listed, found⟩ := List.mem_flatMap.mp member
  have inside := e.inside it listed
  have range := mem_positions.mp found
  exact ⟨inside.1.trans range.1, range.2.trans_le inside.2.2⟩

/-- The positions of the text. -/
def allPositions (n : Nat) : List Int := (List.range n).map fun (k : Nat) => (k : Int)

theorem mem_allPositions {n : Nat} {p : Int} : p ∈ allPositions n ↔ 0 ≤ p ∧ p < n := by
  rw [allPositions, List.mem_map]
  constructor
  · rintro ⟨k, member, rfl⟩
    have bound := List.mem_range.mp member
    omega
  · rintro ⟨lower, upper⟩
    exact ⟨p.toNat, List.mem_range.mpr (by omega), by omega⟩

theorem allPositions_sorted (n : Nat) : (allPositions n).Pairwise (· < ·) := by
  rw [allPositions, List.pairwise_map]
  refine List.pairwise_lt_range.imp ?_
  intro j k less
  exact_mod_cast less

theorem positions_eq_iff (e : EditBuffer) :
    e.positions = allPositions e.text.length ↔ e.Covered := by
  constructor
  · intro all p lower upper
    have member := mem_allPositions.mpr ⟨lower, upper⟩
    rw [← all] at member
    obtain ⟨it, listed, found⟩ := List.mem_flatMap.mp member
    exact ⟨it, listed, mem_positions.mp found⟩
  · intro covered
    apply e.positions_sorted.eq_of_mem_iff (allPositions_sorted _)
    intro p
    constructor
    · intro member
      exact mem_allPositions.mpr (bounds_of_mem member)
    · intro member
      have bounds := mem_allPositions.mp member
      obtain ⟨it, listed, range⟩ := covered p bounds.1 bounds.2
      exact List.mem_flatMap.mpr ⟨it, listed, mem_positions.mpr range⟩

/-- Positions of the text in increasing order that are as many as there are are all of them. -/
theorem positions_eq_of_length (counted : e.positions.length = e.text.length) :
    e.positions = allPositions e.text.length := by
  have subset : e.positions ⊆ allPositions e.text.length := fun p member =>
    mem_allPositions.mpr (bounds_of_mem member)
  have enough : (allPositions e.text.length).length ≤ e.positions.length := by
    rw [allPositions, List.length_map, List.length_range, counted]
  have perm := (List.subperm_of_subset e.positions_sorted.nodup subset).perm_of_length_le enough
  exact perm.eq_of_pairwise' e.positions_sorted (allPositions_sorted _)

/-! ### Characters -/

theorem charsAt_natCast {m : Nat} (small : m < e.text.length) :
    e.charsAt m = (if e.cursor = m then ['.'] else []) ++ [e.text[m]] ++
      if m + 1 = e.cursor ∧ e.cursor = e.text.length then ['.'] else [] := by
  have next : ((m : Int) + 1 = e.cursor) = (m + 1 = e.cursor) := by
    apply propext
    omega
  simp only [charsAt, Int.toNat_natCast, List.getElem?_eq_getElem small, Option.toList_some,
    Int.natCast_inj, next]

theorem allPositions_succ (m : Nat) : allPositions (m + 1) = allPositions m ++ [(m : Int)] := by
  rw [allPositions, List.range_succ, List.map_append]
  rfl

/-- What the rounds of the first `m` positions write. -/
theorem flatMap_charsAt {m : Nat} (le : m ≤ e.text.length) :
    (allPositions m).flatMap e.charsAt =
      if e.cursor < m ∨ (e.cursor = m ∧ 0 < m ∧ m = e.text.length) then
        e.text.take e.cursor ++ '.' :: (e.text.take m).drop e.cursor
      else e.text.take m := by
  induction m with
  | zero => simp [allPositions]
  | succ m ih =>
    have small : m < e.text.length := le
    have grown : e.text.take (m + 1) = e.text.take m ++ [e.text[m]] :=
      (List.take_append_getElem small).symm
    have length : (e.text.take m).length = m := List.length_take_of_le small.le
    have before := ih small.le
    have round := charsAt_natCast small
    rw [allPositions_succ, List.flatMap_append, List.flatMap_singleton]
    rcases Nat.lt_trichotomy e.cursor m with passed | here | ahead
    · rw [if_pos (.inl (passed.trans (Nat.lt_succ_self m))),
        before.trans (if_pos (.inl passed)), grown,
        List.drop_append_of_le_length (length.symm ▸ passed.le), round, if_neg passed.ne,
        if_neg (by omega)]
      simp
    · have unpassed : ¬ (e.cursor < m ∨ e.cursor = m ∧ 0 < m ∧ m = e.text.length) := by omega
      rw [if_pos (.inl (here.symm ▸ Nat.lt_succ_self m)), before.trans (if_neg unpassed),
        grown, round,
        if_pos here, if_neg (by omega), here, List.drop_append_of_le_length length.ge,
        List.drop_of_length_le length.le]
      simp
    · have unpassed : ¬ (e.cursor < m ∨ e.cursor = m ∧ 0 < m ∧ m = e.text.length) := by omega
      by_cases last : m + 1 = e.cursor ∧ e.cursor = e.text.length
      · rw [if_pos (.inr (by omega)), before.trans (if_neg unpassed), round, if_neg ahead.ne',
          if_pos last, ← last.1, List.drop_of_length_le (List.length_take_le _ _), grown]
        exact (List.append_assoc ..).symm
      · rw [if_neg (by omega), before.trans (if_neg unpassed), grown, round, if_neg ahead.ne',
          if_neg last]
        simp

theorem flatMap_all (e : EditBuffer) :
    (allPositions e.text.length).flatMap e.charsAt = e.expected := by
  have positive := e.length_pos
  have within := e.within
  rw [flatMap_charsAt le_rfl, if_pos (by omega), List.take_length, expected]

/-- A round writes one character that is not the cursor. -/
theorem letters_charsAt {p : Int} (lower : 0 ≤ p) (upper : p < e.text.length) :
    ((e.charsAt p).filter (· ≠ '.')).length = 1 := by
  obtain ⟨m, rfl⟩ := Int.eq_ofNat_of_zero_le lower
  have small : m < e.text.length := by exact_mod_cast upper
  have letter := (e.plain _ (List.getElem_mem small)).2.2.2
  have kept : [e.text[m]].filter (· ≠ '.') = [e.text[m]] := by simp [letter]
  rw [charsAt_natCast small, List.filter_append, List.filter_append, kept]
  split <;> split <;> rfl

theorem letters_flatMap {positions : List Int}
    (inside : ∀ p ∈ positions, 0 ≤ p ∧ p < e.text.length) :
    ((positions.flatMap e.charsAt).filter (· ≠ '.')).length = positions.length := by
  induction positions with
  | nil => rfl
  | cons p positions ih =>
    have bounds := inside p List.mem_cons_self
    rw [List.flatMap_cons, List.filter_append, List.length_append,
      letters_charsAt bounds.1 bounds.2,
      ih fun q member => inside q (List.mem_cons_of_mem p member), List.length_cons, Nat.add_comm]

/-- The characters written are those of the text and the cursor if nothing is left out. -/
theorem flatMap_eq_expected_iff (e : EditBuffer) :
    e.positions.flatMap e.charsAt = e.expected ↔ e.Covered := by
  rw [← positions_eq_iff]
  constructor
  · intro same
    apply positions_eq_of_length
    rw [← flatMap_all] at same
    have letters := congrArg (fun cs => (cs.filter (· ≠ '.')).length) same
    simp only [letters_flatMap fun p member => bounds_of_mem member,
      letters_flatMap fun p member => mem_allPositions.mp member] at letters
    rw [letters, allPositions, List.length_map, List.length_range]
  · intro all
    rw [all, flatMap_all]

/-! ### Bytes -/

/-- Each character of the text is converted back from its code point. -/
def ConvertsBack (e : EditBuffer) (conv : Iconv) : Prop :=
  ∀ c ∈ e.text, conv.written "UTF-8" "UTF-32" (wordBytes c.toNat) 8 = String.utf8EncodeChar c

/-- The released storage of every character still reads as it did. -/
def Intact (e : EditBuffer) (remains : Remains) : Prop :=
  ∀ p : Int, 0 ≤ p → p < e.text.length → remains.kept p = true

/-- The string is made, and without the group marks it is the text of the buffer with the cursor
in it. -/
def Shows (e : EditBuffer) (conv : Iconv) (remains : Remains) (zuin : Bytes) : Prop :=
  ∃ bytes, prdtPre conv remains (e.context zuin) = .ok bytes ∧
    unmarked bytes = Utf8.encode e.expected

variable {conv : Iconv} {remains : Remains}

theorem strToUtf32_context (writes : conv.WritesUtf32) (zuin : Bytes) :
    strToUtf32 conv (e.context zuin).bufferString "UTF-8" = e.text.map Char.toNat := by
  have plain : ∀ c ∈ e.text, c.toNat ≠ 0 := fun c member => (e.plain c member).1
  rw [strToUtf32, context, ustring_encode writes plain, List.take_of_length_le e.short]

theorem utf32ToStr_char (back : e.ConvertsBack conv) {c : Char} (member : c ∈ e.text) :
    utf32ToStr conv [c.toNat] "UTF-8" = String.utf8EncodeChar c := by
  have text := cString_eq_self (Utf8.zero_notMem_encodeChar (e.plain c member).1)
  have word : [c.toNat].flatMap wordBytes = wordBytes c.toNat := List.flatMap_singleton ..
  have room : [c.toNat].length * 4 / 4 * 8 = 8 := by simp
  rw [utf32ToStr, word, room]
  exact (congrArg cString (back c member)).trans text

/-- A round writes its characters if the one of the text is still there. -/
theorem wordAt_eq_ok_iff (back : e.ConvertsBack conv) {p : Int} (lower : 0 ≤ p)
    (upper : p < e.text.length) (bytes : Bytes) :
    wordAt conv remains (e.text.map Char.toNat) e.cursor p = .ok bytes ↔
      remains.kept p = true ∧ bytes = Utf8.encode (e.charsAt p) := by
  obtain ⟨m, rfl⟩ := Int.eq_ofNat_of_zero_le lower
  have small : m < e.text.length := by exact_mod_cast upper
  have letter : (e.text.map Char.toNat).getD m 0 = e.text[m].toNat := by
    simp [small]
  have dot (c : Prop) [Decidable c] :
      (if c then ascii "." else []) = Utf8.encode (if c then ['.'] else []) := by
    split <;> rfl
  have visible : 0 ≤ (m : Int) ∧ (m : Int) < e.text.length := ⟨lower, upper⟩
  have single : Utf8.encode (some e.text[m]).toList = String.utf8EncodeChar e.text[m] :=
    List.append_nil _
  rw [wordAt, charsAt, Utf8.encode_append, Utf8.encode_append, List.length_map, ← dot, ← dot,
    if_pos visible, Int.toNat_natCast, letter,
    utf32ToStr_char back (List.getElem_mem small), List.getElem?_eq_getElem small, single]
  by_cases kept : remains.kept m = true
  · rw [if_pos kept, ok_bind, and_iff_right kept, Except.ok.injEq]
    exact eq_comm
  · rw [if_neg kept, error_bind]
    exact iff_of_false nofun fun both => kept both.1

theorem charsAt_plain {p : Int} : ∀ c ∈ e.charsAt p, c ≠ '[' ∧ c ≠ ']' := by
  intro c member
  have dot {q : Prop} [Decidable q] (found : c ∈ if q then ['.'] else []) : c = '.' := by
    split at found
    · exact List.mem_singleton.mp found
    · cases found
  rw [charsAt, List.mem_append, List.mem_append, Option.mem_toList] at member
  rcases member with (found | found) | found
  · rw [dot found]
    decide
  · have plain := e.plain c (List.mem_of_getElem? found)
    exact ⟨plain.2.1, plain.2.2.1⟩
  · rw [dot found]
    decide

/-- The string between the marks of one group, with the marks. -/
theorem group_eq_ok_iff (back : e.ConvertsBack conv) {it : IntervalType} (listed : it ∈ e.intervals)
    (bytes : Bytes) :
    group conv remains (e.text.map Char.toNat) e.cursor it = .ok bytes ↔
      (∀ p ∈ it.positions, remains.kept p = true) ∧
        bytes = ascii "[" ++ Utf8.encode (it.positions.flatMap e.charsAt) ++ ascii "]" := by
  have rounds (words : Bytes) :
      it.positions.foldlM (fun out i => (out ++ ·) <$>
          wordAt conv remains (e.text.map Char.toNat) e.cursor i) [] = .ok words ↔
        (∀ p ∈ it.positions, remains.kept p = true) ∧
          words = [] ++ it.positions.flatMap fun p => Utf8.encode (e.charsAt p) := by
    apply foldlM_append_eq_ok_iff
    intro p member
    have bounds := bounds_of_mem (List.mem_flatMap.mpr ⟨it, listed, member⟩)
    exact wordAt_eq_ok_iff back bounds.1 bounds.2
  rw [group, bind_eq_ok]
  constructor
  · rintro ⟨words, written, same⟩
    obtain ⟨kept, rfl⟩ := (rounds words).mp written
    rw [← Except.ok.inj same, List.nil_append]
    exact ⟨kept, congrArg (ascii "[" ++ · ++ ascii "]") List.flatMap_assoc.symm⟩
  · rintro ⟨kept, rfl⟩
    refine ⟨_, (rounds _).mpr ⟨kept, rfl⟩, ?_⟩
    rw [List.nil_append]
    exact congrArg (fun words => Except.ok (ascii "[" ++ words ++ ascii "]"))
      List.flatMap_assoc.symm

theorem unmarked_group (chars : List Char) (plain : ∀ c ∈ chars, c ≠ '[' ∧ c ≠ ']') :
    unmarked (ascii "[" ++ Utf8.encode chars ++ ascii "]") = Utf8.encode chars := by
  have marks : unmarked (ascii "[") = [] ∧ unmarked (ascii "]") = [] := ⟨by decide, by decide⟩
  rw [unmarked_append, unmarked_append, marks.1, marks.2, List.nil_append, List.append_nil,
    unmarked_encode plain]

/-- What is written of the buffer, once the undefined accesses are over. -/
theorem prdtPre_eq_ok_iff (writes : conv.WritesUtf32) (back : e.ConvertsBack conv) (zuin : Bytes)
    (bytes : Bytes) :
    prdtPre conv remains (e.context zuin) = .ok bytes ↔
      remains.countSpare = true ∧ (∀ p ∈ e.positions, remains.kept p = true) ∧
        bytes = e.intervals.flatMap fun it =>
          ascii "[" ++ Utf8.encode (it.positions.flatMap e.charsAt) ++ ascii "]" := by
  rw [prdtPre, strToUtf32_context writes]
  by_cases spare : remains.countSpare = true
  · rw [if_pos spare, and_iff_right spare]
    refine (foldlM_append_eq_ok_iff fun it listed => group_eq_ok_iff back listed).trans ?_
    exact and_congr_left' List.forall_mem_flatMap.symm
  · rw [if_neg spare]
    exact iff_of_false nofun fun both => spare both.1

theorem unmarked_groups (e : EditBuffer) :
    unmarked (e.intervals.flatMap fun it =>
      ascii "[" ++ Utf8.encode (it.positions.flatMap e.charsAt) ++ ascii "]") =
      Utf8.encode (e.positions.flatMap e.charsAt) := by
  have plain : ∀ it : IntervalType, ∀ c ∈ it.positions.flatMap e.charsAt, c ≠ '[' ∧ c ≠ ']' := by
    intro it c member
    obtain ⟨p, _, found⟩ := List.mem_flatMap.mp member
    exact charsAt_plain c found
  rw [unmarked_flatMap]
  simp only [unmarked_group _ (plain _)]
  rw [positions, List.flatMap_assoc]
  exact List.flatMap_assoc.symm

/-- The preedit string shows the whole buffer and the cursor exactly when the intervals leave out
no character and neither of the undefined accesses does harm. -/
theorem shows_iff (e : EditBuffer) (writes : conv.WritesUtf32) (back : e.ConvertsBack conv)
    (remains : Remains) (zuin : Bytes) :
    e.Shows conv remains zuin ↔ e.Covered ∧ e.Intact remains ∧ remains.countSpare = true := by
  constructor
  · rintro ⟨bytes, made, shown⟩
    obtain ⟨spare, kept, rfl⟩ := (prdtPre_eq_ok_iff writes back zuin bytes).mp made
    rw [unmarked_groups] at shown
    have covered := (flatMap_eq_expected_iff e).mp (Utf8.encode_injective shown)
    refine ⟨covered, fun p lower upper => kept p ?_, spare⟩
    rw [(positions_eq_iff e).mpr covered]
    exact mem_allPositions.mpr ⟨lower, upper⟩
  · rintro ⟨covered, intact, spare⟩
    refine ⟨_, (prdtPre_eq_ok_iff writes back zuin _).mpr ⟨spare, fun p member => ?_, rfl⟩, ?_⟩
    · have bounds := bounds_of_mem member
      exact intact p bounds.1 bounds.2
    · rw [unmarked_groups, (flatMap_eq_expected_iff e).mpr covered]

/-- A letter before a Chinese character, each a phrase of its own. -/
def twoPhrases : EditBuffer where
  text := ['a', '中']
  cursor := 1
  intervals := [⟨0, 1⟩, ⟨1, 2⟩]
  nonempty := by decide
  short := by decide
  plain := List.all_iff_forall_prop.mp rfl
  within := by decide
  inside := by decide
  ordered := by decide

theorem twoPhrases_convertsBack : twoPhrases.ConvertsBack utf8Iconv :=
  List.all_iff_forall_prop.mp rfl

/-- Memory in which the undefined accesses do no harm. -/
def untouched : Remains := ⟨true, fun _ => true⟩

theorem twoPhrases_shown : twoPhrases.Shows utf8Iconv untouched [] := by
  refine (twoPhrases.shows_iff utf8Iconv_writesUtf32 twoPhrases_convertsBack untouched []).mpr
    ⟨?_, fun _ _ _ => rfl, rfl⟩
  intro p lower upper
  have range : p < 2 := upper
  rcases (show p = 0 ∨ p = 1 by omega) with rfl | rfl
  · exact ⟨⟨0, 1⟩, by decide, by decide, by decide⟩
  · exact ⟨⟨1, 2⟩, by decide, by decide, by decide⟩

/-- The same text with the Chinese phrase only and the cursor in front. -/
def onePhrase : EditBuffer where
  text := ['a', '中']
  cursor := 0
  intervals := [⟨1, 2⟩]
  nonempty := by decide
  short := by decide
  plain := List.all_iff_forall_prop.mp rfl
  within := by decide
  inside := by decide
  ordered := by decide

/-- The letter and the cursor are left out of `[中]`, though both characters are still there when
they are read. -/
theorem letter_left_out :
    utf8Iconv.WritesUtf32 ∧ onePhrase.ConvertsBack utf8Iconv ∧
      prdtPre utf8Iconv untouched (onePhrase.context []) = .ok (Utf8.encode ['[', '中', ']']) ∧
      Utf8.encode onePhrase.expected = Utf8.encode ['.', 'a', '中'] ∧
      ¬ onePhrase.Shows utf8Iconv untouched [] := by
  have written : prdtPre utf8Iconv untouched (onePhrase.context []) =
      .ok (Utf8.encode ['[', '中', ']']) := by
    decide +kernel
  refine ⟨utf8Iconv_writesUtf32, List.all_iff_forall_prop.mp rfl, written, rfl, ?_⟩
  rintro ⟨bytes, made, shown⟩
  rw [written] at made
  cases made
  exact absurd shown (by decide)

end EditBuffer

end Ucimf.Chewing
