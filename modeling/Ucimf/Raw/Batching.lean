import Ucimf.Raw.Events
import Mathlib.Data.List.Induction

/-!
# One call on many events

A call acts on the last event it decodes and drops the others. A list of events may be
handed over in one call, for every keymap and every session, exactly when the dropped
events belong to keys outside the keymap.
-/

namespace Ucimf.Raw

open Keyboard KeyType KeyState

/-- The part of a session that batching should not change. -/
def Session.seen (s : Session) :=
  (s.kb.keyDown, s.kb.shiftDown, s.kb.shiftState, s.kb.lockState, s.kb.npadch, s.imf,
    s.currentImf, s.focus, s.calls)

/-- For every keymap, input method and session, one call on the list ends as the calls on
its events do, with the same output. -/
def BatchingLaw (es : List Event) : Prop :=
  ∀ k answer spare, Roomy answer spare → ∀ s,
    (batch k answer spare s es).map (fun r => (r.1.seen, r.2)) =
      (sequential k answer spare s es).map fun r => (r.1.seen, r.2)

variable {k : Kernel} {answer : Answer} {spare : List UInt8} {s : Session}

theorem sequential_snoc (es : List Event) (e : Event) :
    sequential k answer spare s (es ++ [e]) =
      sequential k answer spare s es >>= fun r => next k answer spare r e := by
  rw [sequential, List.foldlM_append, sequential]
  simp

theorem next_nil (e : Event) :
    next k answer spare (s, []) e = call k answer spare s (encode e) := by
  rw [next]
  cases call k answer spare s (encode e) with
  | error fault => rfl
  | ok r => rfl

theorem sequential_large (roomy : Roomy answer spare) {es : List Event}
    (encodes : ∀ e ∈ es, Encodes e) (large : ∀ e ∈ es, nrKeys ≤ e.keycode) :
    sequential k answer spare s es = .ok (s, []) := by
  unfold sequential
  induction es with
  | nil => rfl
  | cons e es ih =>
    rw [List.foldlM_cons, next_large roomy _ (encodes e List.mem_cons_self)
      (large e List.mem_cons_self)]
    exact ih (fun e' member => encodes e' (.tail _ member)) fun e' member =>
      large e' (.tail _ member)

theorem batching_of_large {es : List Event} {e : Event} (encodes : ∀ e' ∈ es ++ [e], Encodes e')
    (large : ∀ e' ∈ es, nrKeys ≤ e'.keycode) : BatchingLaw (es ++ [e]) := by
  intro k answer spare roomy s
  have before := sequential_large (k := k) (s := s) roomy
    (fun e' member => encodes e' (List.mem_append_left _ member)) large
  rw [batch_snoc roomy encodes, sequential_snoc, before, Outcome.ok_bind, next_nil]

/-! ## Keymaps that tell the difference -/

/-- Every key has the same entry in every table. -/
def plainKeymap (sym : Keysym) : Kernel where
  keymap _ := some fun _ => sym
  funcString _ := []
  metaBit := false

/-- A session on which only the keyboard matters. -/
def bareSession (kb : KeyState) : Session where
  kb := kb
  focus := false
  attached := false
  imf := none
  imfs := []
  currentImf := 0
  calls := []

theorem plainKeymap_short (sym : Keysym) : Short (plainKeymap sym) := fun _ =>
  Nat.zero_lt_succ _

/-- Under the law the last event alone and all events in order lead to keyboards with the
same counters and the same `npadch`. -/
theorem BatchingLaw.keyboards {es : List Event} {e : Event} (law : BatchingLaw (es ++ [e]))
    (encodes : ∀ e' ∈ es ++ [e], Encodes e') (sym : Keysym) (kb : KeyState) :
    (typed (plainKeymap sym) kb e).shiftDown =
        (typed (plainKeymap sym) (es.foldl (typed (plainKeymap sym)) kb) e).shiftDown ∧
      (typed (plainKeymap sym) kb e).npadch =
        (typed (plainKeymap sym) (es.foldl (typed (plainKeymap sym)) kb) e).npadch := by
  have roomy : Roomy (fun _ => []) [] := fun _ => le_rfl
  have short := plainKeymap_short sym
  obtain ⟨all, ran, kb_all⟩ := sequential_kb (s := bareSession kb) roomy short encodes
  obtain ⟨one, called, kb_one⟩ :=
    next_kb roomy short (bareSession kb, []) (encodes e (by simp))
  have agree := law (plainKeymap sym) (fun _ => []) [] roomy (bareSession kb)
  rw [batch_snoc roomy encodes, ← next_nil, called, ran] at agree
  have seen : one.1.seen = all.1.seen := congrArg Prod.fst (Except.ok.inj agree)
  rw [List.foldl_append, List.foldl_cons, List.foldl_nil] at kb_all
  simp only [Session.seen, Prod.mk.injEq, kb_one, kb_all] at seen
  exact ⟨seen.2.1, seen.2.2.2.2.1⟩

/-! ### Presses

While every key is the digit 1 of the hexadecimal composition, `npadch` tells how many
presses there were. -/

def kHex1 : Keysym := ⟨ktAscii, 11⟩

theorem lookup_plain (sym : Keysym) (kb : KeyState) (keycode : Nat) :
    lookup (plainKeymap sym) kb keycode = sym := by
  unfold lookup
  dsimp only
  split <;> rfl

theorem keysym_plain (sym : Keysym) (mapped : sym ≠ kNosuchmap) (kb : KeyState) {keycode : Nat}
    (small : keycode < nrKeys) (down : Bool) :
    (keycodeToKeysym (plainKeymap sym) kb keycode down).1 = sym := by
  rw [keycodeToKeysym_entry, entry, lookup_plain,
    if_neg (not_or.mpr ⟨not_le.mpr small, mapped⟩)]

theorem typed_hex_press {kb : KeyState} {e : Event} (small : e.keycode < nrKeys)
    (press : e.down = true) :
    (typed (plainKeymap kHex1) kb e).npadch = composed kb.npadch 11 := by
  have sym := keysym_plain kHex1 (by decide) kb small true
  rw [typed, translate, press, sym, npadch_keysymToTermString_press (by decide)]
  simp [termNpadch, kHex1, nrAscii]

theorem typed_hex_idle {kb : KeyState} {e : Event}
    (idle : ¬ (e.keycode < nrKeys ∧ e.down = true)) :
    (typed (plainKeymap kHex1) kb e).npadch = kb.npadch := by
  rcases le_or_gt nrKeys e.keycode with large | small
  · rw [typed, translate_large large]
  · have release : e.down = false := by simpa [small] using idle
    have sym := keysym_plain kHex1 (by decide) kb small false
    rw [typed, translate, release, sym, keysymToTermString_release (by decide)]
    exact npadch_keycodeToKeysym _ _ _ _

theorem composed_hex {n : BitVec 32} (used : n ≠ -1) :
    (composed n 11).toNat = (n.toNat * 16 + 1) % 2 ^ 32 := by
  unfold composed
  dsimp only
  rw [if_neg used]
  simp [kHex0, BitVec.toNat_add, BitVec.toNat_mul]

/-- The digit typed once shows in the last place, typed twice in the last two. -/
theorem foldl_hex (es : List Event) {kb : KeyState} (start : kb.npadch = -1) :
    (¬ (∃ e ∈ es, e.keycode < nrKeys ∧ e.down = true) ∧
        (es.foldl (typed (plainKeymap kHex1)) kb).npadch = -1) ∨
      (es.foldl (typed (plainKeymap kHex1)) kb).npadch.toNat % 16 = 1 := by
  induction es using List.reverseRecOn with
  | nil => exact .inl ⟨by simp, start⟩
  | append_singleton es e ih =>
    rw [List.foldl_append, List.foldl_cons, List.foldl_nil]
    by_cases press : e.keycode < nrKeys ∧ e.down = true
    · right
      rw [typed_hex_press press.1 press.2]
      by_cases first : (es.foldl (typed (plainKeymap kHex1)) kb).npadch = -1
      · rw [first]
        rfl
      · rw [composed_hex first]
        omega
    · rw [typed_hex_idle press]
      rcases ih with ⟨none, same⟩ | digit
      · refine .inl ⟨?_, same⟩
        rintro ⟨e', member, pressed⟩
        rcases List.mem_append.mp member with earlier | last
        · exact none ⟨e', earlier, pressed⟩
        · rw [List.mem_singleton.mp last] at pressed
          exact press pressed
      · exact .inr digit

/-- Under the law no event before the last is a press of a key of the keymap. -/
theorem BatchingLaw.no_press {es : List Event} {e : Event} (law : BatchingLaw (es ++ [e]))
    (encodes : ∀ e' ∈ es ++ [e], Encodes e') :
    ¬ ∃ e' ∈ es, e'.keycode < nrKeys ∧ e'.down = true := by
  intro pressed
  obtain ⟨kb, start⟩ : ∃ kb : KeyState, kb.npadch = -1 :=
    ⟨⟨fun _ => false, fun _ => 0, 0, 0, 0, false, false, false, -1⟩, rfl⟩
  have same := congrArg BitVec.toNat (law.keyboards encodes kHex1 kb).2
  have digit := (foldl_hex es start).resolve_left fun none => none.1 pressed
  by_cases press : e.keycode < nrKeys ∧ e.down = true
  · have used : (es.foldl (typed (plainKeymap kHex1)) kb).npadch ≠ -1 := by
      intro minus
      rw [minus] at digit
      exact absurd digit (by decide)
    have once : (composed (-1) 11).toNat = 1 := rfl
    rw [typed_hex_press press.1 press.2, typed_hex_press press.1 press.2, start, once,
      composed_hex used] at same
    omega
  · rw [typed_hex_idle press, typed_hex_idle press, start] at same
    rw [← same] at digit
    exact absurd digit (by decide)

/-! ### Releases

While every key is Shift, a release takes one from the counter and ends the composition. -/

def kShift : Keysym := ⟨ktShift, 0⟩

theorem typed_shift_release (kb : KeyState) {e : Event} (small : e.keycode < nrKeys)
    (release : e.down = false) :
    (typed (plainKeymap kShift) kb e).npadch = -1 ∧
      (typed (plainKeymap kShift) kb e).shiftDown 0 = counted (kb.shiftDown 0) false := by
  have sym := keysym_plain kShift (by decide) kb small false
  rw [typed, translate, release, sym, keysymToTermString_shift rfl]
  refine ⟨rfl, ?_⟩
  have found : ¬ (kShift = kHole ∨ kShift = kNosuchmap) := by decide
  rw [keycodeToKeysym, if_neg (not_le.mpr small)]
  simp only [lookup_plain, found, if_false]
  rfl

theorem typed_shift_idle {kb : KeyState} {e : Event}
    (idle : ¬ (e.keycode < nrKeys ∧ e.down = false)) :
    (typed (plainKeymap kShift) kb e).npadch = kb.npadch := by
  rcases le_or_gt nrKeys e.keycode with large | small
  · rw [typed, translate_large large]
  · have press : e.down = true := by simpa [small] using idle
    have sym := keysym_plain kShift (by decide) kb small true
    rw [typed, translate, press, sym, npadch_keysymToTermString_press (by decide)]
    simp [termNpadch, kShift]

/-- Releases end the composition and leave less than the two keys held at the start. -/
theorem foldl_shift (es : List Event) {kb : KeyState} (two : kb.shiftDown 0 = 2)
    (released : ∀ e ∈ es, e.keycode < nrKeys → e.down = false) :
    ((∀ e ∈ es, nrKeys ≤ e.keycode) ∧ es.foldl (typed (plainKeymap kShift)) kb = kb) ∨
      (es.foldl (typed (plainKeymap kShift)) kb).npadch = -1 ∧
        ((es.foldl (typed (plainKeymap kShift)) kb).shiftDown 0).toNat ≤ 1 := by
  induction es using List.reverseRecOn with
  | nil => exact .inl ⟨by simp, rfl⟩
  | append_singleton es e ih =>
    have before := ih fun e' member => released e' (List.mem_append_left _ member)
    rw [List.foldl_append, List.foldl_cons, List.foldl_nil]
    rcases le_or_gt nrKeys e.keycode with large | small
    · rw [typed, translate_large large]
      refine before.imp_left fun ⟨outside, same⟩ => ⟨fun e' member => ?_, same⟩
      rcases List.mem_append.mp member with earlier | last
      · exact outside e' earlier
      · rw [List.mem_singleton.mp last]
        exact large
    · have ⟨ended, fewer⟩ := typed_shift_release (es.foldl (typed (plainKeymap kShift)) kb) small
        (released e (by simp) small)
      refine .inr ⟨ended, ?_⟩
      rw [fewer, counted_release]
      rcases before with ⟨_, same⟩ | ⟨_, few⟩
      · rw [same, two]
        decide
      · omega

/-- Under the law every event before the last belongs to a key outside the keymap. -/
theorem BatchingLaw.large {es : List Event} {e : Event} (law : BatchingLaw (es ++ [e]))
    (encodes : ∀ e' ∈ es ++ [e], Encodes e') : ∀ e' ∈ es, nrKeys ≤ e'.keycode := by
  have released : ∀ e' ∈ es, e'.keycode < nrKeys → e'.down = false := by
    intro e' member small
    by_contra press
    exact law.no_press encodes ⟨e', member, small, by simpa using press⟩
  obtain ⟨kb, two, composing⟩ : ∃ kb : KeyState, kb.shiftDown 0 = 2 ∧ kb.npadch = 65 :=
    ⟨⟨fun _ => false, fun _ => 2, 0, 0, 0, false, false, false, 65⟩, rfl, rfl⟩
  obtain ⟨counters, npadch⟩ := law.keyboards encodes kShift kb
  rcases foldl_shift es two released with ⟨large, _⟩ | ⟨ended, few⟩
  · exact large
  by_cases release : e.keycode < nrKeys ∧ e.down = false
  · have same := congrArg UInt8.toNat (congrFun counters 0)
    rw [(typed_shift_release _ release.1 release.2).2,
      (typed_shift_release _ release.1 release.2).2,
      counted_release, counted_release, two] at same
    have one : (2 : UInt8).toNat = 2 := rfl
    omega
  · rw [typed_shift_idle release, typed_shift_idle release, composing, ended] at npadch
    exact absurd npadch (by decide)

/-- A call without an event reads `kc` and `down` uninitialized. -/
theorem not_batching_nil : ¬ BatchingLaw [] := by
  intro law
  have agree := law (plainKeymap kShift) (fun _ => []) [] (fun _ => le_rfl)
    (bareSession ⟨fun _ => false, fun _ => 0, 0, 0, 0, false, false, false, -1⟩)
  cases agree

/-- Batching does not matter exactly for the lists in which every event before the last one
belongs to a key outside the keymap. -/
theorem batching_law_iff {es : List Event} (encodes : ∀ e ∈ es, Encodes e) :
    BatchingLaw es ↔ es ≠ [] ∧ ∀ e ∈ es.dropLast, nrKeys ≤ e.keycode := by
  rcases List.eq_nil_or_concat es with empty | ⟨before, e, rfl⟩
  · subst empty
    exact iff_of_false not_batching_nil fun both => both.1 rfl
  · rw [List.concat_eq_append] at encodes ⊢
    rw [List.dropLast_concat]
    exact ⟨fun law => ⟨by simp, law.large encodes⟩, fun both => batching_of_large encodes both.2⟩

instance (e : Event) : Decidable (Encodes e) := inferInstanceAs (Decidable (_ ∧ _))

/-- A media key outside the keymap, then a letter. -/
theorem batching_law_media : BatchingLaw [⟨582, true⟩, ⟨30, true⟩] :=
  (batching_law_iff (by decide)).mpr ⟨by decide, by decide⟩

/-- Key 30 is the letter a. -/
def letterKeymap : Kernel where
  keymap _ := some fun keycode => if keycode = 30 then ⟨ktLetter, 97⟩ else kHole
  funcString _ := []
  metaBit := false

def focusedSession : Session where
  kb := ⟨fun _ => false, fun _ => 0, 0, 0, 0, false, false, false, -1⟩
  focus := true
  attached := true
  imf := some 0
  imfs := [0]
  currentImf := 0
  calls := []

/-- A letter pressed and released within one call is lost; the input method returns the
letter. -/
theorem batched_letter_lost :
    (∀ e ∈ [⟨30, true⟩, ⟨30, false⟩], Encodes e) ∧ Roomy (fun _ => [97]) [0] ∧
      (batch letterKeymap (fun _ => [97]) [0] focusedSession [⟨30, true⟩, ⟨30, false⟩]).map
        (fun r => (r.1.calls, r.2)) = .ok ([], []) ∧
      (sequential letterKeymap (fun _ => [97]) [0] focusedSession
        [⟨30, true⟩, ⟨30, false⟩]).map (fun r => (r.1.calls, r.2)) =
        .ok ([.processInput 0 [97]], [97]) :=
  ⟨by decide, fun _ => le_rfl, rfl, rfl⟩

end Ucimf.Raw
