import Ucimf.Raw.Batching
import Ucimf.Support.Run

/-!
# Text on its way to the input method

Calls with one event each, while the focus is on an input method. Every string of an event
should be handed over unless the event is a shortcut. A call leaves early on every release,
and with it goes the character that the release of a modifier completes on the keypad.
-/

namespace Ucimf.Raw

open Keyboard KeyType KeyState Transition

/-- The strings handed to `process_input`. -/
def handed (calls : List Call) : List (List UInt8) :=
  calls.filterMap fun
    | .processInput _ input => some input
    | _ => none

/-- The hard-wired shortcuts: Ctrl with the space bar or a Shift key, F9, and a Ctrl key by
itself. `kb` is the keyboard after the press. -/
def Shortcut (kb : KeyState) (e : Event) : Prop :=
  e.down = true ∧
    (0 < kb.shiftDown kgCtrl ∧
        (e.keycode = keySpace ∨ e.keycode = keyLeftshift ∨ e.keycode = keyRightshift) ∨
      e.keycode = keyF9 ∨ e.keycode = keyLeftctrl ∨ e.keycode = keyRightctrl)

instance (kb : KeyState) (e : Event) : Decidable (Shortcut kb e) :=
  inferInstanceAs (Decidable (_ ∧ _))

/-- The nonempty strings of the events that are not skipped. -/
def strings (skip : KeyState → Event → Prop) [∀ kb e, Decidable (skip kb e)] (k : Kernel) :
    KeyState → List Event → List (List UInt8)
  | _, [] => []
  | kb, e :: es =>
    let str := (translate k kb e.keycode e.down).1
    (if skip (typed k kb e) e ∨ str = [] then [] else [str]) ++ strings skip k (typed k kb e) es

/-- What should be handed over. -/
def expected (k : Kernel) : KeyState → List Event → List (List UInt8) := strings Shortcut k

/-- What is handed over. -/
def delivered (k : Kernel) : KeyState → List Event → List (List UInt8) :=
  strings (fun kb e => e.down = false ∨ Shortcut kb e) k

variable {k : Kernel} {answer : Answer} {spare : List UInt8} {s t : Session}

theorem handed_call (c : Call) : handed (s.call c).calls = handed s.calls ++ handed [c] :=
  List.filterMap_append

theorem calls_setFocus (focus : Bool) : (s.setFocus focus).calls = s.calls := by
  unfold Session.setFocus
  split <;> rfl

theorem handed_switchFocused {request : Nat → Call} (quiet : ∀ imf, handed [request imf] = []) :
    handed (s.switchFocused request).calls = handed s.calls := by
  unfold Session.switchFocused
  split
  · split
    · rw [handed_call, quiet, List.append_nil]
    · rw [calls_setFocus]
  · rw [calls_setFocus]

theorem handed_refreshImf : handed s.refreshImf.calls = handed s.calls := by
  unfold Session.refreshImf
  split
  · rw [handed_call]
    exact List.append_nil _
  · rfl

theorem calls_nextImf : s.nextImf.calls = s.calls := by
  unfold Session.nextImf
  split <;> rfl

theorem handed_dispatch {imf : Nat} (focus : s.focus = true) (current : s.imf = some imf)
    (str : List UInt8) (e : Event) :
    handed (dispatch answer s str e.keycode e.down).1.calls = handed s.calls ++
      if (e.down = false ∨ Shortcut s.kb e) ∨ str = [] then [] else [str] := by
  unfold dispatch
  dsimp only
  split
  · next release => rw [if_pos (.inl (.inl release)), List.append_nil]
  next press =>
  have pressed : e.down = true := by simpa using press
  split
  · next space =>
    rw [if_pos (.inl (.inr ⟨pressed, .inl ⟨space.2, .inl space.1⟩⟩)), List.append_nil]
  split
  · next left =>
    rw [if_pos (.inl (.inr ⟨pressed, .inl ⟨left.2, .inr (.inl left.1)⟩⟩)), List.append_nil,
      handed_switchFocused fun _ => rfl]
  split
  · next right =>
    rw [if_pos (.inl (.inr ⟨pressed, .inl ⟨right.2, .inr (.inr right.1)⟩⟩)), List.append_nil,
      handed_switchFocused fun _ => rfl]
  split
  · next f9 =>
    rw [if_pos (.inl (.inr ⟨pressed, .inr (.inl f9)⟩)), handed_refreshImf, calls_nextImf,
      handed_call]
    rfl
  split
  · next ctrl => rw [if_pos (.inl (.inr ⟨pressed, .inr (.inr ctrl)⟩)), List.append_nil]
  next space left right f9 ctrl =>
  have plain : ¬ Shortcut s.kb e := by
    rintro ⟨_, ⟨held, key | key | key⟩ | key⟩
    · exact space ⟨key, held⟩
    · exact left ⟨key, held⟩
    · exact right ⟨key, held⟩
    · exact key.elim f9 ctrl
  by_cases empty : str = []
  · rw [if_pos (.inr empty), empty, deliver_nil, List.append_nil]
  · rw [if_neg (not_or.mpr ⟨not_or.mpr ⟨press, plain⟩, empty⟩), Session.deliver, current]
    simp only [focus, empty, or_false, if_false, Bool.true_eq_false]
    exact handed_call _

def reacted (k : Kernel) (answer : Answer) (s : Session) (e : Event) : Session :=
  (dispatch answer { s with kb := typed k s.kb e } (translate k s.kb e.keycode e.down).1
    e.keycode e.down).1

@[simp] theorem kb_reacted (e : Event) : (reacted k answer s e).kb = typed k s.kb e :=
  kb_dispatch _ _ _

/-- On a focused input method a call hands over the string of every press but a shortcut. -/
theorem handed_reacted {e : Event} (focus : s.focus = true) (present : s.imf.isSome = true) :
    handed (reacted k answer s e).calls = handed s.calls ++
      if (e.down = false ∨ Shortcut (typed k s.kb e) e) ∨
          (translate k s.kb e.keycode e.down).1 = [] then []
        else [(translate k s.kb e.keycode e.down).1] := by
  obtain ⟨imf, current⟩ := Option.isSome_iff_exists.mp present
  exact handed_dispatch (s := { s with kb := typed k s.kb e }) focus current _ e

/-- The sessions of a run of calls, without what the calls write back. -/
def react (k : Kernel) (answer : Answer) (s : Session) (es : List Event) :
    Except Fault Session :=
  es.foldlM (fun s e => (processKey k answer s e.keycode e.down).map Prod.fst) s

/-- Before every call the focus is on and there is an input method. -/
def Attended (k : Kernel) (answer : Answer) : Session → List Event → Prop :=
  Along (reacted k answer) fun s _ => s.focus = true ∧ s.imf.isSome = true

def Fits (k : Kernel) (kb : KeyState) (e : Event) : Prop :=
  (translate k kb e.keycode e.down).1.length < 128

theorem react_cons {e : Event} {es : List Event} :
    react k answer s (e :: es) = .ok t ↔
      Fits k s.kb e ∧ react k answer (reacted k answer s e) es = .ok t := by
  rw [react, List.foldlM_cons, processKey]
  by_cases long : 128 ≤ (translate k s.kb e.keycode e.down).1.length
  · rw [if_pos long]
    apply iff_of_false
    · intro same
      cases same
    · intro both
      exact not_lt.mpr long both.1
  · rw [if_neg long]
    exact (and_iff_right (not_le.mp long)).symm

theorem react_ok_iff {es : List Event} :
    (∃ t, react k answer s es = .ok t) ↔ Along (typed k) (Fits k) s.kb es := by
  induction es generalizing s with
  | nil => exact iff_of_true ⟨s, rfl⟩ trivial
  | cons e es ih =>
    simp only [react_cons, exists_and_left, ih, kb_reacted]
    rfl

/-- In an attended run that returns, exactly the strings of the presses are handed over. -/
theorem handed_react {es : List Event} (attended : Attended k answer s es)
    (ran : react k answer s es = .ok t) :
    handed t.calls = handed s.calls ++ delivered k s.kb es := by
  induction es generalizing s with
  | nil =>
    cases ran
    exact (List.append_nil _).symm
  | cons e es ih =>
    obtain ⟨⟨focus, present⟩, rest⟩ := attended
    rw [ih rest (react_cons.mp ran).2, kb_reacted, handed_reacted focus present,
      List.append_assoc]
    rfl

/-- The focus is on, and with it an input method of the modules loaded. -/
structure Loaded (s : Session) : Prop where
  focus : s.focus = true
  present : s.imf.isSome = true
  loaded : s.imfs ≠ []

theorem Loaded.call (h : Loaded s) (c : Call) : Loaded (s.call c) :=
  ⟨h.focus, h.present, h.loaded⟩

theorem Loaded.switchFocused (h : Loaded s) (request : Nat → Call) :
    Loaded (s.switchFocused request) := by
  obtain ⟨imf, current⟩ := Option.isSome_iff_exists.mp h.present
  rw [Session.switchFocused, current]
  simp only [h.focus, if_true]
  exact h.call _

theorem Loaded.refreshImf (h : Loaded s) : Loaded s.refreshImf := by
  unfold Session.refreshImf
  split
  · exact h.call _
  · exact h

theorem Loaded.nextImf (h : Loaded s) : Loaded s.nextImf := by
  have positive := List.length_pos_iff.mpr h.loaded
  have bound : (if s.imfs.length ≤ s.currentImf + 1 then 0 else s.currentImf + 1) <
      s.imfs.length := by
    split <;> omega
  rw [Session.nextImf, if_neg h.loaded]
  refine ⟨h.focus, ?_, h.loaded⟩
  dsimp only
  rw [List.getElem?_eq_getElem bound]
  rfl

theorem Loaded.deliver (h : Loaded s) (str : List UInt8) : Loaded (s.deliver answer str).1 := by
  unfold Session.deliver
  repeat' split
  all_goals first
    | exact h
    | exact h.call _

theorem Loaded.reacted (h : Loaded s) (e : Event) : Loaded (reacted k answer s e) := by
  have typed : Loaded { s with kb := typed k s.kb e } := ⟨h.focus, h.present, h.loaded⟩
  unfold Raw.reacted dispatch
  dsimp only
  repeat' split
  all_goals first
    | exact typed
    | exact typed.switchFocused _
    | exact (typed.call _).nextImf.refreshImf
    | exact typed.deliver _

theorem Loaded.attended (h : Loaded s) (es : List Event) : Attended k answer s es := by
  induction es generalizing s with
  | nil => trivial
  | cons e es ih => exact ⟨⟨h.focus, h.present⟩, ih (h.reacted e)⟩

/-! ## Buffers -/

theorem next_eq_ok {e : Event} (bound : e.keycode ≤ 16383) {r r' : Session × List UInt8}
    (called : next k answer spare r e = .ok r') :
    Fits k r.1.kb e ∧ r'.1 = reacted k answer r.1 e := by
  obtain ⟨r'', returned, done⟩ := Outcome.bind_eq_ok.mp called
  obtain ⟨reply, handled⟩ := call_inv (decode_one bound) returned
  cases done
  rw [processKey] at handled
  split at handled
  · cases handled
  · next short => exact ⟨not_le.mp short, (congrArg Prod.fst (Except.ok.inj handled)).symm⟩

theorem next_of_fits (answer : Answer) {e : Event} (bound : e.keycode ≤ 16383)
    (fits : Fits k s.kb e) :
    ∃ n, ∀ spare : List UInt8, n ≤ spare.length →
      ∀ out, ∃ out', next k answer spare (s, out) e = .ok (reacted k answer s e, out') := by
  obtain ⟨reply, handled⟩ : ∃ reply, processKey k answer s e.keycode e.down =
      .ok (reacted k answer s e, reply) := ⟨_, if_neg (not_le.mpr fits)⟩
  refine ⟨reply.output.length, fun spare room out => ⟨out ++ reply.output, ?_⟩⟩
  rw [next, call_of_fits (decode_one bound) handled (by rw [List.length_append]; omega)]
  rfl

/-- A run on some buffers is a run of sessions. -/
theorem react_of_sequential {es : List Event} (bound : ∀ e ∈ es, e.keycode ≤ 16383)
    {r r' : Session × List UInt8} (ran : es.foldlM (next k answer spare) r = .ok r') :
    react k answer r.1 es = .ok r'.1 := by
  induction es generalizing r with
  | nil =>
    cases ran
    rfl
  | cons e es ih =>
    rw [List.foldlM_cons] at ran
    obtain ⟨r'', called, rest⟩ := Outcome.bind_eq_ok.mp ran
    obtain ⟨fits, same⟩ := next_eq_ok (bound e List.mem_cons_self) called
    rw [react_cons, ← same]
    exact ⟨fits, ih (fun e' member => bound e' (.tail _ member)) rest⟩

/-- A run of sessions can be had on all buffers that are large enough. -/
theorem sequential_of_react {es : List Event} (bound : ∀ e ∈ es, e.keycode ≤ 16383)
    (ran : react k answer s es = .ok t) : ∃ n, ∀ spare : List UInt8, n ≤ spare.length →
      ∀ out, ∃ out', es.foldlM (next k answer spare) (s, out) = .ok (t, out') := by
  induction es generalizing s with
  | nil =>
    cases ran
    exact ⟨0, fun spare _ out => ⟨out, rfl⟩⟩
  | cons e es ih =>
    obtain ⟨fits, rest⟩ := react_cons.mp ran
    obtain ⟨first, one⟩ := next_of_fits answer (bound e List.mem_cons_self) fits
    obtain ⟨others, all⟩ := ih (fun e' member => bound e' (.tail _ member)) rest
    refine ⟨max first others, fun spare room out => ?_⟩
    obtain ⟨out', called⟩ := one spare (by omega) out
    obtain ⟨out'', ran⟩ := all spare (by omega) out'
    exact ⟨out'', by rw [List.foldlM_cons, called]; exact ran⟩

/-! ## Lost strings -/

/-- The event is not lost: no modifier is released while the keypad holds a number that is
written as a text, and the text of a function key fits `char str[128]`. -/
def Delivers (k : Kernel) (kb : KeyState) (e : Event) : Prop :=
  (e.down = false → (entry k kb e.keycode).type = ktShift →
    kb.npadch = -1 ∨ ¬ Encodable kb.npadch.toNat) ∧
  (e.down = true → (kb.keypadKeysymRedirect (entry k kb e.keycode)).type = ktFn →
    (cString (k.funcString (kb.keypadKeysymRedirect (entry k kb e.keycode)).val)).length < 128)

theorem fits_iff {kb : KeyState} {e : Event} : Fits k kb e ↔
    (e.down = true → (kb.keypadKeysymRedirect (entry k kb e.keycode)).type = ktFn →
      (cString (k.funcString (kb.keypadKeysymRedirect (entry k kb e.keycode)).val)).length
        < 128) := by
  rw [Fits, translate, length_keysymToTermString, keycodeToKeysym_entry,
    keypadKeysymRedirect_keycodeToKeysym]

/-- A release has a string only when a modifier completes a character. -/
theorem translate_release_eq_nil {kb : KeyState} {keycode : Nat} :
    (translate k kb keycode false).1 = [] ↔ ((entry k kb keycode).type = ktShift →
      kb.npadch = -1 ∨ ¬ Encodable kb.npadch.toNat) := by
  rw [translate, keycodeToKeysym_entry]
  by_cases shift : (entry k kb keycode).type = ktShift
  · rw [keysymToTermString_shift shift, npadch_keycodeToKeysym]
    by_cases idle : kb.npadch = -1
    · simp [idle]
    · simp only [idle, if_false, cString_toUtf8_eq_nil, shift, false_or, true_implies]
  · rw [keysymToTermString_release shift]
    exact iff_of_true rfl fun found => absurd found shift

theorem delivers_iff {kb : KeyState} {e : Event} : Delivers k kb e ↔
    (e.down = false → (translate k kb e.keycode e.down).1 = []) ∧ Fits k kb e := by
  rw [fits_iff]
  refine and_congr_left fun _ => forall_congr' fun release => ?_
  rw [release, translate_release_eq_nil]

theorem length_delivered_le (kb : KeyState) (es : List Event) :
    (delivered k kb es).length ≤ (expected k kb es).length := by
  induction es generalizing kb with
  | nil => exact le_rfl
  | cons e es ih =>
    simp only [delivered, expected, strings, List.length_append]
    refine Nat.add_le_add ?_ (ih _)
    split
    · exact Nat.zero_le _
    · next handed =>
      rw [if_neg fun skipped => handed (skipped.imp_left .inr)]

/-- Nothing is lost exactly when no release has a string. -/
theorem delivered_eq_expected_iff {kb : KeyState} {es : List Event} :
    delivered k kb es = expected k kb es ↔
      Along (typed k) (fun kb e => e.down = false → (translate k kb e.keycode e.down).1 = [])
        kb es := by
  induction es generalizing kb with
  | nil => exact iff_of_true rfl trivial
  | cons e es ih =>
    simp only [Along, ← ih]
    by_cases lost : e.down = false ∧ (translate k kb e.keycode e.down).1 ≠ []
    · -- The string is expected, and what follows cannot make up for it.
      refine iff_of_false (fun same => ?_) fun both => lost.2 (both.1 lost.1)
      have plain : ¬ (Shortcut (typed k kb e) e ∨ (translate k kb e.keycode e.down).1 = []) := by
        rintro (shortcut | empty)
        · exact Bool.false_ne_true (lost.1.symm.trans shortcut.1)
        · exact lost.2 empty
      have nothing : delivered k kb (e :: es) = delivered k (typed k kb e) es := by
        rw [delivered, strings, if_pos (.inl (.inl lost.1))]
        rfl
      have one : expected k kb (e :: es) =
          (translate k kb e.keycode e.down).1 :: expected k (typed k kb e) es := by
        rw [expected, strings, if_neg plain]
        rfl
      rw [nothing, one] at same
      have lengths := congrArg List.length same
      have rest := length_delivered_le (k := k) (typed k kb e) es
      rw [List.length_cons] at lengths
      omega
    · have kept : e.down = false → (translate k kb e.keycode e.down).1 = [] := fun release =>
        by_contra fun nonempty => lost ⟨release, nonempty⟩
      have part : ((e.down = false ∨ Shortcut (typed k kb e) e) ∨
            (translate k kb e.keycode e.down).1 = []) ↔
          (Shortcut (typed k kb e) e ∨ (translate k kb e.keycode e.down).1 = []) := by
        rw [or_assoc]
        exact or_iff_right_of_imp fun release => .inr (kept release)
      rw [and_iff_right kept, delivered, expected, strings, strings]
      simp only [part]
      exact List.append_right_inj _

/-- In an attended run of calls with one event each, on buffers that are large enough, the
strings handed over are those expected exactly when every event of the run is delivered. -/
theorem delivery_iff {es : List Event} (bound : ∀ e ∈ es, e.keycode ≤ 16383)
    (attended : Attended k answer s es) :
    (∃ spare r, sequential k answer spare s es = .ok r ∧
        handed r.1.calls = handed s.calls ++ expected k s.kb es) ↔
      Along (typed k) (Delivers k) s.kb es := by
  have both : Along (typed k) (Delivers k) s.kb es ↔
      delivered k s.kb es = expected k s.kb es ∧ Along (typed k) (Fits k) s.kb es := by
    rw [delivered_eq_expected_iff, ← along_and]
    simp only [← delivers_iff]
  have returns : (∃ t, react k answer s es = .ok t) ↔ Along (typed k) (Fits k) s.kb es :=
    react_ok_iff
  rw [both, ← returns]
  constructor
  · rintro ⟨spare, r, ran, same⟩
    have reacted := react_of_sequential bound ran
    rw [handed_react attended reacted, List.append_right_inj] at same
    exact ⟨same, r.1, reacted⟩
  · rintro ⟨same, t, reacted⟩
    obtain ⟨n, buffers⟩ := sequential_of_react bound reacted
    obtain ⟨out, ran⟩ := buffers (List.replicate n 0) (by rw [List.length_replicate]) []
    refine ⟨_, _, ran, ?_⟩
    rw [handed_react attended reacted, same]

theorem focusedSession_loaded : Loaded focusedSession := ⟨rfl, rfl, by decide⟩

instance (k : Kernel) (kb : KeyState) (e : Event) : Decidable (Delivers k kb e) :=
  inferInstanceAs (Decidable ((_ → _ → _ ∨ ¬ _) ∧ (_ → _ → _)))

theorem delivery_letter : ∃ spare r,
    sequential letterKeymap (fun _ => [97]) spare focusedSession
        [⟨30, true⟩, ⟨30, true⟩, ⟨30, false⟩] = .ok r ∧
      handed r.1.calls = handed focusedSession.calls ++
        expected letterKeymap focusedSession.kb [⟨30, true⟩, ⟨30, true⟩, ⟨30, false⟩] :=
  (delivery_iff (by decide) (focusedSession_loaded.attended _)).mpr (by decide)

/-- Key 56 is Alt, and keys 77 and 76 are digits of the keypad composition. -/
def composeKeymap : Kernel where
  keymap _ := some fun keycode =>
    if keycode = 56 then ⟨ktShift, 3⟩
    else if keycode = 77 then ⟨ktAscii, 6⟩
    else if keycode = 76 then ⟨ktAscii, 5⟩
    else kHole
  funcString _ := []
  metaBit := false

/-- 65 is typed on the keypad while Alt is down. -/
def altSixFive : List Event :=
  [⟨56, true⟩, ⟨77, true⟩, ⟨77, false⟩, ⟨76, true⟩, ⟨76, false⟩, ⟨56, false⟩]

/-- The release of Alt completes an A, which is not handed over. -/
theorem composed_letter_lost :
    Attended composeKeymap (fun _ => []) focusedSession altSixFive ∧
      (sequential composeKeymap (fun _ => []) [] focusedSession altSixFive).map
        (fun r => handed r.1.calls) = .ok [] ∧
      expected composeKeymap focusedSession.kb altSixFive = [[65]] :=
  ⟨focusedSession_loaded.attended _, by decide, by decide⟩

end Ucimf.Raw
