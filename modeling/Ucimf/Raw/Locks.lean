import Ucimf.Keyboard.Balance
import Ucimf.Raw.Selected
import Mathlib.Algebra.Group.Nat.Even

/-!
# The locks

The lock keys act when they are pressed anew, whatever table their keysym was looked up in.
So the history of the presses since `init_keycode_state`, with the keysym each of them gave,
tells the locks and the keyboard's lights.
-/

namespace Ucimf.Keyboard

open KeyType KeyState

def kCapsshift : Keysym := ⟨ktShift, 8⟩

/-- What a key does to the locks when it is pressed anew. -/
inductive LockAction
  | toggleNum
  | toggleCaps
  | capsOn
  | capsOff
  deriving DecidableEq, Repr

/-- `K_NUM` is an ordinary key of a keypad in application mode. -/
def Keysym.lockAction (applicKeypad : Bool) (sym : Keysym) : Option LockAction :=
  if sym = kNum then if applicKeypad then none else some .toggleNum
  else if sym = kBarenumlock then some .toggleNum
  else if sym = kCaps then some .toggleCaps
  else if sym = kCapson then some .capsOn
  else if sym = kCapsshift then some .capsOff
  else none

namespace LockAction

def apply (locks : BitVec 8) : LockAction → BitVec 8
  | toggleNum => locks ^^^ kNumlock
  | toggleCaps => locks ^^^ kCapslock
  | capsOn => locks ||| kCapslock
  | capsOff => locks &&& ~~~kCapslock

/-- What an action makes of the caps lock. -/
def caps (on : Bool) : LockAction → Bool
  | toggleNum => on
  | toggleCaps => !on
  | capsOn => true
  | capsOff => false

theorem numlock_apply : ∀ (action : LockAction) (locks : BitVec 8),
    action.apply locks &&& kNumlock ≠ 0 ↔
      ((action = toggleNum) ↔ ¬ locks &&& kNumlock ≠ 0) := by
  rintro (_ | _ | _ | _) <;> decide

theorem capslock_apply : ∀ (action : LockAction) (locks : BitVec 8),
    decide (action.apply locks &&& kCapslock ≠ 0) =
      caps (decide (locks &&& kCapslock ≠ 0)) action := by
  rintro (_ | _ | _ | _) <;> decide

theorem other_apply : ∀ (action : LockAction) (locks : BitVec 8),
    action.apply locks &&& ~~~(kNumlock ||| kCapslock) =
      locks &&& ~~~(kNumlock ||| kCapslock) := by
  rintro (_ | _ | _ | _) <;> decide

variable (actions : List LockAction) (locks : BitVec 8)

/-- Num lock is turned over by its key and by nothing else. -/
theorem numlock_foldl : actions.foldl apply locks &&& kNumlock ≠ 0 ↔
    (locks &&& kNumlock ≠ 0 ↔ Even (actions.count toggleNum)) := by
  induction actions generalizing locks with
  | nil => exact (iff_true_right Even.zero).symm
  | cons action actions ih =>
    rw [List.foldl_cons, ih, numlock_apply, List.count_cons]
    by_cases toggles : action = toggleNum
    · simp only [toggles, beq_self_eq_true, if_true, Nat.even_add_one, true_iff]
      tauto
    · rw [if_neg (by simpa using toggles), Nat.add_zero]
      simp [toggles]

theorem capslock_foldl : decide (actions.foldl apply locks &&& kCapslock ≠ 0) =
    actions.foldl caps (decide (locks &&& kCapslock ≠ 0)) := by
  induction actions generalizing locks with
  | nil => rfl
  | cons action actions ih => rw [List.foldl_cons, ih, capslock_apply, List.foldl_cons]

theorem other_foldl : actions.foldl apply locks &&& ~~~(kNumlock ||| kCapslock) =
    locks &&& ~~~(kNumlock ||| kCapslock) := by
  induction actions generalizing locks with
  | nil => rfl
  | cons action actions ih => rw [List.foldl_cons, ih, other_apply]

end LockAction

/-- A press of a key whose last event was no press. -/
def Fresh (past : List Event) (e : Event) : Prop :=
  e.down = true ∧ ∀ last ∈ lastEvent past e.keycode, last.down = false

instance (past : List Event) (e : Event) : Decidable (Fresh past e) :=
  inferInstanceAs (Decidable (_ ∧ ∀ last ∈ lastEvent past e.keycode, _))

namespace KeyState

variable {k : Kernel} {s : KeyState}

/-- What a keysym makes of the locks. -/
def locksBy (s : KeyState) (sym : Keysym) : BitVec 8 :=
  (sym.lockAction s.applicKeypad).elim s.lockState (LockAction.apply s.lockState)

theorem val_eq {sym sym' : Keysym} (same : sym.type = sym'.type) :
    sym.val = sym'.val ↔ sym = sym' := by
  rw [Keysym.mk.injEq, and_iff_right same]

theorem lockState_lockKey {sym : Keysym} (spec : sym.type = ktSpec) (down rep : Bool) :
    (s.lockKey sym down rep).lockState =
      if down = true ∧ rep = false then s.locksBy sym else s.lockState := by
  have other : sym ≠ kCapsshift := by
    rintro rfl
    cases spec
  have nums := @val_eq sym kNum spec
  have bare := @val_eq sym kBarenumlock spec
  have caps := @val_eq sym kCaps spec
  simp only [lockKey, locksBy, Keysym.lockAction, nums, bare, caps, other, if_false]
  by_cases fresh : down = true ∧ rep = false
  · simp only [fresh, and_self, and_true, if_true]
    by_cases num : sym = kNum
    · subst num
      cases applic : s.applicKeypad <;>
        simp [applic, setLock, LockAction.apply, kNum, kBarenumlock, kCaps, kCapson]
    by_cases bare : sym = kBarenumlock
    · simp [bare, setLock, LockAction.apply, kNum, kBarenumlock]
    by_cases caps : sym = kCaps
    · simp [caps, setLock, LockAction.apply, kNum, kBarenumlock, kCaps]
    by_cases on : sym = kCapson
    · simp [on, setLock, LockAction.apply, kNum, kBarenumlock, kCaps, kCapson]
    · simp [num, bare, caps, on]
  · rw [if_neg fresh, if_neg fun both => fresh both.2]

theorem lockState_shiftKey {sym : Keysym} (shift : sym.type = ktShift) (down rep : Bool) :
    (s.shiftKey sym.val.toNat down rep).lockState =
      if down = true ∧ rep = false then s.locksBy sym else s.lockState := by
  have other : ∀ x : Keysym, x.type = ktSpec → sym ≠ x := by
    rintro _ special rfl
    rw [shift] at special
    cases special
  have acts : s.locksBy sym =
      if sym = kCapsshift then s.lockState &&& ~~~kCapslock else s.lockState := by
    rw [locksBy, Keysym.lockAction, if_neg (other _ rfl), if_neg (other _ rfl),
      if_neg (other _ rfl), if_neg (other _ rfl)]
    split <;> rfl
  have capsshift : sym.val.toNat = kgCapsshift ↔ sym = kCapsshift := by
    rw [← val_eq shift]
    exact @UInt8.toNat_inj sym.val 8
  have clear : ∀ locks : BitVec 8, ¬ locks &&& kCapslock ≠ 0 → locks &&& ~~~kCapslock = locks := by
    decide
  rw [acts]
  unfold shiftKey
  by_cases ends : sym = kCapsshift
  · rw [if_pos ends, if_pos (capsshift.mpr ends), capsshift.mpr ends]
    cases rep with
    | true => simp
    | false =>
      cases down with
      | false => simp [nrShift, kgCapsshift, setShift]
      | true =>
        by_cases on : s.capsLock
        · simp [nrShift, kgCapsshift, setShift, setLock, on]
        · simp [nrShift, kgCapsshift, setShift, on, clear _ on]
  · rw [if_neg ends, if_neg (mt capsshift.mp ends), ite_self]
    split <;> rfl

theorem locksBy_plain {sym : Keysym} (spec : sym.type ≠ ktSpec) (shift : sym.type ≠ ktShift) :
    s.locksBy sym = s.lockState := by
  have other : ∀ x : Keysym, x.type = ktSpec ∨ x.type = ktShift → sym ≠ x := by
    rintro _ (special | modifier) rfl
    · exact spec special
    · exact shift modifier
  rw [locksBy, Keysym.lockAction, if_neg (other _ (.inl rfl)), if_neg (other _ (.inl rfl)),
    if_neg (other _ (.inl rfl)), if_neg (other _ (.inl rfl)), if_neg (other _ (.inr rfl))]
  rfl

/-- A key acts on the locks when it was up and is pressed. -/
theorem lockState_keycodeToKeysym (keycode : Nat) (down : Bool) :
    (keycodeToKeysym k s keycode down).2.lockState =
      if down = true ∧ s.keyDown keycode = false then
        s.locksBy (keycodeToKeysym k s keycode down).1
      else s.lockState := by
  have fresh : down = true ∧ (down && s.keyDown keycode) = false ↔
      down = true ∧ s.keyDown keycode = false := by
    cases down <;> simp
  have hole : (if down = true ∧ s.keyDown keycode = false then s.locksBy kHole
      else s.lockState) = s.lockState := ite_self _
  unfold keycodeToKeysym
  dsimp only
  split
  · exact hole.symm
  split
  · exact hole.symm
  split
  · next special => exact (lockState_lockKey special down _).trans (if_congr fresh rfl rfl)
  · next modifier => exact (lockState_shiftKey modifier down _).trans (if_congr fresh rfl rfl)
  · next spec shift =>
    rw [locksBy_plain spec shift]
    exact (ite_self _).symm

/-- The lights show the locks, and the keypad's mode is the given one. -/
structure Lit (applicKeypad : Bool) (s : KeyState) : Prop where
  led : s.led = s.lockState
  applic : s.applicKeypad = applicKeypad

variable {applicKeypad : Bool}

theorem Lit.lockKey (lit : Lit applicKeypad s) (sym : Keysym) (down rep : Bool) :
    Lit applicKeypad (s.lockKey sym down rep) := by
  rcases s.lockKey_cases sym down rep with same | ⟨locks, moved⟩
  · rw [same]
    exact lit
  · rw [moved]
    exact ⟨rfl, lit.applic⟩

theorem Lit.shiftKey (lit : Lit applicKeypad s) (value : Nat) (down rep : Bool) :
    Lit applicKeypad (s.shiftKey value down rep) := by
  unfold KeyState.shiftKey
  dsimp only
  split
  · exact lit
  split
  · split
    · exact ⟨rfl, lit.applic⟩
    · exact ⟨lit.led, lit.applic⟩
  · exact ⟨lit.led, lit.applic⟩

theorem Lit.keycodeToKeysym (lit : Lit applicKeypad s) (keycode : Nat) (down : Bool) :
    Lit applicKeypad (keycodeToKeysym k s keycode down).2 := by
  have marked : Lit applicKeypad { s with keyDown := Function.update s.keyDown keycode down } :=
    ⟨lit.led, lit.applic⟩
  unfold KeyState.keycodeToKeysym
  dsimp only
  split
  · exact lit
  split
  · exact marked
  split
  · exact marked.lockKey _ _ _
  · exact marked.shiftKey _ _ _
  · exact marked

end KeyState

end Ucimf.Keyboard

namespace Ucimf.Raw

open Keyboard KeyState Transition

variable {k : Kernel}

/-! ### Events -/

/-- The keysyms of the fresh presses, each as it was looked up. -/
def pressed (k : Kernel) : KeyState → List Event → List Event → List Keysym
  | _, _, [] => []
  | kb, past, e :: es =>
    (if Fresh past e then [(kb.keycodeToKeysym k e.keycode e.down).1] else []) ++
      pressed k (typed k kb e) (past ++ [e]) es

/-- What the keys did to the locks since `init_keycode_state`. -/
def lockActions (k : Kernel) (kb : KeyState) (es : List Event) : List LockAction :=
  (pressed k kb.initKeycodeState [] es).filterMap (Keysym.lockAction kb.applicKeypad)

theorem pressed_snoc (kb : KeyState) (past es : List Event) (e : Event) :
    pressed k kb past (es ++ [e]) = pressed k kb past es ++
      if Fresh (past ++ es) e then
        [((es.foldl (typed k) kb).keycodeToKeysym k e.keycode e.down).1]
      else [] := by
  induction es generalizing kb past with
  | nil =>
    rw [List.append_nil]
    exact List.append_nil _
  | cons e' es ih =>
    rw [List.cons_append, pressed, pressed, ih, List.append_assoc, List.append_assoc]
    rfl

/-- The string of an event is made without touching the locks and the down flags. -/
theorem typed_eq (kb : KeyState) (e : Event) : typed k kb e =
    { (kb.keycodeToKeysym k e.keycode e.down).2 with npadch := (typed k kb e).npadch } := by
  unfold typed translate keysymToTermString
  dsimp only
  split <;> rfl

/-- The keyboard after the events since `init_keycode_state`. -/
structure Follows (k : Kernel) (kb : KeyState) (es : List Event) (t : KeyState) : Prop where
  lit : Lit kb.applicKeypad t
  down : ∀ keycode < nrKeys, t.keyDown keycode = false ↔
    ∀ last ∈ lastEvent es keycode, last.down = false
  locks : t.lockState = (lockActions k kb es).foldl LockAction.apply kb.led

theorem follows_init (kb : KeyState) : Follows k kb [] kb.initKeycodeState where
  lit := ⟨rfl, rfl⟩
  down _ _ := ⟨fun _ _ last => absurd last (by simp [lastEvent]), fun _ => rfl⟩
  locks := rfl

/-- A key is up exactly when its last event was no press. -/
theorem Follows.keyUp {kb t : KeyState} {es : List Event} (h : Follows k kb es t) (e : Event)
    {keycode : Nat} (small : keycode < nrKeys) : (t.after k e).keyDown keycode = false ↔
      ∀ last ∈ lastEvent (es ++ [e]) keycode, last.down = false := by
  rw [lastEvent_snoc]
  by_cases same : e.keycode = keycode
  · subst same
    rw [if_pos rfl, keyDown_after small, Function.update_self]
    exact ⟨fun up last found => Option.mem_some.mp found ▸ up, fun all => all e rfl⟩
  · rw [if_neg same]
    rcases le_or_gt nrKeys e.keycode with large | inside
    · rw [after_large large, h.down keycode small]
    · rw [keyDown_after inside, Function.update_of_ne (Ne.symm same), h.down keycode small]

/-- The locks move by the keysym of a fresh press. -/
theorem Follows.locksBy {kb t : KeyState} {es : List Event} (h : Follows k kb es t) (e : Event) :
    (t.after k e).lockState =
      if Fresh es e then t.locksBy (t.keycodeToKeysym k e.keycode e.down).1
      else t.lockState := by
  rw [after, lockState_keycodeToKeysym]
  rcases le_or_gt nrKeys e.keycode with large | small
  · have none : t.locksBy (t.keycodeToKeysym k e.keycode e.down).1 = t.lockState := by
      rw [keycodeToKeysym_large large]
      rfl
    rw [none, ite_self, ite_self]
  · exact if_congr (and_congr_right fun _ => h.down _ small) rfl rfl

theorem Follows.typed {kb t : KeyState} {es : List Event} (h : Follows k kb es t)
    (reached : t = es.foldl (typed k) kb.initKeycodeState) (e : Event) :
    Follows k kb (es ++ [e]) (typed k t e) := by
  have lit := h.lit.keycodeToKeysym (k := k) e.keycode e.down
  rw [typed_eq]
  refine ⟨⟨lit.led, lit.applic⟩, fun keycode small => h.keyUp e small, ?_⟩
  refine (h.locksBy e).trans ?_
  rw [lockActions, pressed_snoc, List.nil_append, ← reached, List.filterMap_append,
    List.foldl_append, ← lockActions, ← h.locks]
  by_cases fresh : Fresh es e
  · rw [if_pos fresh, if_pos fresh, KeyState.locksBy, h.lit.applic]
    cases acts : (t.keycodeToKeysym k e.keycode e.down).1.lockAction kb.applicKeypad with
    | none => simp [acts]
    | some action => simp [acts]
  · rw [if_neg fresh, if_neg fresh]
    rfl

/-- After `init_keycode_state` the keyboard follows the events, whatever they are. -/
theorem follows_run (kb : KeyState) (es : List Event) :
    Follows k kb es (es.foldl (Raw.typed k) kb.initKeycodeState) := by
  induction es using List.reverseRecOn with
  | nil => exact follows_init kb
  | append_singleton es e ih =>
    rw [List.foldl_append]
    exact ih.typed rfl e

/-! ### Calls of the library -/

/-- The key event that a call sees: the last of its buffer. -/
def Input.event : Input → Option Event
  | .raw _ mem n => (decode (mem.take n) none).map fun last => ⟨last.1, last.2⟩
  | .stdin _ _ _ => none
  | .switch _ => none

theorem kb_ucimfSwitch (s : Session) (buf : List UInt8) : (s.ucimfSwitch buf).1.kb = s.kb := by
  unfold Session.ucimfSwitch
  repeat' split
  all_goals simp

theorem kb_ucimfProcessRaw {answer : Answer} {s t : Session} {mem mem' : List UInt8} {n n' : Nat}
    (returned : ucimfProcessRaw k answer s mem n = .ok (t, mem', n')) :
    ∃ last, decode (mem.take n) none = some last ∧ t.kb = typed k s.kb ⟨last.1, last.2⟩ := by
  unfold ucimfProcessRaw at returned
  split at returned
  · cases returned
  · obtain ⟨⟨after, reply⟩, replied, rest⟩ := Outcome.bind_eq_ok.mp returned
    obtain ⟨written, -, same⟩ := Outcome.bind_eq_ok.mp rest
    cases same
    unfold rawReply at replied
    split at replied
    · cases replied
    · next kc down decoded =>
      refine ⟨(kc, down), decoded, ?_⟩
      unfold processKey at replied
      dsimp only at replied
      split at replied
      · cases replied
      · have same : _ = t := congrArg Prod.fst (Except.ok.inj replied)
        rw [← same, kb_dispatch]
        rfl

theorem kb_ucimfProcessStdin {answer : Answer} {s t : Session} {mem mem' : List UInt8}
    {n n' : Nat} (returned : ucimfProcessStdin answer s mem n = .ok (t, mem', n')) :
    t.kb = s.kb := by
  unfold ucimfProcessStdin at returned
  split at returned
  · cases returned
  split at returned
  · cases returned
    rfl
  split at returned
  · cases returned
    rfl
  · obtain ⟨written, -, same⟩ := Outcome.bind_eq_ok.mp returned
    cases same
    rfl

/-- The keyboard takes the event of each call and nothing else. -/
theorem Session.Takes.kb {s t : Session} {input : Input} (taken : s.Takes k input t) :
    t.kb = input.event.toList.foldl (typed k) s.kb := by
  cases input with
  | raw answer mem n =>
    obtain ⟨mem', n', returned⟩ := taken
    obtain ⟨last, decoded, kb⟩ := kb_ucimfProcessRaw returned
    rw [kb, Input.event, decoded]
    rfl
  | stdin answer mem n =>
    obtain ⟨mem', n', returned⟩ := taken
    exact kb_ucimfProcessStdin returned
  | switch buf => exact taken ▸ kb_ucimfSwitch s buf

theorem kb_run {s t : Session} {inputs : List Input} (run : Run (Session.Takes k) s inputs t) :
    t.kb = (inputs.filterMap Input.event).foldl (typed k) s.kb := by
  induction run with
  | nil => rfl
  | @snoc inputs input s' t _ taken ih =>
    rw [taken.kb, ih, List.filterMap_append, List.foldl_append]
    cases found : input.event <;> simp [found]

/-- The locks are those that were read at the start and what the actions made of them. -/
structure Locked (started : BitVec 8) (actions : List LockAction) (kb : KeyState) : Prop where
  lights : kb.led = kb.lockState
  num : kb.numLock ↔ (started &&& kNumlock ≠ 0 ↔ Even (actions.count .toggleNum))
  caps : decide kb.capsLock = actions.foldl LockAction.caps (decide (started &&& kCapslock ≠ 0))
  other : kb.lockState &&& ~~~(kNumlock ||| kCapslock) = started &&& ~~~(kNumlock ||| kCapslock)

theorem Follows.locked {kb t : KeyState} {es : List Event} (h : Follows k kb es t) :
    Locked kb.led (lockActions k kb es) t where
  lights := h.lit.led
  num := by
    rw [numLock, h.locks]
    exact LockAction.numlock_foldl _ _
  caps := by
    have caps := LockAction.capslock_foldl (lockActions k kb es) kb.led
    rw [← h.locks] at caps
    exact caps
  other := by
    rw [h.locks]
    exact LockAction.other_foldl _ _

/-- From `init_keycode_state` on, whatever the library is called with, the lights show the
locks. Num lock was turned over by each fresh press of its key, and caps lock turned over,
taken or released by the fresh presses of its own. -/
theorem locks_run {kb : KeyState} {s t : Session} (begun : s.kb = kb.initKeycodeState)
    {inputs : List Input} (run : Run (Session.Takes k) s inputs t) :
    Locked kb.led (lockActions k kb (inputs.filterMap Input.event)) t.kb := by
  apply Follows.locked
  rw [kb_run run, begun]
  exact follows_run kb _

/-- Num Lock on key 69 and Caps Lock on key 58. -/
def lockKeymap : Kernel where
  keymap _ := some fun keycode =>
    if keycode = 69 then kNum else if keycode = 58 then kCaps else kHole
  funcString _ := []
  metaBit := false

/-- Num Lock repeats while it is held, the focus is turned off, and Caps Lock is pressed. -/
def numHeld : List Input :=
  [.raw (fun _ => []) [69] 1, .raw (fun _ => []) [69] 1, .switch [27, 91, 50, 52, 126],
    .raw (fun _ => []) [58] 1]

theorem locks_run_numHeld : ∃ t,
    focusedSession.kb = focusedSession.kb.initKeycodeState ∧
      Run (Session.Takes lockKeymap) focusedSession numHeld t ∧
      lockActions lockKeymap focusedSession.kb (numHeld.filterMap Input.event) =
        [.toggleNum, .toggleCaps] ∧
      Locked focusedSession.kb.led
        (lockActions lockKeymap focusedSession.kb (numHeld.filterMap Input.event)) t.kb := by
  have start : Run (Session.Takes lockKeymap) focusedSession [] focusedSession := .nil
  have run := (((start.snoc (Session.takes_raw (fun _ => []) [69] 1 rfl)).snoc
    (Session.takes_raw (fun _ => []) [69] 1 rfl)).snoc
    (Session.takes_switch [27, 91, 50, 52, 126])).snoc
    (Session.takes_raw (fun _ => []) [58] 1 rfl)
  exact ⟨_, rfl, run, by decide, locks_run rfl run⟩

end Ucimf.Raw
