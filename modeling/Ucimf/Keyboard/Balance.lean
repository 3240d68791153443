import Ucimf.Keyboard.Held

/-!
# Stuck modifiers and wrongly reported ones

Two runs of key events over a keymap in which a key has the same modifier in every table.
Without all 256 tables a release may be looked up in a missing table and its modifier stays;
with all of them a release of a key that was never pressed takes away the count of another
key of its modifier.
-/

namespace Ucimf.Keyboard

open KeyType KeyState Transition

def lastEvent (es : List Event) (keycode : Nat) : Option Event :=
  es.reverse.find? fun e => decide (e.keycode = keycode)

/-- Each release is of a key pressed before. -/
def PressedFirst (es : List Event) : Prop :=
  ∀ i : Fin es.length, (es.get i).down = false → ⟨(es.get i).keycode, true⟩ ∈ es.take i

/-- The last event of every key is a release. -/
def Released (es : List Event) : Prop :=
  ∀ e ∈ es, ∀ last ∈ lastEvent es e.keycode, last.down = false

instance (es : List Event) : Decidable (PressedFirst es) :=
  inferInstanceAs (Decidable (∀ _, _ → _))

instance (es : List Event) : Decidable (Released es) :=
  inferInstanceAs (Decidable (∀ e ∈ es, ∀ last ∈ lastEvent es e.keycode, _))

theorem lastEvent_snoc (es : List Event) (e : Event) (keycode : Nat) :
    lastEvent (es ++ [e]) keycode =
      if e.keycode = keycode then some e else lastEvent es keycode := by
  rw [lastEvent, List.reverse_append, List.reverse_singleton, List.singleton_append,
    List.find?_cons, lastEvent]
  by_cases same : e.keycode = keycode <;> simp [same]

theorem of_lastEvent {es : List Event} {keycode : Nat} {e : Event}
    (last : lastEvent es keycode = some e) : e ∈ es ∧ e.keycode = keycode := by
  rw [lastEvent] at last
  exact ⟨List.mem_reverse.mp (List.mem_of_find?_eq_some last), by
    simpa using List.find?_some last⟩

/-- A run of events, each of which meets a condition on the state before it. -/
abbrev Events (k : Kernel) (guard : KeyState → Event → Prop) (s : KeyState) :
    List Event → KeyState → Prop :=
  Run (fun s e t => guard s e ∧ t = s.after k e) s.initKeycodeState

/-- After a run the keys that are down are those whose last event was a press. -/
theorem Events.keyDown {k : Kernel} {guard : KeyState → Event → Prop} {s t : KeyState}
    {es : List Event} (run : Events k guard s es t) {keycode : Nat} (small : keycode < nrKeys)
    (down : t.keyDown keycode = true) : ∃ e, lastEvent es keycode = some e ∧ e.down = true := by
  induction run with
  | nil => exact absurd down Bool.false_ne_true
  | @snoc es e s t earlier taken ih =>
    rw [lastEvent_snoc]
    rw [taken.2] at down
    by_cases same : e.keycode = keycode
    · subst same
      rw [keyDown_after small, Function.update_self] at down
      exact ⟨e, if_pos rfl, down⟩
    · rw [if_neg same]
      apply ih
      rcases le_or_gt nrKeys e.keycode with large | inside
      · rw [after_large large] at down
        exact down
      · rw [keyDown_after inside, Function.update_of_ne (Ne.symm same)] at down
        exact down

theorem Events.held_released {k : Kernel} {guard : KeyState → Event → Prop} {s t : KeyState}
    {es : List Event} (run : Events k guard s es t) (released : Released es) (v : Nat) :
    t.held k v = ∅ := by
  apply Finset.eq_empty_of_forall_notMem
  intro keycode member
  obtain ⟨found, down⟩ := mem_held.mp member
  obtain ⟨e, last, pressed⟩ := run.keyDown (modifier_small found) down
  obtain ⟨member, same⟩ := of_lastEvent last
  exact Bool.false_ne_true ((released e member e (same ▸ last)).symm.trans pressed)

theorem Events.masked {k : Kernel} {guard : KeyState → Event → Prop} {s t : KeyState}
    {es : List Event} (run : Events k guard s es t) : t.Masked :=
  run.invariant Masked
    (by rintro _ e _ masked ⟨_, rfl⟩; exact masked_after k masked e) (masked_init s)

/-! ## Stuck modifiers -/

/-- A key that is down is released while the table of `shift_state` is allocated, or while
the counter of its modifier is below the number of its keys that are down. -/
def Recognised (k : Kernel) (s : KeyState) (e : Event) : Prop :=
  e.down = false → s.keyDown e.keycode = true →
    s.Mapped k ∨ ∀ v ∈ k.modifier e.keycode, (s.shiftDown v).toNat < (s.held k v).card

/-- The counter of a modifier never exceeds the number of its keys that are down. -/
theorem counter_le_held {k : Kernel} (uniform : k.Uniform) {s : KeyState} {v : Nat}
    (bounded : (s.shiftDown v).toNat ≤ (s.held k v).card) {e : Event}
    (recognised : Recognised k s e) :
    ((s.after k e).shiftDown v).toNat ≤ ((s.after k e).held k v).card := by
  by_cases found : k.modifier e.keycode = some v
  · cases press : e.down with
    | true =>
      rw [card_held_press press found]
      cases down : s.keyDown e.keycode with
      | true =>
        rw [counter_still uniform fun _ counts => by simp [Counted, press, down] at counts]
        exact bounded
      | false =>
        rw [if_neg Bool.false_ne_true]
        by_cases counts : s.Counted k e
        · rw [counter_counted uniform found counts, press]
          exact (counted_press_le _).trans (Nat.succ_le_succ bounded)
        · rw [counter_still uniform fun _ => counts]
          exact bounded.trans (Nat.le_succ _)
    | false =>
      rw [card_held_release press found]
      by_cases counts : s.Counted k e
      · rw [counter_counted uniform found counts, press, counted_release]
        split
        · exact Nat.sub_le_sub_right bounded 1
        · exact (Nat.sub_le _ _).trans bounded
      · rw [counter_still uniform fun _ => counts]
        split
        · next down =>
          rcases recognised press down with mapped | fewer
          · exact absurd ⟨mapped, by rw [press]; rfl⟩ counts
          · exact Nat.le_sub_one_of_lt (fewer v found)
        · exact bounded
  · rw [held_other found, counter_still uniform fun same => absurd same found]
    exact bounded

theorem Events.counter_le {k : Kernel} (uniform : k.Uniform) {s t : KeyState} {es : List Event}
    (run : Events k (Recognised k) s es t) (v : Nat) :
    (t.shiftDown v).toNat ≤ (t.held k v).card := by
  refine run.invariant (fun s => (s.shiftDown v).toNat ≤ (s.held k v).card) ?_ (Nat.zero_le _)
  rintro s e _ bounded ⟨recognised, rfl⟩
  exact counter_le_held uniform bounded recognised

/-- When every release of a key that is down is recognised, no modifier stays behind once
every key has been released. -/
theorem no_stuck_modifier {k : Kernel} (uniform : k.Uniform) {s t : KeyState} {es : List Event}
    (run : Events k (Recognised k) s es t) (released : Released es) :
    (∀ v, t.shiftDown v = 0) ∧ t.shiftState = 0 := by
  have zero : ∀ v, t.shiftDown v = 0 := by
    intro v
    have bound := run.counter_le uniform v
    rw [run.held_released released v, Finset.card_empty, Nat.le_zero] at bound
    exact UInt8.toNat_inj.mp bound
  refine ⟨zero, BitVec.eq_of_getLsbD_eq fun v small => ?_⟩
  have clear : ¬ t.shiftState.getLsbD v = true := fun set =>
    (run.masked v small).mp set (zero v)
  simpa using clear

/-- Left Ctrl, left Shift and right Ctrl, the same in every table. -/
def modifierKeys : Table := fun keycode =>
  if keycode = 29 ∨ keycode = 97 then ⟨ktShift, 2⟩
  else if keycode = 42 then ⟨ktShift, 0⟩
  else kHole

/-- A keymap without a table for Shift and Ctrl together. -/
def sparseKeymap : Kernel where
  keymap table := if table = 0 ∨ table = 1 ∨ table = 4 then some modifierKeys else none
  funcString _ := []
  metaBit := false

theorem sparseKeymap_uniform : sparseKeymap.Uniform where
  base := rfl
  same t t' m m' found found' keycode := by
    simp only [sparseKeymap, Option.ite_none_right_eq_some, Option.some.injEq] at found found'
    rw [← found.2, ← found'.2]

/-- The keyboard before `init_keycode_state`. -/
def idleKeyboard : KeyState where
  keyDown _ := false
  shiftDown _ := 0
  shiftState := 0
  lockState := 0
  led := 0
  crWithLf := false
  applicKeypad := false
  cursorEsco := false
  npadch := -1

instance (k : Kernel) (s : KeyState) (e : Event) : Decidable (Recognised k s e) :=
  inferInstanceAs (Decidable (_ → _ → _ ∨ ∀ v ∈ k.modifier e.keycode, _))

def shiftThenCtrl : List Event :=
  [⟨42, true⟩, ⟨42, true⟩, ⟨42, false⟩, ⟨29, true⟩, ⟨29, false⟩]

theorem shiftThenCtrl_run :
    Events sparseKeymap (Recognised sparseKeymap) idleKeyboard shiftThenCtrl
      (shiftThenCtrl.foldl (after sparseKeymap) idleKeyboard.initKeycodeState) :=
  .snoc (.snoc (.snoc (.snoc (.snoc .nil ⟨by decide, rfl⟩) ⟨by decide, rfl⟩) ⟨by decide, rfl⟩)
    ⟨by decide, rfl⟩) ⟨by decide, rfl⟩

theorem no_stuck_modifier_apart :
    (∀ v, (shiftThenCtrl.foldl (after sparseKeymap) idleKeyboard.initKeycodeState).shiftDown v
      = 0) ∧
    (shiftThenCtrl.foldl (after sparseKeymap) idleKeyboard.initKeycodeState).shiftState = 0 :=
  no_stuck_modifier sparseKeymap_uniform shiftThenCtrl_run (by decide)

def ctrlUnderShift : List Event := [⟨42, true⟩, ⟨29, true⟩, ⟨29, false⟩, ⟨42, false⟩]

/-- No table belongs to Shift and Ctrl together, and both stay behind. -/
theorem ctrl_under_shift_stuck :
    sparseKeymap.Uniform ∧ PressedFirst ctrlUnderShift ∧ Released ctrlUnderShift ∧
      (ctrlUnderShift.foldl (after sparseKeymap) idleKeyboard.initKeycodeState).shiftDown 0 = 1 ∧
      (ctrlUnderShift.foldl (after sparseKeymap) idleKeyboard.initKeycodeState).shiftState = 5 :=
  ⟨sparseKeymap_uniform, by decide, by decide, by decide, by decide⟩

/-! ## Reported modifiers -/

/-- A key of a modifier that is not down is pressed only while fewer than 255 keys of the
modifier are down, and released only while none is. -/
def Balanced (k : Kernel) (s : KeyState) (e : Event) : Prop :=
  s.keyDown e.keycode = false → ∀ v ∈ k.modifier e.keycode,
    if e.down then (s.held k v).card < 255 else s.held k v = ∅

/-- The counter of a modifier is the number of its keys that are down. -/
theorem counter_eq_held {k : Kernel} (uniform : k.Uniform)
    (full : ∀ t, (k.keymap t).isSome = true) {s : KeyState} {v : Nat}
    (agree : (s.shiftDown v).toNat = (s.held k v).card) {e : Event} (balanced : Balanced k s e) :
    ((s.after k e).shiftDown v).toNat = ((s.after k e).held k v).card := by
  have mapped : s.Mapped k := full _
  by_cases found : k.modifier e.keycode = some v
  · cases press : e.down with
    | true =>
      rw [card_held_press press found]
      cases down : s.keyDown e.keycode with
      | true =>
        rw [counter_still uniform fun _ counts => by simp [Counted, press, down] at counts]
        exact agree
      | false =>
        have room := balanced down v found
        rw [if_pos press] at room
        rw [if_neg Bool.false_ne_true,
          counter_counted uniform found ⟨mapped, by rw [down, Bool.and_false]⟩, press,
          counted_press (agree ▸ room), agree]
    | false =>
      rw [card_held_release press found,
        counter_counted uniform found ⟨mapped, by rw [press]; rfl⟩, press, counted_release, agree]
      cases down : s.keyDown e.keycode with
      | true => rfl
      | false =>
        have none := balanced down v found
        rw [if_neg (by rw [press]; exact Bool.false_ne_true)] at none
        rw [none]
        rfl
  · rw [held_other found, counter_still uniform fun same => absurd same found]
    exact agree

theorem Events.counter_eq {k : Kernel} (uniform : k.Uniform)
    (full : ∀ t, (k.keymap t).isSome = true) {s t : KeyState} {es : List Event}
    (run : Events k (Balanced k) s es t) (v : Nat) :
    (t.shiftDown v).toNat = (t.held k v).card := by
  refine run.invariant (fun s => (s.shiftDown v).toNat = (s.held k v).card) ?_
    (by rw [held_init]; rfl)
  rintro s e _ agree ⟨balanced, rfl⟩
  exact counter_eq_held uniform full agree balanced

/-- Over a full keymap, in every state a balanced run reaches, a modifier is reported held
exactly when one of its keys is down. -/
theorem reported_iff_held {k : Kernel} (uniform : k.Uniform)
    (full : ∀ t, (k.keymap t).isSome = true) {s t : KeyState} {es : List Event}
    (run : Events k (Balanced k) s es t) (v : Nat) :
    t.shiftState.getLsbD v = true ↔
      ∃ keycode, k.modifier keycode = some v ∧ t.keyDown keycode = true := by
  have nonempty : (t.held k v).Nonempty ↔
      ∃ keycode, k.modifier keycode = some v ∧ t.keyDown keycode = true :=
    exists_congr fun _ => mem_held
  rw [← nonempty, ← Finset.card_pos, ← run.counter_eq uniform full v]
  rcases lt_or_ge v 16 with small | large
  · rw [run.masked v small]
    exact UInt8.pos_iff_ne_zero.symm
  · have empty : t.held k v = ∅ := by
      apply Finset.eq_empty_of_forall_notMem
      intro keycode member
      have bound := modifier_lt_eight (mem_held.mp member).1
      omega
    rw [run.counter_eq uniform full v, empty, BitVec.getLsbD_of_ge _ _ large]
    exact ⟨fun set => absurd set Bool.false_ne_true, fun some => absurd some (lt_irrefl 0)⟩

def fullKeymap : Kernel where
  keymap _ := some modifierKeys
  funcString _ := []
  metaBit := false

theorem fullKeymap_uniform : fullKeymap.Uniform where
  base := rfl
  same t t' m m' found found' keycode := by
    rw [← Option.some.inj found, ← Option.some.inj found']

instance (k : Kernel) (s : KeyState) (e : Event) : Decidable (Balanced k s e) :=
  inferInstanceAs (Decidable (_ → ∀ v ∈ k.modifier e.keycode, _))

def bothCtrls : List Event := [⟨29, true⟩, ⟨97, true⟩, ⟨29, false⟩]

theorem bothCtrls_run :
    Events fullKeymap (Balanced fullKeymap) idleKeyboard bothCtrls
      (bothCtrls.foldl (after fullKeymap) idleKeyboard.initKeycodeState) :=
  .snoc (.snoc (.snoc .nil ⟨by decide, rfl⟩) ⟨by decide, rfl⟩) ⟨by decide, rfl⟩

theorem reported_iff_held_ctrl :
    (bothCtrls.foldl (after fullKeymap) idleKeyboard.initKeycodeState).shiftState.getLsbD 2 = true ↔
      ∃ keycode, fullKeymap.modifier keycode = some 2 ∧
        (bothCtrls.foldl (after fullKeymap) idleKeyboard.initKeycodeState).keyDown keycode = true :=
  reported_iff_held fullKeymap_uniform (fun _ => rfl) bothCtrls_run 2

/-- The left Ctrl is down before `init_keycode_state` and released after the right one was
pressed: the mask is clear while the right one is down. -/
theorem earlier_ctrl_misreported :
    fullKeymap.Uniform ∧ (∀ t, (fullKeymap.keymap t).isSome = true) ∧
      fullKeymap.modifier 97 = some 2 ∧
      ([⟨97, true⟩, ⟨29, false⟩].foldl (after fullKeymap)
        idleKeyboard.initKeycodeState).keyDown 97 = true ∧
      ([⟨97, true⟩, ⟨29, false⟩].foldl (after fullKeymap)
        idleKeyboard.initKeycodeState).shiftState.getLsbD 2 = false :=
  ⟨fullKeymap_uniform, fun _ => rfl, by decide, by decide, by decide⟩

end Ucimf.Keyboard
