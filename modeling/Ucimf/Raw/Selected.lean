import Ucimf.Raw.Batching
import Ucimf.Raw.ScanImf
import Ucimf.Support.Round

/-!
# The selected input method

F9 goes round the input methods. Whatever reaches the library between, as raw keys, as the
bytes of a terminal or as a switch of FbTerm, every call that is made goes to the input
method that the presses of F9 have selected.
-/

namespace Ucimf.Raw

open Round Transition

/-- `ucimf_process_stdin`: `mem` is the memory from `buf` on, `n` the value of `*p_ret`. What
is not processed stays in the buffer. -/
def ucimfProcessStdin (answer : Answer) (s : Session) (mem : List UInt8) (n : Nat) :
    Except Fault (Session × List UInt8 × Nat) :=
  if mem.length < n then .error .overrun
  else
    match s.imf with
    | none => .ok (s, mem, n)
    | some imf =>
      if s.focus = false ∨ n = 0 then .ok (s, mem, n)
      else do
        let s := s.call (.processInput imf (mem.take n))
        let (mem, n) ← writeBack mem n (.text (answer s.calls))
        .ok (s, mem, n)

/-- A call of the library; the buffers are those of the caller. -/
inductive Input
  | raw (answer : Answer) (mem : List UInt8) (n : Nat)
  | stdin (answer : Answer) (mem : List UInt8) (n : Nat)
  | switch (buf : List UInt8)

/-- What a call of the library does to the session. -/
def Session.Takes (k : Keyboard.Kernel) (s : Session) : Input → Session → Prop
  | .raw answer mem n, t => ∃ mem' n', ucimfProcessRaw k answer s mem n = .ok (t, mem', n')
  | .stdin answer mem n, t => ∃ mem' n', ucimfProcessStdin answer s mem n = .ok (t, mem', n')
  | .switch buf, t => (s.ucimfSwitch buf).1 = t

/-- The input method that a call goes to. -/
def Call.target : Call → Option Nat
  | .processInput imf _ => some imf
  | .switchIm imf => some imf
  | .switchImReverse imf => some imf
  | .refresh imf => some imf
  | .clear => none

/-- The last event of the keys is a press of F9. -/
def Input.PressesF9 : Input → Prop
  | .raw _ mem n => decode (mem.take n) none = some (keyF9, true)
  | .stdin _ _ _ => False
  | .switch _ => False

instance : DecidablePred Input.PressesF9
  | .raw _ mem n => inferInstanceAs (Decidable (decode (mem.take n) none = some (keyF9, true)))
  | .stdin _ _ _ => inferInstanceAs (Decidable False)
  | .switch _ => inferInstanceAs (Decidable False)

/-- The place of the input method that is selected by the presses of F9 among the inputs. -/
def selected (n : Nat) (inputs : List Input) : Nat := place n (inputs.countP Input.PressesF9)

/-- The session holds the input method at a place, the one that F9 has reached. -/
structure Session.Selects (list : List Nat) (presses : Nat) (s : Session) : Prop where
  used : 0 < list.length
  imfs : s.imfs = list
  current : s.currentImf = place list.length presses
  imf : s.imf = list[place list.length presses]?

/-- The session goes on to `t`: the windows are cleared so many times, and the calls go to the
input method that is selected then. -/
structure Session.Calls (list : List Nat) (presses clears : Nat) (s t : Session) : Prop where
  selects : t.Selects list presses
  made : ∃ calls, t.calls = s.calls ++ calls ∧ calls.count .clear = clears ∧
    ∀ c ∈ calls, ∀ imf, c.target = some imf → list[place list.length presses]? = some imf

namespace Session

variable {list : List Nat} {presses a b : Nat} {s t u : Session}

theorem Calls.trans (first : Calls list presses a s t) (rest : Calls list presses b t u) :
    Calls list presses (a + b) s u where
  selects := rest.selects
  made := by
    obtain ⟨calls, logged, cleared, aimed⟩ := first.made
    obtain ⟨more, logged', cleared', aimed'⟩ := rest.made
    refine ⟨calls ++ more, ?_, ?_, List.forall_mem_append.mpr ⟨aimed, aimed'⟩⟩
    · rw [logged', logged, List.append_assoc]
    · rw [List.count_append, cleared, cleared']

/-- Nothing but the keyboard and the focus has changed. -/
theorem Selects.of_same (h : s.Selects list presses) (imfs : t.imfs = s.imfs)
    (current : t.currentImf = s.currentImf) (imf : t.imf = s.imf) (calls : t.calls = s.calls) :
    Calls list presses 0 s t where
  selects :=
    { used := h.used
      imfs := imfs.trans h.imfs
      current := current.trans h.current
      imf := imf.trans h.imf }
  made := ⟨[], by rw [calls, List.append_nil], rfl, nofun⟩

theorem Selects.same (h : s.Selects list presses) : Calls list presses 0 s s :=
  h.of_same rfl rfl rfl rfl

theorem Selects.setFocus (h : s.Selects list presses) (focus : Bool) :
    Calls list presses 0 s (s.setFocus focus) := by
  unfold Session.setFocus
  split
  · exact h.of_same rfl rfl rfl rfl
  · exact h.same

/-- A call of the input method that is held. -/
theorem Selects.call (h : s.Selects list presses) {imf : Nat} (held : s.imf = some imf) {c : Call}
    (aimed : c.target = some imf) : Calls list presses 0 s (s.call c) where
  selects := ⟨h.used, h.imfs, h.current, h.imf⟩
  made := by
    refine ⟨[c], rfl, ?_, ?_⟩
    · rw [List.count_singleton, if_neg]
      intro clears
      rw [eq_of_beq clears] at aimed
      cases aimed
    · intro c' member imf' same
      rw [List.mem_singleton.mp member] at same
      obtain rfl := Option.some.inj (aimed.symm.trans same)
      exact h.imf.symm.trans held

theorem Selects.refreshImf (h : s.Selects list presses) :
    Calls list presses 0 s s.refreshImf := by
  unfold Session.refreshImf
  split
  · next imf held => exact h.call held rfl
  · exact h.same

theorem Selects.switchFocused (h : s.Selects list presses) {request : Nat → Call}
    (aimed : ∀ imf, (request imf).target = some imf) :
    Calls list presses 0 s (s.switchFocused request) := by
  unfold Session.switchFocused
  split
  · next imf held =>
    split
    · exact h.call held (aimed imf)
    · exact h.setFocus true
  · exact h.setFocus true

/-- F9 clears the windows and goes on to the next input method. -/
theorem Selects.next (h : s.Selects list presses) :
    Calls list (presses + 1) 1 s (s.call .clear).nextImf := by
  have turned : forward list.length s.currentImf = place list.length (presses + 1 : Nat) := by
    rw [h.current, forward_place h.used]
    rfl
  have nonempty : ¬ (s.call .clear).imfs = [] := by
    intro empty
    exact absurd h.used (by rw [← h.imfs, show s.imfs = [] from empty]; decide)
  have next : (s.call .clear).nextImf =
      { s.call .clear with
        currentImf := forward list.length s.currentImf
        imf := list[forward list.length s.currentImf]? } := by
    unfold Session.nextImf
    rw [if_neg nonempty]
    unfold forward
    rw [← h.imfs]
    rfl
  rw [next, turned]
  refine ⟨⟨h.used, h.imfs, rfl, rfl⟩, [.clear], rfl, rfl, ?_⟩
  intro c member imf aimed
  rw [List.mem_singleton.mp member] at aimed
  cases aimed

theorem Selects.deliver (h : s.Selects list presses) (answer : Answer) (input : List UInt8) :
    Calls list presses 0 s (s.deliver answer input).1 := by
  unfold Session.deliver
  split
  · next imf held =>
    split
    · exact h.same
    · exact h.call held rfl
  · exact h.same

/-- F9 clears the windows once, and no other key does. -/
theorem Selects.dispatch (h : s.Selects list presses) (answer : Answer) (str : List UInt8)
    (kc : Nat) (down : Bool) {clears : Nat}
    (counted : clears = if kc = keyF9 ∧ down = true then 1 else 0) :
    Calls list (presses + clears) clears s (dispatch answer s str kc down).1 := by
  have other {t : Session} (shortcut : ¬ (kc = keyF9 ∧ down = true))
      (calls : Calls list presses 0 s t) : Calls list (presses + clears) clears s t := by
    rw [counted, if_neg shortcut]
    exact calls
  unfold Raw.dispatch
  dsimp only
  split
  · next up => exact other (fun f9 => absurd (up.symm.trans f9.2) (by decide)) h.same
  split
  · next space => exact other (fun f9 => absurd (space.1.symm.trans f9.1) (by decide)) h.same
  split
  · next shift =>
    exact other (fun f9 => absurd (shift.1.symm.trans f9.1) (by decide))
      (h.switchFocused fun _ => rfl)
  split
  · next shift =>
    exact other (fun f9 => absurd (shift.1.symm.trans f9.1) (by decide))
      (h.switchFocused fun _ => rfl)
  split
  · next press _ _ _ f9 =>
    rw [counted, if_pos ⟨f9, eq_true_of_ne_false press⟩]
    exact h.next.trans h.next.selects.refreshImf
  · next f9 =>
    have quiet : ¬ (kc = keyF9 ∧ down = true) := fun both => f9 both.1
    split
    · exact other quiet h.same
    · exact other quiet (h.deliver answer str)

theorem Selects.raw {k : Keyboard.Kernel} (h : s.Selects list presses) {answer : Answer}
    {mem mem' : List UInt8} {n n' : Nat}
    (returned : ucimfProcessRaw k answer s mem n = .ok (t, mem', n')) :
    Calls list (presses + if decode (mem.take n) none = some (keyF9, true) then 1 else 0)
      (if decode (mem.take n) none = some (keyF9, true) then 1 else 0) s t := by
  unfold ucimfProcessRaw at returned
  split at returned
  · cases returned
  · obtain ⟨⟨after, reply⟩, replied, rest⟩ := Outcome.bind_eq_ok.mp returned
    obtain ⟨written, -, same⟩ := Outcome.bind_eq_ok.mp rest
    cases same
    unfold rawReply at replied
    split at replied
    · cases replied
    · next kc down decoded =>
      unfold processKey at replied
      dsimp only at replied
      split at replied
      · cases replied
      · have same : _ = t := congrArg Prod.fst (Except.ok.inj replied)
        have pressed : (some (kc, down) = some (keyF9, true)) = (kc = keyF9 ∧ down = true) := by
          rw [Option.some.injEq, Prod.mk.injEq]
        have typed := h.of_same (t := { s with kb := (translate k s.kb kc down).2 })
          rfl rfl rfl rfl
        have counted : (if decode (mem.take n) none = some (keyF9, true) then 1 else 0) =
            if kc = keyF9 ∧ down = true then 1 else 0 := by
          simp only [decoded, pressed]
        have done := typed.selects.dispatch answer (translate k s.kb kc down).1 kc down counted
        rw [← same]
        exact ⟨done.selects, done.made⟩

theorem Selects.stdin (h : s.Selects list presses) {answer : Answer} {mem mem' : List UInt8}
    {n n' : Nat} (returned : ucimfProcessStdin answer s mem n = .ok (t, mem', n')) :
    Calls list presses 0 s t := by
  unfold ucimfProcessStdin at returned
  split at returned
  · cases returned
  · split at returned
    · cases returned
      exact h.same
    · next imf held =>
      split at returned
      · cases returned
        exact h.same
      · obtain ⟨written, -, same⟩ := Outcome.bind_eq_ok.mp returned
        cases same
        exact h.call held rfl

theorem Selects.switch (h : s.Selects list presses) (buf : List UInt8) :
    Calls list presses 0 s (s.ucimfSwitch buf).1 := by
  unfold Session.ucimfSwitch
  split
  · exact (h.setFocus _).trans (h.setFocus _).selects.refreshImf
  · split
    · exact h.switchFocused fun _ => rfl
    · exact h.same
  · split
    · exact h.switchFocused fun _ => rfl
    · exact h.same
  · exact h.same

/-- One call of the library: a press of F9 clears the windows once, and every call goes to the
input method that is selected when the input has been counted. -/
theorem Takes.calls {k : Keyboard.Kernel} {input : Input} (taken : s.Takes k input t)
    (h : s.Selects list presses) :
    Calls list (presses + if input.PressesF9 then 1 else 0) (if input.PressesF9 then 1 else 0)
      s t := by
  cases input with
  | raw answer mem n =>
    obtain ⟨mem', n', returned⟩ := taken
    exact h.raw returned
  | stdin answer mem n =>
    obtain ⟨mem', n', returned⟩ := taken
    exact h.stdin returned
  | switch buf => exact taken ▸ h.switch buf

theorem selects_ucimfInit {dir : Option (List DirEntry)} (started : s.ucimfInit dir = .ok t) :
    t.Selects t.imfs 0 := by
  unfold ucimfInit at started
  dsimp only at started
  obtain ⟨scan, -, rest⟩ := Outcome.bind_eq_ok.mp started
  split at rest
  · next imf first =>
    cases rest
    exact
      { used := (List.getElem?_eq_some_iff.mp first).1
        imfs := rfl
        current := place_zero.symm
        imf := first.symm }
  · cases rest

theorem selects_run {k : Keyboard.Kernel} {inputs : List Input} (h : s.Selects list 0)
    (run : Run (Takes k) s inputs t) : t.Selects list (inputs.countP Input.PressesF9) := by
  induction run with
  | nil => exact h
  | @snoc inputs input t u _ taken ih =>
    have done := (taken.calls ih).selects
    rw [List.countP_append, List.countP_singleton]
    simpa only [decide_eq_true_eq] using done

/-- From the start of the program on, whatever keys, bytes and switches come, F9 goes round the
input methods that were loaded: each press clears the windows once, and every call that an input
leads to goes to the input method selected by the presses up to then. -/
theorem addressed_run {k : Keyboard.Kernel} {dir : Option (List DirEntry)} {start : Session}
    (started : s.ucimfInit dir = .ok start) {inputs : List Input}
    (run : Run (Takes k) start inputs t) {input : Input} (taken : t.Takes k input u) :
    u.imf = start.imfs[selected start.imfs.length (inputs ++ [input])]? ∧
      ∃ calls, u.calls = t.calls ++ calls ∧
        calls.count .clear = (if input.PressesF9 then 1 else 0) ∧
        ∀ c ∈ calls, ∀ imf, c.target = some imf →
          start.imfs[selected start.imfs.length (inputs ++ [input])]? = some imf := by
  have presses : (inputs ++ [input]).countP Input.PressesF9 =
      inputs.countP Input.PressesF9 + if input.PressesF9 then 1 else 0 := by
    rw [List.countP_append, List.countP_singleton]
    simp only [decide_eq_true_eq]
  have done := taken.calls (selects_run (selects_ucimfInit started) run)
  rw [selected, presses]
  exact ⟨done.selects.imf, done.made⟩

theorem takes_switch {k : Keyboard.Kernel} (buf : List UInt8) :
    s.Takes k (.switch buf) (s.ucimfSwitch buf).1 := rfl

theorem takes_raw {k : Keyboard.Kernel} (answer : Answer) (mem : List UInt8) (n : Nat)
    {mem' : List UInt8} {n' : Nat}
    (returned : ucimfProcessRaw k answer s mem n = .ok (t, mem', n')) :
    s.Takes k (.raw answer mem n) t := ⟨mem', n', returned⟩

/-- Two libraries with an input method each. -/
def twoModules : Option (List DirEntry) :=
  some [⟨"chewing.so", some ⟨some (some 5), true⟩⟩, ⟨"openvanilla.so", some ⟨some (some 8), true⟩⟩]

/-- The focus is turned on and F9 is pressed. -/
def focusNext : List Input :=
  [.switch [27, 91, 50, 52, 126], .raw (fun _ => []) [67] 1]

/-- A letter is typed. -/
def typeLetter : Input := .raw (fun _ => [97]) [30] 1

/-- What `ucimf_init` makes of them. -/
def twoStarted : Session :=
  { focusedSession with focus := false, imf := some 5, imfs := [5, 8], currentImf := 0 }

/-- The letter goes to the second input method. -/
theorem addressed_run_focusNext : ∃ t u,
    focusedSession.ucimfInit twoModules = .ok twoStarted ∧
      Run (Takes letterKeymap) twoStarted focusNext t ∧ t.Takes letterKeymap typeLetter u ∧
      (u.imf = twoStarted.imfs[selected twoStarted.imfs.length (focusNext ++ [typeLetter])]? ∧
      ∃ calls, u.calls = t.calls ++ calls ∧
        calls.count .clear = (if typeLetter.PressesF9 then 1 else 0) ∧
        ∀ c ∈ calls, ∀ imf, c.target = some imf →
          twoStarted.imfs[selected twoStarted.imfs.length (focusNext ++ [typeLetter])]? =
            some imf) ∧
      u.imf = some 8 := by
  have started : focusedSession.ucimfInit twoModules = .ok twoStarted := rfl
  have start : Run (Takes letterKeymap) twoStarted [] twoStarted := .nil
  have run := (start.snoc (takes_switch [27, 91, 50, 52, 126])).snoc
    (takes_raw (fun _ => []) [67] 1 rfl)
  exact ⟨_, _, started, run, takes_raw (fun _ => [97]) [30] 1 rfl,
    addressed_run started run (takes_raw (fun _ => [97]) [30] 1 rfl), rfl⟩

end Session

end Ucimf.Raw
