import Ucimf.FbTerm.Reads

/-!
# Activation and the focus

`Active` and `Deactive` are both answered by a synthetic F12, which toggles the focus. The
focus follows the activation nevertheless: keys are looked at while the server is active
only, and then the shortcuts can do no more than turn the focus on.

This holds of the messages received as long as the reads are harmless. A text written over a
`Deactive` that waits behind its key leaves the focus on.
-/

namespace Ucimf.Raw

open Keyboard

/-- The focus was not lost. -/
structure Session.Stays (s s' : Session) : Prop where
  attached : s'.attached = s.attached
  focus : s.focus = true → s'.focus = true

namespace Session

theorem Stays.refl (s : Session) : s.Stays s := ⟨rfl, id⟩

theorem Stays.trans {s s' s'' : Session} (h : s.Stays s') (h' : s'.Stays s'') : s.Stays s'' :=
  ⟨h'.attached.trans h.attached, h'.focus ∘ h.focus⟩

theorem stays_call (s : Session) (c : Call) : s.Stays (s.call c) := ⟨rfl, id⟩

theorem stays_kb (s : Session) (kb : KeyState) : s.Stays { s with kb := kb } := ⟨rfl, id⟩

theorem stays_setFocus (s : Session) : s.Stays (s.setFocus true) := by
  unfold setFocus
  split
  · exact ⟨rfl, fun _ => rfl⟩
  · exact .refl s

theorem stays_refreshImf (s : Session) : s.Stays s.refreshImf := by
  unfold refreshImf
  split
  · exact s.stays_call _
  · exact .refl s

theorem stays_nextImf (s : Session) : s.Stays s.nextImf := by
  unfold nextImf
  split <;> exact ⟨rfl, id⟩

theorem stays_switchFocused (s : Session) (request : Nat → Call) :
    s.Stays (s.switchFocused request) := by
  unfold switchFocused
  split
  · split
    · exact s.stays_call _
    · exact s.stays_setFocus
  · exact s.stays_setFocus

theorem stays_deliver (answer : Answer) (s : Session) (input : List UInt8) :
    s.Stays (s.deliver answer input).1 := by
  unfold deliver
  split
  · split
    · exact .refl s
    · exact s.stays_call _
  · exact .refl s

end Session

/-- No shortcut and no key takes the focus away. -/
theorem stays_dispatch (answer : Answer) (s : Session) (str : List UInt8) (kc : Nat)
    (down : Bool) : s.Stays (dispatch answer s str kc down).1 := by
  unfold dispatch
  dsimp only
  repeat' split
  · exact .refl s
  · exact .refl s
  · exact s.stays_switchFocused _
  · exact s.stays_switchFocused _
  · exact ((s.stays_call _).trans (Session.stays_nextImf _)).trans (Session.stays_refreshImf _)
  · exact .refl s
  · exact s.stays_deliver answer str

theorem stays_rawReply {k : Kernel} {answer : Answer} {s s' : Session} {bytes : List UInt8}
    {reply : Reply} (replied : rawReply k answer s bytes = .ok (s', reply)) : s.Stays s' := by
  unfold rawReply at replied
  split at replied
  · cases replied
  · next kc down _ =>
    unfold processKey at replied
    dsimp only at replied
    split at replied
    · cases replied
    · have same : _ = s' := congrArg Prod.fst (Except.ok.inj replied)
      rw [← same]
      exact (s.stays_kb _).trans (stays_dispatch ..)

/-- With a window attached, F12 turns the focus round. -/
theorem Session.ucimfSwitch_f12 (s : Session) (windows : s.attached = true) :
    (s.ucimfSwitch FbTerm.f12).1.attached = true ∧
      (s.ucimfSwitch FbTerm.f12).1.focus = !s.focus := by
  have turned : s.setFocus (!s.focus) = { s with focus := !s.focus } :=
    if_pos ⟨by cases s.focus <;> decide, windows⟩
  have called : (s.ucimfSwitch FbTerm.f12).1 = (s.setFocus (!s.focus)).refreshImf := rfl
  rw [called, turned]
  unfold refreshImf
  split <;> exact ⟨windows, rfl⟩

end Ucimf.Raw

namespace Ucimf.FbTerm

open Keyboard Raw Transition

/-- `Active` as `true`, `Deactive` as `false`. -/
def switchOf : Option MessageType → Option Bool
  | some .active => some true
  | some .deactive => some false
  | _ => none

/-- What the messages switch, in their order. -/
def switches (ms : List (List UInt8)) : List Bool := ms.filterMap fun m => switchOf (messageType m)

/-- `true` and `false` in turn, beginning with `first`. -/
def Alternate : Bool → List Bool → Prop
  | _, [] => True
  | first, b :: bs => b = first ∧ Alternate (!first) bs

theorem alternate_snoc {first b : Bool} {bs : List Bool} (h : Alternate first (bs ++ [b])) :
    Alternate first bs ∧ b = !bs.getLastD (!first) := by
  induction bs generalizing first with
  | nil =>
    obtain ⟨rfl, -⟩ := h
    exact ⟨trivial, (Bool.not_not _).symm⟩
  | cons c bs ih =>
    obtain ⟨rfl, rest⟩ := h
    obtain ⟨alternate, last⟩ := ih rest
    rw [Bool.not_not] at last
    refine ⟨⟨rfl, alternate⟩, ?_⟩
    cases bs with
    | nil => exact last
    | cons d bs => exact last

/-- The server as `ucimf_init` leaves it: windows attached, the focus off. -/
structure Server.Fresh (v : Server) : Prop where
  attached : v.session.attached = true
  focus : v.session.focus = false
  imActive : v.imActive = false

/-- The focus and the server's own flag agree with what was switched last. -/
structure Server.Mirrors (v : Server) (active : Bool) : Prop where
  attached : v.session.attached = true
  focus : v.session.focus = active
  imActive : v.imActive = active

namespace Server

variable {k : Kernel} {v v' : Server} {m : Delivered}

theorem write_session (v : Server) (s : Sent) :
    (v.write s).session = v.session ∧ (v.write s).imActive = v.imActive := by
  unfold write
  split <;> exact ⟨rfl, rfl⟩

theorem putImText_session (v : Server) (text : List UInt8) (len : Nat) :
    (v.putImText text len).session = v.session ∧
      (v.putImText text len).imActive = v.imActive := by
  unfold putImText
  split
  · exact ⟨rfl, rfl⟩
  · exact v.write_session _

theorem Mirrors.of_same {active : Bool} (h : v.Mirrors active) (session : v'.session = v.session)
    (imActive : v'.imActive = v.imActive) : v'.Mirrors active where
  attached := session ▸ h.attached
  focus := session ▸ h.focus
  imActive := imActive ▸ h.imActive

theorem rawReply_mirrors {answer : Answer} {bytes text : List UInt8} {len : Nat}
    {session : Session} {reply : Reply} (h : v.Mirrors true)
    (replied : rawReply k answer v.session bytes = .ok (session, reply)) :
    (({ v with session := session } : Server).putImText text len).Mirrors true := by
  have stays := stays_rawReply replied
  obtain ⟨kept, active⟩ := ({ v with session := session } : Server).putImText_session text len
  exact
    { attached := by
        rw [kept]
        exact stays.attached.trans h.attached
      focus := by
        rw [kept]
        exact stays.focus h.focus
      imActive := active.trans h.imActive }

theorem notify_session {type : Option MessageType} (quiet : switchOf type = none) (v : Server) :
    (v.notify type).session = v.session ∧ (v.notify type).imActive = v.imActive := by
  unfold notify
  split
  · exact ⟨rfl, rfl⟩
  · cases quiet
  · cases quiet
  · exact v.write_session _
  · exact ⟨rfl, rfl⟩

theorem notify_active (h : v.Mirrors false) : (v.notify (some .active)).Mirrors true := by
  obtain ⟨windows, focus⟩ := Session.ucimfSwitch_f12
    { v.session with kb := v.session.kb.initKeycodeState } h.attached
  exact ⟨windows, focus.trans (congrArg not h.focus), rfl⟩

theorem notify_deactive (h : v.Mirrors true) : (v.notify (some .deactive)).Mirrors false := by
  obtain ⟨windows, focus⟩ := v.session.ucimfSwitch_f12 h.attached
  exact ⟨windows, focus.trans (congrArg not h.focus), rfl⟩

theorem notify_mirrors {active : Bool} (type : Option MessageType) (h : v.Mirrors active)
    (turn : ∀ b, switchOf type = some b → b = !active) :
    (v.notify type).Mirrors ((switchOf type).getD active) := by
  cases switched : switchOf type with
  | none =>
    obtain ⟨session, imActive⟩ := notify_session switched v
    exact h.of_same session imActive
  | some b =>
    obtain rfl := turn b switched
    unfold switchOf at switched
    split at switched
    · cases active
      · exact notify_active h
      · cases switched
    · cases active
      · cases switched
      · exact notify_deactive h
    · cases switched

/-- What one message does to the focus: keys leave it alone, `Active` and `Deactive` turn it
round. -/
theorem Takes.mirrors {active : Bool} (taken : Takes k v m v') (h : v.Mirrors active)
    (turn : ∀ b, switchOf (messageType m.bytes) = some b → b = !active) :
    v'.Mirrors ((switchOf (messageType m.bytes)).getD active) := by
  obtain ⟨out, handled⟩ := taken
  have logged : Mirrors { v with dispatched := v.dispatched ++ [m.bytes] } active :=
    ⟨h.attached, h.focus, h.imActive⟩
  change (if messageType m.bytes = some .sendKey then _ else _) = _ at handled
  split at handled
  · next send =>
    rw [send]
    split at handled
    · cases handled
      exact logged
    · next awake =>
      have on : active = true := h.imActive.symm.trans
        (eq_true_of_ne_false (not_or.mp awake).1)
      obtain ⟨⟨session, reply⟩, replied, same⟩ := Outcome.bind_eq_ok.mp handled
      cases same
      rw [on] at logged ⊢
      exact rawReply_mirrors logged replied
  · cases handled
    exact notify_mirrors _ logged turn

/-- In a run of messages in which `Active` and `Deactive` alternate, the server mirrors the
last of them. -/
theorem Fresh.mirrors {start : Server} (fresh : start.Fresh) {ms : List Delivered}
    (run : Run (Takes k) start ms v)
    (alternate : Alternate true (switches (ms.map Delivered.bytes))) :
    v.Mirrors ((switches (ms.map Delivered.bytes)).getLastD false) := by
  induction run with
  | nil => exact ⟨fresh.attached, fresh.focus, fresh.imActive⟩
  | @snoc ms m v v' _ taken ih =>
    rw [List.map_append, switches, List.filterMap_append] at alternate ⊢
    cases switched : switchOf (messageType m.bytes) with
    | none =>
      simp only [List.map_cons, List.map_nil, List.filterMap_cons, switched, List.filterMap_nil,
        List.append_nil] at alternate ⊢
      have after := taken.mirrors (ih alternate) fun b same => by cases switched.symm.trans same
      rwa [switched] at after
    | some b =>
      simp only [List.map_cons, List.map_nil, List.filterMap_cons, switched,
        List.filterMap_nil] at alternate ⊢
      obtain ⟨before, turned⟩ := alternate_snoc alternate
      have after := taken.mirrors (ih before) fun c same => by
        rw [← Option.some.inj (switched.symm.trans same)]
        exact turned
      rw [switched] at after
      rwa [List.getLastD_concat]

/-- Over harmless reads, the focus is on exactly when `Active` was the last of `Active` and
`Deactive` received. -/
theorem Fresh.focus_iff {start : Server} (fresh : start.Fresh) {rs : List Reading}
    (run : Run (ReadsHarmless k) start rs v) (alternate : Alternate true (switches (received rs))) :
    v.session.focus = true ↔ (switches (received rs)).getLast? = some true := by
  obtain ⟨ms, same, taken⟩ := takes_of_reads run
  rw [← same] at alternate ⊢
  rw [(fresh.mirrors taken alternate).focus, List.getLastD_eq_getLast?]
  cases (switches (ms.map Delivered.bytes)).getLast? with
  | none => decide
  | some b => simp

/-- A server that was just connected. -/
def idle : Server := { activeServer with
  session := { focusedSession with focus := false }
  imActive := false }

def letter : List UInt8 := [4, 0, 5, 0, 30]

/-- A letter is ignored, and typed again behind `Active` in the next read. -/
def wakened : List Reading :=
  [⟨fun _ => [97], [letter], [0, 0]⟩, ⟨fun _ => [97], [[2, 0, 4, 0], letter], [0, 0]⟩]

theorem focus_iff_wakened : ∃ v, Run (ReadsHarmless letterKeymap) idle wakened v ∧
    (v.session.focus = true ↔ (switches (received wakened)).getLast? = some true) ∧
    v.session.focus = true := by
  have start : Run (ReadsHarmless letterKeymap) idle [] idle := .nil
  have run := (start.snoc (a := ⟨fun _ => [97], [letter], [0, 0]⟩)
    ⟨by decide, rfl, _, rfl⟩).snoc (a := ⟨fun _ => [97], [[2, 0, 4, 0], letter], [0, 0]⟩)
    ⟨by decide, rfl, _, rfl⟩
  exact ⟨_, run, Fresh.focus_iff ⟨rfl, rfl, rfl⟩ run ⟨rfl, trivial⟩, rfl⟩

/-- `Active` comes alone, then a letter and `Deactive` in one read. The input method answers
with a Chinese character, which is written over `Deactive`. -/
def overwritten : List Reading :=
  [⟨fun _ => [], [[2, 0, 4, 0]], List.replicate 10236 0⟩,
    ⟨fun _ => [0xe4, 0xb8, 0xad], [letter, [3, 0, 4, 0]], List.replicate 10231 0⟩]

/-- The focus stays on, though `Deactive` was received last. -/
theorem deactive_lost : idle.Fresh ∧ (∀ m ∈ received overwritten, WellFramed m) ∧
    Alternate true (switches (received overwritten)) ∧
    ∃ v, Run (Reads letterKeymap) idle overwritten v ∧
      v.session.focus = true ∧ (switches (received overwritten)).getLast? = some false := by
  have left : (replay (read letterKeymap) idle overwritten).map (·.session.focus) = some true := by
    decide +kernel
  obtain ⟨v, replayed, focus⟩ := Option.map_eq_some_iff.mp left
  exact ⟨⟨rfl, rfl, rfl⟩, by decide, ⟨rfl, rfl, trivial⟩, v,
    Run.of_replay reads_of_read replayed, focus, rfl⟩

end Server

end Ucimf.FbTerm
