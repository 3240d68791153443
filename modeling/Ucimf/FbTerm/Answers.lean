import Ucimf.FbTerm.Activation

/-!
# What FbTerm is answered

FbTerm waits for the answer to `HideUI` before it switches, and writes the texts it gets to
the running program. The connection is followed here as FbTerm sees it: it is closed by
`Disconnect`, a request to hide the windows is answered once, and a text answers a key that
was sent while the server was active.
-/

namespace Ucimf.FbTerm

open Keyboard Raw Transition

/-- The connection as FbTerm sees it. -/
structure Peer where
  connected : Bool
  active : Bool
  deriving DecidableEq, Repr

namespace Peer

/-- A message, and what it is answered with. -/
inductive Step : Peer → Option MessageType × List Sent → Peer → Prop
  | disconnect {p : Peer} : Step p (some .disconnect, []) { p with connected := false }
  | active {p : Peer} : Step p (some .active, []) { p with active := true }
  | deactive {p : Peer} : Step p (some .deactive, []) { p with active := false }
  | hideUI {active : Bool} : Step ⟨true, active⟩ (some .hideUI, [.ackHideUI]) ⟨true, active⟩
  | text {s : List UInt8} : s ≠ [] → s.length ≤ 65535 - keysOffset →
      Step ⟨true, true⟩ (some .sendKey, [.putText s]) ⟨true, true⟩
  | silent {p : Peer} {type : Option MessageType} : (type = some .hideUI → p.connected = false) →
      type ≠ some .disconnect → type ≠ some .active → type ≠ some .deactive → Step p (type, []) p

variable {p p' : Peer}

theorem Step.ignored (p : Peer) : Step p (some .sendKey, []) p := by
  apply Step.silent
  · intro asked
    cases asked
  · decide
  · decide
  · decide

/-- The requests to hide the windows that come before the connection is closed. -/
def hideRequests (types : List (Option MessageType)) : Nat :=
  (types.takeWhile (· ≠ some .disconnect)).count (some .hideUI)

theorem hideRequests_snoc (types : List (Option MessageType)) (type : Option MessageType) :
    hideRequests (types ++ [type]) = hideRequests types +
      if some .disconnect ∉ types ∧ type = some .hideUI then 1 else 0 := by
  by_cases closed : some .disconnect ∈ types
  · rw [if_neg fun both => both.1 closed, hideRequests, List.takeWhile_append, if_neg]
    · rfl
    · intro whole
      have all := List.takeWhile_eq_self_iff.mp ((List.takeWhile_prefix _).eq_of_length whole)
      exact absurd (all _ closed) (by decide)
  · have before : ∀ t ∈ types, decide (t ≠ some MessageType.disconnect) = true := by
      intro t member
      exact decide_eq_true fun same => closed (same ▸ member)
    rw [hideRequests, hideRequests, List.takeWhile_append_of_pos before,
      List.takeWhile_eq_self_iff.mpr before, List.count_append]
    congr 1
    by_cases hide : type = some .hideUI
    · rw [if_pos ⟨closed, hide⟩, hide]
      rfl
    · rw [if_neg fun both => hide both.2, List.count_eq_zero]
      intro member
      obtain same := List.mem_singleton.mp ((List.takeWhile_prefix _).subset member)
      exact hide same.symm

/-- The acknowledgements and the connection, over one message. -/
theorem Step.acks {type : Option MessageType} {answers : List Sent}
    (step : Step p (type, answers) p') :
    answers.count .ackHideUI = (if p.connected = true ∧ type = some .hideUI then 1 else 0) ∧
      (p'.connected = true ↔ p.connected = true ∧ type ≠ some .disconnect) := by
  cases step with
  | disconnect => exact ⟨(if_neg nofun).symm, iff_of_false nofun fun both => both.2 rfl⟩
  | active => exact ⟨(if_neg nofun).symm, iff_self_and.mpr fun _ => nofun⟩
  | deactive => exact ⟨(if_neg nofun).symm, iff_self_and.mpr fun _ => nofun⟩
  | hideUI => exact ⟨(if_pos ⟨rfl, rfl⟩).symm, iff_self_and.mpr fun _ => nofun⟩
  | text used fits => exact ⟨(if_neg nofun).symm, iff_self_and.mpr fun _ => nofun⟩
  | silent unasked kept =>
    refine ⟨(if_neg ?_).symm, iff_self_and.mpr fun _ => kept⟩
    rintro ⟨connected, hide⟩
    exact Bool.false_ne_true ((unasked hide).symm.trans connected)

theorem acks_run {ps : List (Option MessageType × List Sent)} (connected : p.connected = true)
    (run : Run Step p ps p') :
    (ps.map Prod.snd).flatten.count .ackHideUI = hideRequests (ps.map Prod.fst) ∧
      (p'.connected = true ↔ some .disconnect ∉ ps.map Prod.fst) := by
  induction run with
  | nil => exact ⟨rfl, iff_of_true connected List.not_mem_nil⟩
  | @snoc ps m q r _ step ih =>
    obtain ⟨counted, still⟩ := ih
    obtain ⟨acked, kept⟩ := Step.acks step
    rw [List.map_append, List.map_append, List.flatten_append, List.count_append, counted, kept,
      still]
    constructor
    · change _ = hideRequests (ps.map Prod.fst ++ [m.1])
      have asked := acked.trans (if_congr (and_congr_left fun _ => still) rfl rfl)
      rw [hideRequests_snoc, ← asked]
      exact congrArg _ (congrArg _ (List.append_nil _))
    · simp only [List.map_cons, List.map_nil, List.mem_append, List.mem_singleton, not_or]
      exact and_congr_right fun _ => ne_comm

end Peer

namespace Server

variable {k : Kernel} {answer : Answer} {v v' : Server} {m : Delivered}

def peer (v : Server) : Peer := ⟨v.connected, v.imActive⟩

/-- The server wrote these messages, and the connection is as before. -/
structure Wrote (v : Server) (answers : List Sent) (v' : Server) : Prop where
  sent : v'.sent = v.sent ++ answers
  peer : v'.peer = v.peer

theorem wrote_nothing (v : Server) : v.Wrote [] v := ⟨(List.append_nil _).symm, rfl⟩

theorem wrote_write (v : Server) (s : Sent) :
    v.Wrote (if v.connected then [s] else []) (v.write s) := by
  unfold write
  by_cases connected : v.connected = true
  · rw [if_pos connected, if_pos connected]
    exact ⟨rfl, rfl⟩
  · rw [if_neg connected, if_neg connected]
    exact v.wrote_nothing

/-- A text is written on an open connection by an active server, and fits in a message. -/
theorem wrote_putImText (v : Server) {text : List UInt8} {len : Nat} (whole : len ≤ text.length) :
    v.Wrote [] (v.putImText text len) ∨ v.peer = ⟨true, true⟩ ∧ ∃ s : List UInt8,
      s ≠ [] ∧ s.length ≤ 65535 - keysOffset ∧ v.Wrote [.putText s] (v.putImText text len) := by
  unfold putImText
  split
  · exact .inl v.wrote_nothing
  · next refused =>
    obtain ⟨connected, active, used, fits⟩ : ¬ v.connected = false ∧ ¬ v.imActive = false ∧
        ¬ len = 0 ∧ ¬ 65535 < keysOffset + len := by simpa only [not_or] using refused
    have length : (text.take len).length = len := List.length_take_of_le whole
    refine .inr ⟨?_, text.take len, ?_, ?_, ?_⟩
    · exact congrArg₂ Peer.mk (eq_true_of_ne_false connected) (eq_true_of_ne_false active)
    · intro empty
      rw [empty] at length
      exact used length.symm
    · rw [length]
      omega
    · have written := v.wrote_write (.putText (text.take len))
      rwa [if_pos (eq_true_of_ne_false connected)] at written

/-- A message of the type has been answered as FbTerm expects. -/
def Answered (v : Server) (type : Option MessageType) (v' : Server) : Prop :=
  ∃ answers : List Sent, v'.sent = v.sent ++ answers ∧ Peer.Step v.peer (type, answers) v'.peer

theorem Answered.of_quiet {type : Option MessageType} (sent : v'.sent = v.sent)
    (step : Peer.Step v.peer (type, []) v'.peer) : v.Answered type v' :=
  ⟨[], sent.trans (List.append_nil _).symm, step⟩

/-- What the input methods return for a key is sent as a text, if at all. -/
theorem answered_putImText (v : Server) (session : Session) (text : List UInt8) :
    v.Answered (some .sendKey)
      (({ v with session := session } : Server).putImText text (text.length % 65536)) := by
  rcases ({ v with session := session } : Server).wrote_putImText (Nat.mod_le text.length 65536)
    with quiet | ⟨ready, s, used, fits, wrote⟩
  · refine ⟨[], quiet.sent, ?_⟩
    rw [quiet.peer]
    exact .ignored _
  · refine ⟨_, wrote.sent, ?_⟩
    have open' : v.peer = ⟨true, true⟩ := ready
    rw [wrote.peer]
    change Peer.Step v.peer _ v.peer
    rw [open']
    exact .text used fits

theorem notify_answered (v : Server) {type : Option MessageType} (other : type ≠ some .sendKey) :
    v.Answered type (v.notify type) := by
  unfold notify
  split
  · exact .of_quiet rfl .disconnect
  · exact .of_quiet rfl .active
  · exact .of_quiet rfl .deactive
  · have wrote := v.wrote_write .ackHideUI
    refine ⟨_, wrote.sent, ?_⟩
    rw [wrote.peer]
    by_cases connected : v.connected = true
    · rw [if_pos connected, peer, connected]
      exact .hideUI
    · rw [if_neg connected]
      exact .silent (fun _ => eq_false_of_ne_true connected) (by decide) (by decide)
        (by decide)
  · next disconnect active deactive hideUI =>
    exact .of_quiet rfl (.silent (fun hide => absurd hide hideUI) disconnect active deactive)

/-- What one message is answered with. -/
theorem Takes.answered (taken : Takes k v m v') : v.Answered (messageType m.bytes) v' := by
  obtain ⟨out, handled⟩ := taken
  change (if messageType m.bytes = some .sendKey then _ else _) = _ at handled
  split at handled
  · next send =>
    rw [send]
    split at handled
    · cases handled
      exact .of_quiet rfl (.ignored _)
    · obtain ⟨⟨session, reply⟩, -, same⟩ := Outcome.bind_eq_ok.mp handled
      cases same
      exact answered_putImText { v with dispatched := v.dispatched ++ [m.bytes] } session
        reply.output
  · next other =>
    cases handled
    exact notify_answered { v with dispatched := v.dispatched ++ [m.bytes] } other

theorem answered_run {start : Server} {ms : List Delivered} (run : Run (Takes k) start ms v) :
    ∃ ps : List (Option MessageType × List Sent),
      ps.map Prod.fst = (ms.map Delivered.bytes).map messageType ∧
      v.sent = start.sent ++ (ps.map Prod.snd).flatten ∧
      Run Peer.Step start.peer ps v.peer := by
  induction run with
  | nil => exact ⟨[], rfl, (List.append_nil _).symm, .nil⟩
  | @snoc ms m v v' _ taken ih =>
    obtain ⟨ps, types, sent, run⟩ := ih
    obtain ⟨written, more, step⟩ := taken.answered
    refine ⟨ps ++ [(messageType m.bytes, written)], ?_, ?_, run.snoc step⟩
    · rw [List.map_append, List.map_append, List.map_append, types]
      rfl
    · rw [more, sent, List.map_append, List.flatten_append, List.append_assoc]
      exact congrArg _ (congrArg _ (List.append_nil _).symm)

/-- Over harmless reads, FbTerm gets back what it expects of the messages it sent: a text is
only ever the answer to a key, and every request to hide the windows is answered once and at
once, up to the end of the connection. -/
theorem answers {start : Server} (connected : start.connected = true) (unsent : start.sent = [])
    {rs : List Reading} (run : Run (ReadsHarmless k) start rs v) :
    (∃ ps : List (Option MessageType × List Sent),
        ps.map Prod.fst = (received rs).map messageType ∧
        v.sent = (ps.map Prod.snd).flatten ∧ Run Peer.Step start.peer ps v.peer) ∧
      v.sent.count .ackHideUI = Peer.hideRequests ((received rs).map messageType) := by
  obtain ⟨ms, same, taken⟩ := takes_of_reads run
  obtain ⟨ps, types, sent, peers⟩ := answered_run taken
  rw [unsent, List.nil_append] at sent
  rw [same] at types
  refine ⟨⟨ps, types, sent, peers⟩, ?_⟩
  rw [sent, ← types]
  exact (Peer.acks_run (p := start.peer) connected peers).1

/-- A letter is typed and the windows are hidden; then the connection is closed, with a further
request to hide the windows behind. -/
def dismissed : List Reading :=
  [⟨fun _ => [97], typedThenHidden, [0, 0]⟩, ⟨fun _ => [], [[1, 0, 4, 0], [12, 0, 4, 0]], [0, 0]⟩]

theorem answers_dismissed : ∃ v, Run (ReadsHarmless letterKeymap) activeServer dismissed v ∧
    ((∃ ps : List (Option MessageType × List Sent),
        ps.map Prod.fst = (received dismissed).map messageType ∧
        v.sent = (ps.map Prod.snd).flatten ∧ Run Peer.Step activeServer.peer ps v.peer) ∧
      v.sent.count .ackHideUI = Peer.hideRequests ((received dismissed).map messageType)) ∧
    v.sent = [.putText [97], .ackHideUI] := by
  have start : Run (ReadsHarmless letterKeymap) activeServer [] activeServer := .nil
  have run := (start.snoc (a := ⟨fun _ => [97], typedThenHidden, [0, 0]⟩)
    ⟨by decide, rfl, _, rfl⟩).snoc
    (a := ⟨fun _ => [], [[1, 0, 4, 0], [12, 0, 4, 0]], [0, 0]⟩) ⟨by decide, rfl, _, rfl⟩
  exact ⟨_, run, answers rfl rfl run, rfl⟩

end Server

end Ucimf.FbTerm
