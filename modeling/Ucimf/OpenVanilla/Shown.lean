import Ucimf.OpenVanilla.Modules
import Ucimf.Support.Outcome

/-!
# What the preedit shows

The bridge keeps the text of its buffer twice: in the buffer, which decides about the keys and
is committed, and in the preedit widget, which all input methods share. `F9` clears the widget
and not the buffer. What is shown stays the end of the buffer; it is all of it exactly as long
as the bridge is never left with a text.
-/

namespace Ucimf.OpenVanilla

open Transition

/-- The text of the preedit widget behind a call. -/
def showCall (text : Text) : PreeditCall → Text
  | .append s => text ++ s
  | .clear => []
  | .render => text

/-- The text of the widget behind all calls so far. -/
def shown (calls : List PreeditCall) : Text := calls.foldl showCall []

theorem shown_snoc (calls : List PreeditCall) (call : PreeditCall) :
    shown (calls ++ [call]) = showCall (shown calls) call := by
  rw [shown, List.foldl_append]
  rfl

/-! ### The buffer -/

namespace OVImfBuffer

/-- The widget shows the end of the buffer. -/
def Trails (b : OVImfBuffer) : Prop := shown b.prdt <:+ b.buf

/-- The widget shows the buffer. -/
def Synced (b : OVImfBuffer) : Prop := shown b.prdt = b.buf

/-- A property of the buffer that the calls of a module keep. -/
structure Kept (P : OVImfBuffer → Prop) : Prop where
  append : ∀ b s, P b → P (b.append s)
  clear : ∀ b, P b → P b.clear
  update : ∀ b, P b → P b.update

theorem shown_clear (b : OVImfBuffer) : shown b.clear.prdt = [] := shown_snoc _ _

theorem synced_clear (b : OVImfBuffer) : b.clear.Synced := shown_clear b

theorem shown_append (b : OVImfBuffer) (s : Text) :
    shown (b.append s).prdt = shown b.prdt ++ s := shown_snoc _ _

theorem shown_update (b : OVImfBuffer) : shown b.update.prdt = shown b.prdt := shown_snoc _ _

theorem kept_trails : Kept Trails where
  append b s := by
    rintro ⟨hidden, whole⟩
    refine ⟨hidden, ?_⟩
    rw [shown_append, ← List.append_assoc, whole]
    rfl
  clear b _ := by
    rw [Trails, shown_clear]
    exact List.nil_suffix
  update b trails := by
    rw [Trails, shown_update]
    exact trails

theorem kept_synced : Kept Synced where
  append b s synced := by
    rw [Synced, shown_append, synced]
    rfl
  clear b _ := synced_clear b
  update b synced := by
    rw [Synced, shown_update]
    exact synced

/-- `F9` clears the widget, the other input methods use it, and another `F9` clears it again
on the way back. -/
def away (b : OVImfBuffer) (calls : List PreeditCall) : OVImfBuffer :=
  { b with prdt := b.prdt ++ (.clear :: calls) ++ [.clear] }

theorem shown_away (b : OVImfBuffer) (calls : List PreeditCall) :
    shown (b.away calls).prdt = [] := shown_snoc _ _

theorem synced_away (b : OVImfBuffer) (calls : List PreeditCall) :
    (b.away calls).Synced ↔ b.buf = [] := by
  rw [Synced, shown_away]
  exact eq_comm

end OVImfBuffer

/-! ### The bridge -/

namespace Bridge

open OVImfBuffer

variable {b : Behaviour} {o o' : Bridge} {P : OVImfBuffer → Prop}

theorem kept_issue (kept : Kept P) {v : OVImf} (holds : P v.preedit) (call : BufferCall) :
    P (v.issue call).preedit := by
  cases call with
  | append s => exact kept.append _ s holds
  | clear => exact kept.clear _ holds
  | update => exact kept.update _ holds
  | send => exact kept.clear _ holds

theorem kept_issued (kept : Kept P) (holds : P o.preedit) : P (o.issued b).preedit := by
  suffices all : ∀ (calls : List BufferCall) (v : OVImf), P v.preedit →
      P (calls.foldl OVImf.issue v).preedit from all _ _ holds
  intro calls
  induction calls with
  | nil => exact fun _ holds => holds
  | cons call calls ih => exact fun v holds => ih _ (kept_issue kept holds call)

theorem kept_attach (kept : Kept P) (holds : P o.preedit) (im : OVModule) :
    P (o.attach b im).preedit :=
  @kept_issued b { o with
    cxt := some o.created
    created := o.created + 1
    log := o.log ++ [.newContext im o.created, .start o.created] } P kept holds

theorem kept_introduce (kept : Kept P) (holds : P o.preedit) (im : OVModule) :
    P (o.introduce im).preedit := kept.clear _ holds

theorem kept_activate (kept : Kept P) (holds : P o.preedit) {im : OVModule}
    (done : o.activate b im = .ok o') : P o'.preedit := by
  unfold activate at done
  dsimp only at done
  split at done
  · cases done
    exact holds
  · split at done
    · cases done
      exact holds
    · split at done
      · cases done
      · cases done
        have started := kept_attach (b := b) (o := o.note (.initModule im)) kept holds im
        split
        · exact kept_introduce kept started im
        · exact started

theorem preedit_deleteCxt (done : o.deleteCxt = .ok o') : o'.preedit = o.preedit := by
  unfold deleteCxt at done
  split at done
  · cases done
    rfl
  · split at done
    · cases done
    · cases done
      rfl

theorem kept_switchTo (kept : Kept P) (holds : P o.preedit) {module : Int}
    (done : o.switchTo b module = .ok o') : P o'.preedit := by
  unfold switchTo at done
  split at done
  · cases done
  · split at done
    · cases done
    · obtain ⟨mid, deleted, activated⟩ := Outcome.bind_eq_ok.mp done
      apply kept_activate kept _ activated
      rw [preedit_deleteCxt deleted]
      exact holds

/-- What the calls of a module keep, the calls of the framework keep. -/
theorem kept_exec (kept : Kept P) (holds : P o.preedit) {call : ModuleCall}
    (done : o.exec b call = .ok o') : P o'.preedit := by
  cases call with
  | processInput stack buf =>
    obtain ⟨⟨text, o₁⟩, ran, rfl⟩ := Outcome.map_eq_ok.mp done
    unfold processInput at ran
    split at ran
    · cases ran
      exact holds
    · dsimp only at ran
      split at ran
      · cases ran
        exact holds
      · split at ran
        · cases ran
        · split at ran
          · cases ran
          · split at ran
            · cases ran
              exact kept_issued kept holds
            · cases ran
              exact kept_issued kept holds
  | switchIm =>
    change o.switchIm b = .ok o' at done
    unfold switchIm at done
    split at done
    · cases done
      exact holds
    · exact kept_switchTo kept holds done
  | switchImReverse =>
    change o.switchImReverse b = .ok o' at done
    unfold switchImReverse at done
    split at done
    · cases done
      exact holds
    · exact kept_switchTo kept holds done
  | refresh =>
    cases done
    exact holds

end Bridge

/-! ### Runs -/

/-- A call of the framework, or a time with other input methods. -/
inductive Turn
  | call (c : ModuleCall)
  | away (calls : List PreeditCall)

namespace Bridge

open OVImfBuffer

/-- A turn of the bridge. -/
inductive Turns (b : Behaviour) : Bridge → Turn → Bridge → Prop
  | call {o o' : Bridge} {c : ModuleCall} : o.exec b c = .ok o' → Turns b o (.call c) o'
  | away {o : Bridge} {calls : List PreeditCall} :
      Turns b o (.away calls) { o with preedit := o.preedit.away calls }

variable {b : Behaviour} {list : List OVModule} {o : Bridge} {ts : List Turn}

theorem synced_construct (b : Behaviour) (list : List OVModule) :
    (construct b list).preedit.Synced := by
  cases list with
  | nil => rfl
  | cons im list => exact synced_clear _

/-- Whatever happens, what is shown is the end of the buffer. -/
theorem trails_run (run : Run (Turns b) (construct b list) ts o) : o.preedit.Trails := by
  refine run.invariant (fun o => o.preedit.Trails) ?_ ?_
  · intro s t o trails turn
    cases turn with
    | call done => exact kept_exec kept_trails trails done
    | away =>
      rw [Trails, shown_away]
      exact List.nil_suffix
  · rw [Trails, synced_construct]

/-- In every state on the way the bridge is left only with an empty buffer. -/
def LeftEmpty (b : Behaviour) (start : Bridge) (ts : List Turn) : Prop :=
  ∀ before calls o, before ++ [.away calls] <+: ts → Run (Turns b) start before o →
    o.preedit.buf = []

theorem LeftEmpty.initial {start : Bridge} {before : List Turn} (left : LeftEmpty b start ts)
    (initial : before <+: ts) : LeftEmpty b start before := by
  intro more calls o inside run
  exact left more calls o (inside.trans initial) run

theorem synced_of_leftEmpty (run : Run (Turns b) (construct b list) ts o)
    (left : LeftEmpty b (construct b list) ts) : o.preedit.Synced := by
  induction run with
  | nil => exact synced_construct b list
  | @snoc ts t s o run turn ih =>
    have before := ih (left.initial (List.prefix_append _ _))
    cases turn with
    | call done => exact kept_exec kept_synced before done
    | away => exact (synced_away _ _).mpr (left ts _ s List.prefix_rfl run)

/-- In every run the preedit shows the end of the buffer. It shows all of it in every state
exactly when the bridge is left with an empty buffer each time; otherwise there comes a state
whose text is not shown, and is committed unseen with what is typed next. -/
theorem preedit_shows (b : Behaviour) (list : List OVModule) (ts : List Turn) :
    (∀ o, Run (Turns b) (construct b list) ts o → o.preedit.Trails) ∧
      ((∀ before o, before <+: ts → Run (Turns b) (construct b list) before o →
        o.preedit.Synced) ↔ LeftEmpty b (construct b list) ts) := by
  refine ⟨fun o => trails_run, ?_, ?_⟩
  · intro synced before calls o inside run
    exact (synced_away o.preedit calls).mp (synced _ _ inside (run.snoc .away))
  · intro left before o inside run
    exact synced_of_leftEmpty run (left.initial inside)

end Bridge

end Ucimf.OpenVanilla
