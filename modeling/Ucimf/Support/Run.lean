import Mathlib.Data.List.Induction
import Ucimf.Support.Outcome

/-!
# Runs of a transition relation

A run is a list of actions, each taken by one step of the relation. What one step
preserves, a whole run preserves.
-/

namespace Transition

open Outcome

universe u v w
variable {S : Type u} {A : Type v}

inductive Run (step : S → A → S → Prop) (start : S) : List A → S → Prop
  | nil : Run step start [] start
  | snoc {as a s t} : Run step start as s → step s a t → Run step start (as ++ [a]) t

variable {step : S → A → S → Prop}

theorem Run.invariant (I : S → Prop) (keep : ∀ s a t, I s → step s a t → I t)
    {start : S} {as : List A} {s : S} (run : Run step start as s) (base : I start) : I s := by
  induction run with
  | nil => exact base
  | snoc _ taken ih => exact keep _ _ _ ih taken

/-- The last step of a run. -/
theorem Run.last {start : S} {as : List A} {a : A} {t : S} (run : Run step start (as ++ [a]) t) :
    ∃ s, Run step start as s ∧ step s a t := by
  generalize whole : as ++ [a] = bs at run
  cases run with
  | nil => cases List.append_eq_nil_iff.mp whole |>.2
  | snoc before taken =>
    obtain ⟨rfl, same⟩ := List.append_inj' whole rfl
    cases same
    exact ⟨_, before, taken⟩

theorem Run.append {start mid : S} {as bs : List A} {s : S} (first : Run step start as mid)
    (rest : Run step mid bs s) : Run step start (as ++ bs) s := by
  induction rest with
  | nil => rwa [List.append_nil]
  | snoc _ taken ih =>
    rw [← List.append_assoc]
    exact ih.snoc taken

/-- What is known of each action can be recorded in its step. -/
theorem Run.restrict {P : A → Prop} {start : S} {as : List A} {s : S} (run : Run step start as s)
    (all : ∀ a ∈ as, P a) : Run (fun s a t => P a ∧ step s a t) start as s := by
  induction run with
  | nil => exact .nil
  | snoc _ taken ih =>
    have known := List.forall_mem_append.mp all
    exact (ih known.1).snoc ⟨known.2 _ (List.mem_singleton_self _), taken⟩

/-- A run is followed by a program that takes the same actions, as long as it meets no error but
a tolerated one. -/
theorem Run.followed {T : Type v} {E : Type w} {tolerated : E → Prop} {R : S → T → Prop}
    {exec : T → A → Except E T}
    (follow : ∀ s t a s', R s t → step s a s' → Ends tolerated (exec t a) (R s'))
    {start : S} {as : List A} {s : S} (run : Run step start as s) {t : T} (related : R start t) :
    Ends tolerated (as.foldlM exec t) (R s) := by
  induction run with
  | nil => exact related
  | snoc _ taken ih =>
    rw [List.foldlM_append]
    apply ih.bind
    intro t here
    rw [List.foldlM_cons]
    exact (follow _ _ _ _ here taken).bind fun t' there => there

/-- A list of actions carried out by an executable step. -/
def replay (exec : S → A → Option S) (start : S) (as : List A) : Option S :=
  as.foldlM exec start

theorem Run.of_replay {exec : S → A → Option S}
    (sound : ∀ s a t, exec s a = some t → step s a t) {start : S} {as : List A} {t : S}
    (replayed : replay exec start as = some t) : Run step start as t := by
  induction as using List.reverseRecOn generalizing t with
  | nil =>
    obtain rfl := Option.some.inj replayed
    exact .nil
  | append_singleton as a ih =>
    rw [replay, List.foldlM_append] at replayed
    obtain ⟨s, before, last⟩ := Option.bind_eq_some_iff.mp replayed
    refine (ih before).snoc (sound s a t ?_)
    simpa using last

/-- Every action meets the condition in the state before it. -/
def Along (exec : S → A → S) (P : S → A → Prop) : S → List A → Prop
  | _, [] => True
  | s, a :: as => P s a ∧ Along exec P (exec s a) as

theorem along_and {exec : S → A → S} {P Q : S → A → Prop} {s : S} {as : List A} :
    Along exec (fun s a => P s a ∧ Q s a) s as ↔ Along exec P s as ∧ Along exec Q s as := by
  induction as generalizing s with
  | nil => exact (and_self_iff).symm
  | cons a as ih =>
    rw [Along, Along, Along, ih]
    exact and_and_and_comm

theorem along_append {exec : S → A → S} {P : S → A → Prop} {s : S} {as bs : List A} :
    Along exec P s (as ++ bs) ↔ Along exec P s as ∧ Along exec P (as.foldl exec s) bs := by
  induction as generalizing s with
  | nil => exact (iff_of_eq (true_and _)).symm
  | cons a as ih =>
    rw [List.cons_append, Along, Along, ih, and_assoc]
    rfl

instance decidableAlong (exec : S → A → S) (P : S → A → Prop) [∀ s a, Decidable (P s a)] :
    ∀ s as, Decidable (Along exec P s as)
  | _, [] => inferInstanceAs (Decidable True)
  | s, a :: as =>
    have := decidableAlong exec P (exec s a) as
    inferInstanceAs (Decidable (P s a ∧ Along exec P (exec s a) as))

end Transition
