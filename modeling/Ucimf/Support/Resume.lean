import Mathlib.Computability.StateTransition

/-!
# Machines that are stopped and resumed

A monitor lets a machine go on by itself until it stops, does something in its place and
resumes it. Each round then makes some steps of a machine that would not have stopped, and the
monitor ends where that machine does.
-/

namespace Resume

open StateTransition

universe u v
variable {S : Type u} {R : Type v}

/-- What comes out of a round: the result, or a state to resume. -/
inductive Round (S : Type u) (R : Type v)
  | done (r : R)
  | again (s : S)

/-- Rounds until there is a result. -/
def loop (round : S → Option (Round S R)) : Nat → S → Option R
  | 0, _ => none
  | fuel + 1, s =>
    match round s with
    | none => none
    | some (.done r) => some r
    | some (.again s) => loop round fuel s

/-- What a round may make of a state, by the steps of the machine from there. -/
def Faithful (step : S → Option S) (result : S → R) (s : S) : Option (Round S R) → Prop
  | none => ¬ (eval step s).Dom
  | some (.done r) => ∃ t ∈ eval step s, result t = r
  | some (.again t) => Reaches₁ step s t

variable {round : S → Option (Round S R)} {step : S → Option S} {result : S → R} {start s t : S}
  {r : R}

theorem result_of_loop (faithful : ∀ s, Reaches step start s → Faithful step result s (round s))
    {fuel : Nat} (reached : Reaches step start s) (ended : loop round fuel s = some r) :
    ∃ t ∈ eval step s, result t = r := by
  induction fuel generalizing s with
  | zero => cases ended
  | succ fuel ih =>
    have here := faithful s reached
    rw [loop] at ended
    cases made : round s with
    | none =>
      rw [made] at ended
      cases ended
    | some next =>
      rw [made] at here ended
      cases next with
      | done r' =>
        obtain rfl := Option.some.inj ended
        exact here
      | again t =>
        have ahead : Reaches step s t := Relation.TransGen.to_reflTransGen here
        rw [reaches_eval ahead]
        exact ih (reached.trans ahead) ended

/-- A round may make many steps, so the claim is made of every state ahead. -/
theorem loop_ahead (faithful : ∀ s, Reaches step start s → Faithful step result s (round s))
    {a : S} (stops : t ∈ eval step a) :
    Reaches step start a → ∀ s, Reaches step a s → ∃ fuel, loop round fuel s = some (result t) := by
  refine evalInduction stops fun a stops ih reached s ahead => ?_
  rcases Relation.ReflTransGen.cases_head ahead with rfl | ⟨a', next, further⟩
  · have here := faithful a reached
    cases made : round a with
    | none =>
      rw [made] at here
      exact absurd (Part.dom_iff_mem.mpr ⟨t, stops⟩) here
    | some next =>
      rw [made] at here
      cases next with
      | done r =>
        obtain ⟨t', stops', rfl⟩ := here
        obtain rfl := Part.mem_unique stops stops'
        exact ⟨1, by rw [loop, made]⟩
      | again b =>
        obtain ⟨a', next, rest⟩ := Relation.TransGen.head'_iff.mp here
        obtain ⟨fuel, ended⟩ := ih a' next (reached.tail next) b rest
        exact ⟨fuel + 1, by rw [loop, made, ← ended]⟩
  · exact ih a' next (reached.tail next) s further

/-- The monitor ends with a result exactly when the machine stops, and with its result. -/
theorem loop_iff (faithful : ∀ s, Reaches step start s → Faithful step result s (round s)) :
    (∃ fuel, loop round fuel start = some r) ↔ ∃ t ∈ eval step start, result t = r := by
  constructor
  · rintro ⟨fuel, ended⟩
    exact result_of_loop faithful Relation.ReflTransGen.refl ended
  · rintro ⟨t, stops, rfl⟩
    exact loop_ahead faithful stops .refl start .refl

end Resume
