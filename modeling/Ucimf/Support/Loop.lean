import Mathlib.Data.List.Iterate
import Ucimf.Support.Outcome

/-!
# While loops

`while test c do act c s; c := next c`, where the control variables `c` do not depend on the
state `s` that the body works on. `none` means that the fuel was used up.
-/

namespace Loop

universe u v
variable {C S : Type u} {E : Type v}

def whileLoop (test : C → Bool) (act : C → S → Except E S) (next : C → C) :
    Nat → C → S → Option (Except E (C × S))
  | 0, _, _ => none
  | fuel + 1, c, s =>
    if test c then
      match act c s with
      | .ok s => whileLoop test act next fuel (next c) s
      | .error e => some (.error e)
    else some (.ok (c, s))

variable {test : C → Bool} {act : C → S → Except E S} {next : C → C} {c : C} {n fuel : Nat}

/-- A loop whose test first fails after `n` rounds performs the actions of these rounds. -/
theorem whileLoop_eq (goes : ∀ i < n, test (next^[i] c) = true) (stops : test (next^[n] c) = false)
    (enough : n < fuel) (s : S) :
    whileLoop test act next fuel c s =
      some ((fun s => (next^[n] c, s)) <$>
        (List.iterate next c n).foldlM (fun s c => act c s) s) := by
  induction n generalizing c fuel s with
  | zero =>
    obtain ⟨fuel, rfl⟩ := Nat.exists_eq_add_of_lt enough
    have ended : test c = false := stops
    rw [Nat.zero_add, whileLoop, ended]
    rfl
  | succ n ih =>
    obtain ⟨fuel, rfl⟩ : ∃ rest, fuel = rest + 1 := ⟨fuel - 1, by omega⟩
    have first : test c = true := goes 0 n.succ_pos
    have rest := ih (c := next c) (fun i h => goes (i + 1) (Nat.succ_lt_succ h)) stops
      (Nat.lt_of_succ_lt_succ enough)
    rw [whileLoop, if_pos first, List.iterate, List.foldlM_cons]
    cases taken : act c s with
    | error e => rfl
    | ok s' => exact rest s'

/-- The action taken once more behind the loop. -/
theorem whileLoop_then (goes : ∀ i < n, test (next^[i] c) = true)
    (stops : test (next^[n] c) = false) (enough : n < fuel) (s : S) :
    (whileLoop test act next fuel c s).map (fun r => r >>= fun last => act last.1 last.2) =
      some ((List.iterate next c (n + 1)).foldlM (fun s c => act c s) s) := by
  rw [whileLoop_eq goes stops enough, List.iterate_add, List.foldlM_append, Option.map_some]
  cases (List.iterate next c n).foldlM (fun s c => act c s) s with
  | error e => rfl
  | ok s' => exact congrArg some (bind_pure _).symm

/-- The loop when its control variables are known after every round. -/
theorem whileLoop_walk (walk : Nat → C) (walks : ∀ k ≤ n, next^[k] c = walk k)
    (going : ∀ k, test (walk k) = true ↔ k ≠ n) (enough : n < fuel) (s : S) :
    (whileLoop test act next fuel c s).map (fun r => r >>= fun last => act last.1 last.2) =
      some (((List.range (n + 1)).map walk).foldlM (fun s c => act c s) s) := by
  have rounds : List.iterate next c (n + 1) = (List.range (n + 1)).map walk := by
    rw [← List.range_map_iterate]
    apply List.map_congr_left
    intro k member
    exact walks k (Nat.le_of_lt_succ (List.mem_range.mp member))
  rw [← rounds]
  apply whileLoop_then
  · intro k before
    rw [walks k before.le]
    exact (going k).mpr before.ne
  · rw [walks n le_rfl]
    exact Bool.eq_false_of_not_eq_true fun goes => (going n).mp goes rfl
  · exact enough

end Loop
