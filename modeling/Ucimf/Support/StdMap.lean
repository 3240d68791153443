import Mathlib.Init

/-!
# `std::map`

A map gives a key at most one value. `insert` leaves a key that is there alone, and
`operator[]` puts a default value where a key is missing.
-/

namespace StdMap

universe u v
variable {K : Type u} {V : Type v} [DecidableEq K]

abbrev Map (K : Type u) (V : Type v) := K → Option V

def empty : Map K V := fun _ => none

def insert (key : K) (value : V) (m : Map K V) : Map K V :=
  if (m key).isSome then m else fun k => if k = key then some value else m k

/-- `operator[]`: the value and the map it leaves. -/
def index (fresh : V) (key : K) (m : Map K V) : V × Map K V :=
  ((m key).getD fresh, insert key fresh m)

theorem insert_apply (key : K) (value : V) (m : Map K V) (k : K) :
    insert key value m k = if k = key then some ((m key).getD value) else m k := by
  unfold insert
  by_cases same : k = key
  · subst same
    cases found : m k <;> simp [found]
  · split <;> simp [same]

def insertAll (entries : List (K × V)) (m : Map K V) : Map K V :=
  entries.foldl (fun m e => insert e.1 e.2 m) m

/-- Of the entries for a key the first one stays. -/
theorem insertAll_apply (entries : List (K × V)) (m : Map K V) (k : K) :
    insertAll entries m k = (m k).or ((entries.find? (·.1 = k)).map Prod.snd) := by
  induction entries generalizing m with
  | nil => exact (Option.or_none ..).symm
  | cons e entries ih =>
    rw [insertAll, List.foldl_cons]
    refine (ih _).trans ?_
    rw [insert_apply, List.find?_cons]
    by_cases same : k = e.1
    · subst same
      cases m e.1 <;> simp
    · rw [if_neg same, decide_eq_false (Ne.symm same)]

end StdMap
