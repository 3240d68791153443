import Mathlib.Logic.Basic

/-!
# Relations between programs

A relation between the programs of two monads that is kept by returning and by sequencing, and
so by loops.
-/

universe u v w

/-- Returning related values is related, and so is going on from related programs. -/
structure Lifting {M : Type u → Type v} {M' : Type u → Type w} [Monad M] [Monad M'] {A B : Type u}
    (R : A → B → Prop) (T : M A → M' B → Prop) : Prop where
  pure : ∀ {a b}, R a b → T (pure a) (pure b)
  bind : ∀ {x y f g}, T x y → (∀ a b, R a b → T (f a) (g b)) → T (x >>= f) (y >>= g)

namespace Lifting

variable {M : Type u → Type v} {M' : Type u → Type w} [Monad M] [Monad M'] {A B : Type u}
  {R : A → B → Prop} {T : M A → M' B → Prop}

/-- Two loops over one list. -/
theorem foldlM (lifting : Lifting R T) {C : Type*} {f : A → C → M A} {g : B → C → M' B}
    (step : ∀ a b c, R a b → T (f a c) (g b c)) {a : A} {b : B} (related : R a b) (cs : List C) :
    T (cs.foldlM f a) (cs.foldlM g b) := by
  induction cs generalizing a b with
  | nil => exact lifting.pure related
  | cons c cs ih =>
    rw [List.foldlM_cons, List.foldlM_cons]
    exact lifting.bind (step a b c related) fun _ _ next => ih next

end Lifting
