import Mathlib.Data.List.Basic

/-!
# Chunks of a length told by their first element

A scanner that takes several elements at once, as many as the first of them says, stays in
its input exactly when the input is made of whole chunks.
-/

namespace Chunks

universe u
variable {A : Type u} {size : A → Nat}

/-- A list of whole chunks: `size a` elements from each first element `a` on. -/
inductive Whole (size : A → Nat) : List A → Prop
  | nil : Whole size []
  | chunk {a tail rest} : tail.length + 1 = size a → Whole size rest →
      Whole size (a :: (tail ++ rest))

theorem whole_cons_iff {a : A} {xs : List A} (positive : 0 < size a) : Whole size (a :: xs) ↔
    size a ≤ xs.length + 1 ∧ Whole size (xs.drop (size a - 1)) := by
  constructor
  · intro whole
    generalize shape : a :: xs = ys at whole
    cases whole with
    | nil => cases shape
    | chunk length rest =>
      obtain ⟨rfl, rfl⟩ := List.cons.inj shape
      rw [List.length_append]
      refine ⟨by omega, ?_⟩
      rwa [List.drop_left' (by omega)]
  · rintro ⟨enough, rest⟩
    have split : xs.take (size a - 1) ++ xs.drop (size a - 1) = xs := List.take_append_drop ..
    rw [← split]
    refine .chunk ?_ rest
    rw [List.length_take]
    omega

/-- The rule for a scanner that goes on behind the chunk it has taken. -/
theorem iff_whole {P : List A → Prop} (positive : ∀ a, 0 < size a) (done : P []) {xs : List A}
    (step : ∀ a rest, (a :: rest) <:+ xs →
      (P (a :: rest) ↔ size a ≤ rest.length + 1 ∧ P (rest.drop (size a - 1)))) :
    P xs ↔ Whole size xs := by
  have suffixes : ∀ n, ∀ ys, ys.length ≤ n → ys <:+ xs → (P ys ↔ Whole size ys) := by
    intro n
    induction n with
    | zero =>
      intro ys short _
      obtain rfl := List.length_eq_zero_iff.mp (Nat.le_zero.mp short)
      exact iff_of_true done .nil
    | succ n ih =>
      intro ys short suffix
      cases ys with
      | nil => exact iff_of_true done .nil
      | cons a rest =>
        have shorter : (rest.drop (size a - 1)).length ≤ n :=
          Nat.le_trans (List.drop_suffix _ _).length_le (Nat.le_of_succ_le_succ short)
        have later : rest.drop (size a - 1) <:+ xs :=
          (List.drop_suffix _ _).trans ((List.suffix_cons a rest).trans suffix)
        rw [step a rest suffix, whole_cons_iff (positive a), ih _ shorter later]
  exact suffixes xs.length xs (Nat.le_refl _) (List.suffix_refl xs)

end Chunks
