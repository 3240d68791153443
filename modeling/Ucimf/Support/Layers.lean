import Mathlib.Data.Set.Lattice
import Mathlib.Data.Set.Piecewise
import Mathlib.Order.CompletePartialOrder

/-!
# Layers painted over a base picture

A picture is a function from points to colours. Layers are painted one after the
other, so where two regions meet the later one shows. Raising a list of layers
records what each of them covers (`undercoats`); painting these records back in the
order in which they were taken gives the base picture only under the condition of
`restores_iff`.
-/

namespace Compositing

universe u v
variable {P : Type u} {C : Type v}

/-- An image on a region of the plane. -/
structure Layer (P : Type u) (C : Type v) where
  region : Set P
  image : P → C

open Classical in
noncomputable def Layer.over (l : Layer P C) (f : P → C) : P → C :=
  l.region.piecewise l.image f

theorem Layer.over_of_mem {l : Layer P C} {p : P} (f : P → C) (h : p ∈ l.region) :
    l.over f p = l.image p := if_pos h

theorem Layer.over_of_notMem {l : Layer P C} {p : P} (f : P → C) (h : p ∉ l.region) :
    l.over f p = f p := if_neg h

/-- A picture given by cases on the region is the layer painted over. -/
theorem Layer.piecewise_eq_over (r : Set P) [∀ p, Decidable (p ∈ r)] (g f : P → C) :
    r.piecewise g f = (Layer.mk r g).over f := by
  funext p
  by_cases h : p ∈ r
  · rw [Set.piecewise_eq_of_mem _ _ _ h, Layer.over_of_mem f (l := ⟨r, g⟩) h]
  · rw [Set.piecewise_eq_of_notMem _ _ _ h, Layer.over_of_notMem f (l := ⟨r, g⟩) h]

/-- Paint the layers in order, the first one first. -/
noncomputable def composite (f : P → C) : List (Layer P C) → P → C
  | [] => f
  | l :: ls => composite (l.over f) ls

@[simp] theorem composite_nil (f : P → C) : composite f [] = f := rfl

@[simp] theorem composite_cons (f : P → C) (l : Layer P C) (ls : List (Layer P C)) :
    composite f (l :: ls) = composite (l.over f) ls := rfl

theorem composite_append (f : P → C) (as bs : List (Layer P C)) :
    composite f (as ++ bs) = composite (composite f as) bs := by
  induction as generalizing f with
  | nil => rfl
  | cons l as ih => exact ih _

def Uncovered (ls : List (Layer P C)) (p : P) : Prop := ∀ l ∈ ls, p ∉ l.region

theorem composite_of_uncovered {ls : List (Layer P C)} {p : P} (f : P → C)
    (h : Uncovered ls p) : composite f ls p = f p := by
  induction ls generalizing f with
  | nil => rfl
  | cons l ls ih =>
    rw [composite_cons, ih _ (fun m hm => h m (List.mem_cons_of_mem _ hm))]
    exact Layer.over_of_notMem f (h l (by simp))

/-- The last layer over a point is the one that shows. -/
theorem composite_of_last (f : P → C) (as : List (Layer P C)) {l : Layer P C}
    {bs : List (Layer P C)} {p : P} (hl : p ∈ l.region) (hbs : Uncovered bs p) :
    composite f (as ++ l :: bs) p = l.image p := by
  rw [composite_append, composite_cons, composite_of_uncovered _ hbs]
  exact Layer.over_of_mem _ hl

theorem uncovered_or_last (ls : List (Layer P C)) (p : P) :
    Uncovered ls p ∨ ∃ as l bs, ls = as ++ l :: bs ∧ p ∈ l.region ∧ Uncovered bs p := by
  induction ls with
  | nil => left; simp [Uncovered]
  | cons l ls ih =>
    rcases ih with clear | ⟨as, m, bs, rfl, hm, hbs⟩
    · by_cases hl : p ∈ l.region
      · exact .inr ⟨[], l, ls, rfl, hl, clear⟩
      · left
        intro m hm
        rcases List.mem_cons.mp hm with rfl | hm
        · exact hl
        · exact clear m hm
    · exact .inr ⟨l :: as, m, bs, rfl, hm, hbs⟩

theorem composite_of_apart {ls : List (Layer P C)} (f : P → C)
    (apart : ls.Pairwise fun l m => Disjoint l.region m.region)
    {l : Layer P C} (hl : l ∈ ls) {p : P} (hp : p ∈ l.region) :
    composite f ls p = l.image p := by
  obtain ⟨as, bs, rfl⟩ := List.append_of_mem hl
  refine composite_of_last f as hp ?_
  intro m hm
  have later := (List.pairwise_cons.mp (List.pairwise_append.mp apart).2.1).1
  exact Set.disjoint_left.mp (later m hm) hp

theorem composite_of_agree {ls : List (Layer P C)} (f : P → C) {p : P} {c : C}
    (covered : ∃ l ∈ ls, p ∈ l.region) (agree : ∀ l ∈ ls, p ∈ l.region → l.image p = c) :
    composite f ls p = c := by
  rcases uncovered_or_last ls p with clear | ⟨as, l, bs, rfl, hl, hbs⟩
  · obtain ⟨l, hl, hp⟩ := covered
    exact absurd hp (clear l hl)
  · rw [composite_of_last f as hl hbs]
    exact agree l (by simp) hl

/-- What each layer covers at the moment it is painted. -/
noncomputable def undercoats (f : P → C) : List (Layer P C) → List (Layer P C)
  | [] => []
  | l :: ls => ⟨l.region, f⟩ :: undercoats (l.over f) ls

theorem undercoats_append (f : P → C) (as bs : List (Layer P C)) :
    undercoats f (as ++ bs) = undercoats f as ++ undercoats (composite f as) bs := by
  induction as generalizing f with
  | nil => rfl
  | cons l as ih => simp [undercoats, ih]

theorem uncovered_undercoats {ls : List (Layer P C)} {p : P} (f : P → C) :
    Uncovered (undercoats f ls) p ↔ Uncovered ls p := by
  induction ls generalizing f with
  | nil => simp [undercoats, Uncovered]
  | cons l ls ih =>
    have step := ih (l.over f)
    simp only [Uncovered, undercoats, List.forall_mem_cons] at step ⊢
    rw [step]

/-- Put back first in, first out, a point keeps what lay under its last layer. -/
theorem composite_undercoats_of_last (f g : P → C) (as : List (Layer P C)) {l : Layer P C}
    {bs : List (Layer P C)} {p : P} (hl : p ∈ l.region) (hbs : Uncovered bs p) :
    composite g (undercoats f (as ++ l :: bs)) p = composite f as p := by
  rw [undercoats_append]
  exact composite_of_last g _ (l := ⟨l.region, composite f as⟩) hl
    ((uncovered_undercoats _).mpr hbs)

/-- Undercoats put back in the order they were taken give the base picture exactly when
at each point under two layers or more the last but one layer shows the base colour. -/
theorem restores_iff (f : P → C) (ls : List (Layer P C)) :
    composite (composite f ls) (undercoats f ls) = f ↔
      ∀ as l bs m cs, ls = as ++ l :: (bs ++ m :: cs) → ∀ p ∈ l.region, p ∈ m.region →
        Uncovered bs p → Uncovered cs p → l.image p = f p := by
  constructor
  · rintro whole as l bs m cs rfl p hl hm hbs hcs
    have split : as ++ l :: (bs ++ m :: cs) = (as ++ l :: bs) ++ m :: cs := by simp
    calc l.image p = composite f (as ++ l :: bs) p := (composite_of_last f as hl hbs).symm
      _ = composite (composite f ((as ++ l :: bs) ++ m :: cs))
            (undercoats f ((as ++ l :: bs) ++ m :: cs)) p :=
          (composite_undercoats_of_last f _ _ hm hcs).symm
      _ = f p := by rw [← split, whole]
  · intro lastButOne
    funext p
    rcases uncovered_or_last ls p with clear | ⟨as, m, cs, rfl, hm, hcs⟩
    · rw [composite_of_uncovered _ ((uncovered_undercoats f).mpr clear),
        composite_of_uncovered f clear]
    · rw [composite_undercoats_of_last f _ as hm hcs]
      rcases uncovered_or_last as p with clear | ⟨front, l, bs, rfl, hl, hbs⟩
      · exact composite_of_uncovered f clear
      · rw [composite_of_last f front hl hbs]
        exact lastButOne front l bs m cs (by simp) p hl hm hbs hcs

end Compositing
