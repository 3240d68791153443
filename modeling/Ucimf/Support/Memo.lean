import Mathlib.Logic.Function.Basic
import Ucimf.Support.Outcome

/-!
# Machines that answer, and tables that remember

A machine answers calls one after another. A machine that is simulated by another gives the
same answers to every list of calls.

A paged table remembers values of a function. Its memory is not written when it is
allocated: each page is cleared when it is first touched, and an entry of a page that was
touched is either null or the value of the function.
-/

universe u v w x

namespace Machine

open Outcome

variable {E : Type u} {S : Type v} {T : Type w} {A : Type x} {R : Type v}

/-- The answers to a list of calls. -/
def replies {S : Type v} (exec : S → A → Except E (S × R)) : S → List A → Except E (List R)
  | _, [] => .ok []
  | s, a :: as => do
    let (s, r) ← exec s a
    let rs ← replies exec s as
    .ok (r :: rs)

/-- One call fails in both machines, or is answered alike and leaves them related. -/
def Simulates {S T : Type v} (exec : S → A → Except E (S × R)) (spec : T → A → Except E (T × R))
    (I : S → T → Prop) : Prop :=
  ∀ s t a, I s t →
    (∃ e, exec s a = .error e ∧ spec t a = .error e) ∨
      ∃ s' t' r, exec s a = .ok (s', r) ∧ spec t a = .ok (t', r) ∧ I s' t'

theorem Simulates.replies {S T : Type v} {exec : S → A → Except E (S × R)}
    {spec : T → A → Except E (T × R)} {I : S → T → Prop} (sim : Simulates exec spec I) {s : S}
    {t : T} (related : I s t) (calls : List A) :
    replies exec s calls = Machine.replies spec t calls := by
  induction calls generalizing s t with
  | nil => rfl
  | cons a as ih =>
    unfold Machine.replies
    rcases sim s t a related with ⟨e, failed, failed'⟩ | ⟨s', t', r, done, done', still⟩
    · rw [failed, failed']
      rfl
    · rw [done, done', ok_bind, ok_bind]
      dsimp only
      rw [ih still]

end Machine

namespace Paged

variable {K : Type u} {P : Type v} {V : Type w}

/-- `entry` is `none` where memory was never written, and `some none` where a null stands. -/
structure Table (K : Type u) (P : Type v) (V : Type w) where
  inited : P → Bool
  entry : K → Option (Option V)

namespace Table

/-- A table that was just allocated. -/
def fresh : Table K P V := ⟨fun _ => false, fun _ => none⟩

variable (page : K → P)

/-- A page is cleared when it is touched first. -/
def touch [DecidableEq P] (t : Table K P V) (p : P) : Table K P V :=
  if t.inited p then t
  else ⟨Function.update t.inited p true, fun k => if page k = p then some none else t.entry k⟩

def store [DecidableEq K] (t : Table K P V) (k : K) (v : V) : Table K P V :=
  { t with entry := Function.update t.entry k (some (some v)) }

variable {page} {t : Table K P V} {f : K → Option V}

/-- What stands in a page that was touched is null or a value of the function. -/
def Caches (page : K → P) (t : Table K P V) (f : K → Option V) : Prop :=
  ∀ k, t.inited (page k) = true → ∃ o, t.entry k = some o ∧ ∀ v, o = some v → f k = some v

theorem caches_fresh : (fresh : Table K P V).Caches page f :=
  fun _ touched => absurd touched Bool.false_ne_true

theorem touch_inited [DecidableEq P] (t : Table K P V) (p : P) :
    (t.touch page p).inited p = true := by
  unfold touch
  split
  · assumption
  · exact Function.update_self ..

theorem Caches.touch [DecidableEq P] (h : t.Caches page f) (p : P) :
    (t.touch page p).Caches page f := by
  intro k touched
  unfold Table.touch at touched ⊢
  split at touched
  · next before =>
    rw [if_pos before]
    exact h k touched
  · next untouched =>
    rw [if_neg untouched]
    dsimp only at touched ⊢
    by_cases here : page k = p
    · exact ⟨none, if_pos here, nofun⟩
    · rw [Function.update_of_ne here] at touched
      rw [if_neg here]
      exact h k touched

theorem Caches.store [DecidableEq K] (h : t.Caches page f) {k : K} {v : V}
    (value : f k = some v) :
    (t.store k v).Caches page f := by
  intro k' touched
  unfold Table.store
  by_cases here : k' = k
  · refine ⟨some v, ?_, ?_⟩
    · rw [here]
      exact Function.update_self ..
    · intro v' same
      rw [here, value]
      exact same
  · dsimp only
    rw [Function.update_of_ne here]
    exact h k' touched

end Table

end Paged
