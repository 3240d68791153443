import Ucimf.Support.Outcome
import Ucimf.Support.Run
import Mathlib.Logic.Function.Basic

/-!
# Programs with a record of their calls

`Traced` is a fallible program together with the calls it makes up to where it returns or
stops. Erasing the record gives the program back. `Keeps` judges every call in the state that
the calls before it have led to.
-/

universe u v w

structure Traced (L : Type u) (F : Type v) (A : Type w) where
  log : List L
  result : Except F A

namespace Traced

open Outcome Transition

variable {L : Type u} {F : Type v} {A B : Type w}

def bind (t : Traced L F A) (f : A → Traced L F B) : Traced L F B :=
  match t.result with
  | .ok a => ⟨t.log ++ (f a).log, (f a).result⟩
  | .error e => ⟨t.log, .error e⟩

instance : Monad (Traced L F) where
  pure a := ⟨[], .ok a⟩
  bind := bind

/-- One call, and what it returns. -/
def call (l : L) (r : Except F A) : Traced L F A := ⟨[l], r⟩

/-- A program that makes no call. -/
def silent (r : Except F A) : Traced L F A := ⟨[], r⟩

theorem bind_assoc {C : Type w} (t : Traced L F A) (f : A → Traced L F B)
    (g : B → Traced L F C) : t >>= f >>= g = t >>= fun a => f a >>= g := by
  obtain ⟨log, result⟩ := t
  cases result with
  | error e => rfl
  | ok a =>
    change Traced.bind ⟨log ++ (f a).log, (f a).result⟩ g =
      ⟨log ++ ((f a).bind g).log, ((f a).bind g).result⟩
    unfold Traced.bind
    cases (f a).result with
    | error e => rfl
    | ok b => exact congrArg (Traced.mk · _) (List.append_assoc log _ _)

/-! ### Erasure -/

@[simp] theorem result_bind (t : Traced L F A) (f : A → Traced L F B) :
    (t >>= f).result = t.result >>= fun a => (f a).result := by
  obtain ⟨log, result⟩ := t
  cases result with
  | ok a => rfl
  | error e => rfl

/-- Erasure commutes with returning and sequencing. -/
theorem erasure : Lifting Eq fun (t : Traced L F A) x => t.result = x where
  pure same := congrArg Except.ok same
  bind := by
    rintro t _ f g rfl next
    rw [result_bind]
    exact congrArg (t.result >>= ·) (funext fun a => next a a rfl)

/-! ### Judging the calls -/

section Keeps
variable {G : Type*} {advance : G → L → G} {P : G → L → Prop}

/-- Every call meets the condition, and what is returned meets the postcondition in the state that
the calls have led to. -/
def Keeps (advance : G → L → G) (P : G → L → Prop) (g : G) (t : Traced L F A)
    (Q : G → A → Prop) : Prop :=
  Along advance P g t.log ∧ ∀ a, t.result = .ok a → Q (t.log.foldl advance g) a

variable {g : G} {Q : G → A → Prop}

theorem Keeps.call {l : L} {r : Except F A} (meets : P g l)
    (h : ∀ a, r = .ok a → Q (advance g l) a) : Keeps advance P g (Traced.call l r) Q :=
  ⟨⟨meets, trivial⟩, h⟩

theorem Keeps.silent {r : Except F A} (h : ∀ a, r = .ok a → Q g a) :
    Keeps advance P g (Traced.silent r : Traced L F A) Q :=
  ⟨trivial, h⟩

theorem Keeps.ok {a : A} (h : Q g a) :
    Keeps advance P g (Traced.silent (.ok a) : Traced L F A) Q := by
  apply Keeps.silent
  intro a' returned
  obtain rfl := Except.ok.inj returned
  exact h

theorem Keeps.error {e : F} : Keeps advance P g (Traced.silent (.error e) : Traced L F A) Q :=
  Keeps.silent fun _ returned => nomatch returned

theorem Keeps.mono {t : Traced L F A} {R : G → A → Prop} (h : Keeps advance P g t Q)
    (imp : ∀ g a, Q g a → R g a) : Keeps advance P g t R :=
  ⟨h.1, fun a returned => imp _ a (h.2 a returned)⟩

theorem Keeps.bind {t : Traced L F A} {f : A → Traced L F B} {R : G → B → Prop}
    (h : Keeps advance P g t Q) (next : ∀ g a, Q g a → Keeps advance P g (f a) R) :
    Keeps advance P g (t >>= f) R := by
  obtain ⟨log, result⟩ := t
  cases result with
  | ok a =>
    have rest := next _ a (h.2 a rfl)
    refine ⟨along_append.mpr ⟨h.1, rest.1⟩, fun b returned => ?_⟩
    have after := rest.2 b returned
    rwa [← List.foldl_append] at after
  | error e => exact ⟨h.1, fun b returned => nomatch returned⟩

/-- The rule for loops over a list; the invariant may speak of the elements to come. -/
theorem Keeps.foldlM {f : A → B → Traced L F A} (I : List B → G → A → Prop)
    (step : ∀ b bs g a, I (b :: bs) g a → Keeps advance P g (f a b) (I bs))
    {bs : List B} {a : A} (base : I bs g a) : Keeps advance P g (bs.foldlM f a) (I []) := by
  induction bs generalizing g a with
  | nil => exact Keeps.ok base
  | cons b bs ih =>
    rw [List.foldlM_cons]
    exact (step b bs g a base).bind fun g' a' h => ih h

end Keeps

/-! ### Calls to blame -/

section Blames
variable {sound blame : L → Prop} {e : F}

/-- Every call is sound, and a program that stops with the error has made a call to blame. -/
def Blames (sound blame : L → Prop) (e : F) (t : Traced L F A) : Prop :=
  (∀ l ∈ t.log, sound l) ∧ (t.result = .error e → ∃ l ∈ t.log, blame l)

theorem Blames.silent {r : Except F A} (other : r ≠ .error e) :
    Blames sound blame e (Traced.silent r : Traced L F A) :=
  ⟨fun _ member => absurd member List.not_mem_nil, fun stopped => absurd stopped other⟩

theorem Blames.ok (a : A) : Blames sound blame e (Traced.silent (.ok a) : Traced L F A) :=
  .silent nofun

theorem Blames.call {l : L} {r : Except F A} (meets : sound l) (stops : r = .error e → blame l) :
    Blames sound blame e (Traced.call l r) :=
  ⟨fun _ member => List.mem_singleton.mp member ▸ meets,
    fun stopped => ⟨l, List.mem_singleton_self l, stops stopped⟩⟩

theorem Blames.bind {t : Traced L F A} {f : A → Traced L F B} (h : Blames sound blame e t)
    (next : ∀ a, Blames sound blame e (f a)) : Blames sound blame e (t >>= f) := by
  obtain ⟨log, result⟩ := t
  cases result with
  | ok a =>
    constructor
    · intro l member
      rcases List.mem_append.mp member with first | rest
      · exact h.1 l first
      · exact (next a).1 l rest
    · intro stopped
      obtain ⟨l, member, bad⟩ := (next a).2 stopped
      exact ⟨l, List.mem_append_right log member, bad⟩
  | error e' => exact ⟨h.1, fun stopped => h.2 (congrArg Except.error (Except.error.inj stopped))⟩

theorem Blames.lifting : Lifting Eq fun t (_ : Traced L F A) => Blames sound blame e t where
  pure _ := Blames.ok _
  bind first next := first.bind fun a => next a a rfl

end Blames

/-! ### Calls of one of several parties -/

section Indexed
variable {ι : Type*} [DecidableEq ι] {G : Type*} {advance : G → L → G} {P : G → L → Prop}

/-- The program with its calls made in the name of `w`. -/
def named {ι : Type*} (w : ι) (t : Traced L F A) : Traced (ι × L) F A :=
  ⟨t.log.map fun l => (w, l), t.result⟩

@[simp] theorem result_named {ι : Type*} (w : ι) (t : Traced L F A) :
    (t.named w).result = t.result := rfl

/-- A call moves the state of its party. -/
def advanceOne (advance : G → L → G) (g : ι → G) (l : ι × L) : ι → G :=
  Function.update g l.1 (advance (g l.1) l.2)

theorem foldl_named (w : ι) (g : ι → G) (log : List L) :
    (log.map fun l => (w, l)).foldl (advanceOne advance) g =
      Function.update g w (log.foldl advance (g w)) := by
  induction log generalizing g with
  | nil => exact (Function.update_eq_self w g).symm
  | cons l log ih =>
    rw [List.map_cons, List.foldl_cons, ih, List.foldl_cons]
    simp [advanceOne]

theorem along_named {w : ι} {g : ι → G} {log : List L} :
    Along (advanceOne advance) (fun g l => P (g l.1) l.2) g (log.map fun l => (w, l)) ↔
      Along advance P (g w) log := by
  induction log generalizing g with
  | nil => exact Iff.rfl
  | cons l log ih =>
    rw [List.map_cons, Along, Along, ih]
    simp [advanceOne]

theorem Blames.named {ι : Type*} {w : ι} {sound blame : L → Prop} {e : F} {t : Traced L F A}
    (h : Blames sound blame e t) :
    Blames (fun l => sound l.2) (fun l => blame l.2) e (t.named w) := by
  constructor
  · intro l member
    obtain ⟨own, there, rfl⟩ := List.mem_map.mp member
    exact h.1 own there
  · intro stopped
    obtain ⟨l, there, bad⟩ := h.2 stopped
    exact ⟨(w, l), List.mem_map_of_mem there, bad⟩

/-- A party's program moves the state of the party alone. -/
theorem Keeps.named {w : ι} {g : ι → G} {t : Traced L F A} {Q : G → A → Prop}
    (h : Keeps advance P (g w) t Q) :
    Keeps (advanceOne advance) (fun g l => P (g l.1) l.2) g (t.named w)
      fun g' a => ∃ own, g' = Function.update g w own ∧ Q own a :=
  ⟨along_named.mpr h.1, fun a returned => ⟨_, foldl_named w g t.log, h.2 a returned⟩⟩

end Indexed

end Traced
