import Ucimf.Support.Lifting

/-!
# Outcomes of fallible programs

`Ends tolerated r Q` is a postcondition for a program that may stop with an error: it
returns a value in `Q`, or the error is one that the caller has agreed to tolerate. No
other error can occur.
-/

namespace Outcome

universe u v w
variable {E : Type u} {A : Type v} {B : Type w}

@[simp] theorem ok_bind {B : Type v} (a : A) (f : A → Except E B) :
    ((Except.ok a : Except E A) >>= f) = f a := rfl

@[simp] theorem error_bind {B : Type v} (e : E) (f : A → Except E B) :
    ((Except.error e : Except E A) >>= f) = .error e := rfl

theorem bind_eq_ok {B : Type v} {r : Except E A} {f : A → Except E B} {b : B} :
    r >>= f = .ok b ↔ ∃ a, r = .ok a ∧ f a = .ok b := by
  cases r with
  | ok a => exact ⟨fun h => ⟨a, rfl, h⟩, fun ⟨_, same, h⟩ => Except.ok.inj same ▸ h⟩
  | error e => exact ⟨fun h => (nomatch h), fun ⟨_, same, _⟩ => (nomatch same)⟩

theorem map_eq_ok {B : Type v} {r : Except E A} {f : A → B} {b : B} :
    f <$> r = .ok b ↔ ∃ a, r = .ok a ∧ f a = b := by
  cases r with
  | ok a =>
    constructor
    · intro h
      exact ⟨a, rfl, Except.ok.inj h⟩
    · rintro ⟨_, same, h⟩
      exact congrArg Except.ok (Except.ok.inj same ▸ h)
  | error e => exact ⟨fun h => (nomatch h), fun ⟨_, same, _⟩ => (nomatch same)⟩

theorem exists_map_ok {B : Type v} {r : Except E A} {f : A → B} :
    (∃ b, f <$> r = .ok b) ↔ ∃ a, r = .ok a := by
  constructor
  · rintro ⟨b, mapped⟩
    obtain ⟨a, returned, -⟩ := map_eq_ok.mp mapped
    exact ⟨a, returned⟩
  · rintro ⟨a, returned⟩
    exact ⟨f a, map_eq_ok.mpr ⟨a, returned, rfl⟩⟩

theorem ok_of_toOption {r : Except E A} {a : A} (returned : r.toOption = some a) : r = .ok a := by
  cases r with
  | ok b => exact congrArg Except.ok (Option.some.inj returned)
  | error e => nomatch returned

/-- A loop of checks that are all passed. -/
theorem forM_eq_ok {l : List A} {f : A → Except E PUnit} (passed : ∀ a ∈ l, f a = .ok ⟨⟩) :
    l.forM f = .ok ⟨⟩ := by
  induction l with
  | nil => rfl
  | cons a l ih =>
    rw [List.forM_eq_forM, List.forM_cons, passed a List.mem_cons_self, ok_bind]
    exact ih fun b member => passed b (.tail _ member)

def Ends (tolerated : E → Prop) (r : Except E A) (Q : A → Prop) : Prop :=
  match r with
  | .ok a => Q a
  | .error e => tolerated e

variable {tolerated : E → Prop}

@[simp] theorem ends_ok {a : A} {Q : A → Prop} :
    Ends tolerated (.ok a : Except E A) Q ↔ Q a := Iff.rfl

@[simp] theorem ends_error {e : E} {Q : A → Prop} :
    Ends tolerated (.error e : Except E A) Q ↔ tolerated e := Iff.rfl

theorem Ends.intro {r : Except E A} {Q : A → Prop} {a : A} (returned : r = .ok a) (h : Q a) :
    Ends tolerated r Q := by
  rw [returned]
  exact h

theorem Ends.mono {r : Except E A} {P Q : A → Prop} (h : Ends tolerated r P)
    (imp : ∀ a, P a → Q a) : Ends tolerated r Q := by
  cases r with
  | ok a => exact imp a h
  | error e => exact h

theorem Ends.map {B : Type v} {r : Except E A} {f : A → B} {P : A → Prop} {Q : B → Prop}
    (h : Ends tolerated r P) (imp : ∀ a, P a → Q (f a)) : Ends tolerated (f <$> r) Q := by
  cases r with
  | ok a => exact imp a h
  | error e => exact h

theorem Ends.weaken {stricter : E → Prop} {r : Except E A} {Q : A → Prop}
    (h : Ends stricter r Q) (imp : ∀ e, stricter e → tolerated e) : Ends tolerated r Q := by
  cases r with
  | ok a => exact h
  | error e => exact imp e h

theorem Ends.of_exists {r : Except E A} {Q : A → Prop} (h : ∃ a, r = .ok a ∧ Q a) :
    Ends tolerated r Q := by
  obtain ⟨a, returned, holds⟩ := h
  exact Ends.intro returned holds

theorem Ends.bind {B : Type v} {r : Except E A} {f : A → Except E B} {P : A → Prop}
    {Q : B → Prop} (h : Ends tolerated r P) (next : ∀ a, P a → Ends tolerated (f a) Q) :
    Ends tolerated (r >>= f) Q := by
  cases r with
  | ok a => exact next a h
  | error e => exact h

/-- The rule for loops over a list; the invariant may speak of the elements to come. -/
theorem Ends.foldlM {f : A → B → Except E A} (I : List B → A → Prop)
    (step : ∀ b bs a, I (b :: bs) a → Ends tolerated (f a b) (I bs))
    {bs : List B} {a : A} (base : I bs a) : Ends tolerated (bs.foldlM f a) (I []) := by
  induction bs generalizing a with
  | nil => exact base
  | cons b bs ih =>
    rw [List.foldlM_cons]
    exact (step b bs a base).bind fun a' h => ih h

/-- A loop that appends what each element gives returns when every element gives something. -/
theorem foldlM_append_eq_ok_iff {f : A → Except E (List B)} {g : A → List B} {P : A → Prop}
    {l : List A} {out res : List B} (gives : ∀ a ∈ l, ∀ bs, f a = .ok bs ↔ P a ∧ bs = g a) :
    l.foldlM (fun out a => (out ++ ·) <$> f a) out = .ok res ↔
      (∀ a ∈ l, P a) ∧ res = out ++ l.flatMap g := by
  induction l generalizing out with
  | nil =>
    rw [List.foldlM_nil, List.flatMap_nil, List.append_nil]
    exact ⟨fun same => ⟨nofun, (Except.ok.inj same).symm⟩,
      fun same => congrArg Except.ok same.2.symm⟩
  | cons a l ih =>
    rw [List.foldlM_cons, bind_eq_ok]
    have first := gives a List.mem_cons_self
    have others {out : List B} : l.foldlM (fun out a => (out ++ ·) <$> f a) out = .ok res ↔
        (∀ a ∈ l, P a) ∧ res = out ++ l.flatMap g :=
      ih fun b member => gives b (.tail _ member)
    constructor
    · rintro ⟨mid, given, rest⟩
      obtain ⟨bs, here, rfl⟩ := map_eq_ok.mp given
      obtain ⟨holds, rfl⟩ := (first bs).mp here
      obtain ⟨all, rfl⟩ := others.mp rest
      exact ⟨List.forall_mem_cons.mpr ⟨holds, all⟩, by rw [List.flatMap_cons, List.append_assoc]⟩
    · rintro ⟨all, rfl⟩
      obtain ⟨holds, rest⟩ := List.forall_mem_cons.mp all
      refine ⟨_, map_eq_ok.mpr ⟨_, (first _).mpr ⟨holds, rfl⟩, rfl⟩, others.mpr ⟨rest, ?_⟩⟩
      rw [List.flatMap_cons, List.append_assoc]

/-- A program whose only errors are tolerated returns when those are excluded. -/
theorem Ends.exists_ok {r : Except E A} {Q : A → Prop} (h : Ends tolerated r Q)
    (excluded : ∀ e, r = .error e → ¬ tolerated e) : ∃ a, r = .ok a ∧ Q a := by
  cases r with
  | ok a => exact ⟨a, rfl, h⟩
  | error e => exact absurd h (excluded e rfl)

theorem Ends.of_ok {r : Except E A} {Q : A → Prop} (h : Ends tolerated r Q) {a : A}
    (returned : r = .ok a) : Q a := by
  subst returned
  exact h

/-! ### Two programs in step -/

/-- The first program does what the second one does: where that returns, it returns a related
value, and where that stops, it stops with the same error. A free error promises nothing. -/
def Tracks (free : E → Prop) (R : A → B → Prop) (x : Except E A) (y : Except E B) : Prop :=
  match y with
  | .ok b => ∃ a, x = .ok a ∧ R a b
  | .error e => free e ∨ x = .error e

section Tracks
variable {free : E → Prop} {R : A → B → Prop} {x : Except E A} {y : Except E B}

theorem Tracks.ok {a : A} {b : B} (h : R a b) :
    Tracks free R (.ok a : Except E A) (.ok b) := ⟨a, rfl, h⟩

theorem Tracks.error (e : E) : Tracks free R (.error e : Except E A) (.error e : Except E B) :=
  .inr rfl

theorem Tracks.bind {C : Type v} {D : Type w} {S : C → D → Prop} {f : A → Except E C}
    {g : B → Except E D} (h : Tracks free R x y)
    (next : ∀ a b, R a b → Tracks free S (f a) (g b)) : Tracks free S (x >>= f) (y >>= g) := by
  cases y with
  | ok b =>
    obtain ⟨a, rfl, related⟩ := h
    exact next a b related
  | error e =>
    rcases h with tolerated | rfl
    · exact .inl tolerated
    · exact .inr rfl

/-- The result of a function of what the second program returns. -/
theorem Tracks.of_map {T : Type w} {y : Except E T} {f : T → B}
    (h : Tracks free R x (y >>= fun t => .ok (f t))) :
    Tracks free (fun a t => R a (f t)) x y := by
  cases y with
  | ok t => exact h
  | error e => exact h

theorem Tracks.lifting {A B : Type v} {R : A → B → Prop} :
    Lifting R (Tracks free R : Except E A → Except E B → Prop) where
  pure := Tracks.ok
  bind := Tracks.bind

theorem Tracks.error_iff (h : Tracks free R x y) (bounded : ∀ e, y = .error e → ¬ free e) (e : E) :
    x = .error e ↔ y = .error e := by
  cases y with
  | ok b =>
    obtain ⟨a, rfl, -⟩ := h
    exact ⟨nofun, nofun⟩
  | error e' =>
    rcases h with tolerated | rfl
    · exact absurd tolerated (bounded e' rfl)
    · exact ⟨fun same => congrArg Except.error (Except.error.inj same),
        fun same => congrArg Except.error (Except.error.inj same)⟩

end Tracks

end Outcome
