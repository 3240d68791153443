import Mathlib.Algebra.BigOperators.Ring.List
import Mathlib.Algebra.Ring.Nat
import Mathlib.Data.List.Chain
import Mathlib.Data.Set.Insert
import Mathlib.Data.Set.Pairwise.Basic

/-!
# Regions of memory

An allocator hands out regions of a stretch of memory, no two of which overlap, and takes
them back. Its memory is a row of blocks laid end to end; where no two free blocks stand
side by side, whatever stretch no region touches lies within one of them.
-/

namespace Regions

universe u

/-- A stretch of memory: where it begins, and how long it is. -/
structure Region where
  start : Nat
  length : Nat
  deriving DecidableEq, Repr

def Region.Apart (x y : Region) : Prop :=
  x.start + x.length ≤ y.start ∨ y.start + y.length ≤ x.start

theorem Region.Apart.symm {x y : Region} (h : x.Apart y) : y.Apart x := Or.symm h

/-- The regions handed out of the memory from `lo` to `hi`. -/
@[ext]
structure Heap (lo hi : Nat) where
  live : Set Region
  inside : ∀ x ∈ live, lo ≤ x.start ∧ 0 < x.length ∧ x.start + x.length ≤ hi
  apart : live.Pairwise Region.Apart

inductive Event
  | taken (x : Region)
  | refused
  | released (start : Nat)
  deriving DecidableEq, Repr

namespace Heap

variable {lo hi : Nat}

def empty (lo hi : Nat) : Heap lo hi where
  live := ∅
  inside := fun _ member => member.elim
  apart := Set.pairwise_empty _

/-- A region taken is inside the memory and apart from those already handed out; a region is
released by its address. -/
inductive Step : Heap lo hi → Event → Heap lo hi → Prop
  | take {h h' : Heap lo hi} {x : Region} : (∀ y ∈ h.live, x.Apart y) →
      h'.live = insert x h.live → Step h (.taken x) h'
  | refuse {h : Heap lo hi} : Step h .refused h
  | release {h h' : Heap lo hi} {start : Nat} :
      h'.live = {x ∈ h.live | x.start ≠ start} → Step h (.released start) h'

end Heap

/-! ## Blocks laid end to end -/

variable {B : Type u} (size : B → Nat)

def total (bs : List B) : Nat := (bs.map size).sum

/-- Each block with the address where it begins, the first at `r`. -/
def placed : Nat → List B → List (Nat × B)
  | _, [] => []
  | r, b :: bs => (r, b) :: placed (r + size b) bs

variable {size}

@[simp] theorem total_nil : total size [] = 0 := rfl

@[simp] theorem total_cons (b : B) (bs : List B) :
    total size (b :: bs) = size b + total size bs := by
  simp [total]

@[simp] theorem total_append (as bs : List B) :
    total size (as ++ bs) = total size as + total size bs := by
  simp [total]

theorem size_le_total {b : B} {bs : List B} (member : b ∈ bs) : size b ≤ total size bs := by
  induction member with
  | head => simp
  | tail _ _ ih =>
    rw [total_cons]
    exact ih.trans (Nat.le_add_left _ _)

theorem eq_nil_of_total {bs : List B} (positive : ∀ b ∈ bs, 0 < size b)
    (nothing : total size bs = 0) : bs = [] := by
  cases bs with
  | nil => rfl
  | cons b bs =>
    have first := positive b List.mem_cons_self
    rw [total_cons] at nothing
    omega

theorem dvd_total {d : Nat} {bs : List B} (each : ∀ b ∈ bs, d ∣ size b) : d ∣ total size bs := by
  unfold total
  apply List.dvd_sum
  intro n member
  obtain ⟨b, here, rfl⟩ := List.mem_map.mp member
  exact each b here

theorem placed_append (r : Nat) (as bs : List B) :
    placed size r (as ++ bs) = placed size r as ++ placed size (r + total size as) bs := by
  induction as generalizing r with
  | nil => rfl
  | cons a as ih =>
    rw [List.cons_append, placed, placed, ih, total_cons, List.cons_append, Nat.add_assoc]

theorem exists_placed {b : B} {bs : List B} (r : Nat) (member : b ∈ bs) :
    ∃ a, (a, b) ∈ placed size r bs := by
  obtain ⟨pre, post, rfl⟩ := List.append_of_mem member
  rw [placed_append]
  exact ⟨_, List.mem_append_right _ List.mem_cons_self⟩

theorem placed_bounds {r a : Nat} {b : B} {bs : List B} (member : (a, b) ∈ placed size r bs) :
    b ∈ bs ∧ r ≤ a ∧ a + size b ≤ r + total size bs := by
  induction bs generalizing r with
  | nil => exact (List.not_mem_nil member).elim
  | cons c bs ih =>
    rw [total_cons]
    rcases List.mem_cons.mp member with same | later
    · obtain ⟨rfl, rfl⟩ := Prod.mk.inj same
      exact ⟨List.mem_cons_self, by omega, by omega⟩
    · obtain ⟨inside, low, high⟩ := ih later
      exact ⟨List.mem_cons_of_mem _ inside, by omega, by omega⟩

theorem placed_dvd {d r a : Nat} {b : B} {bs : List B} (start : d ∣ r)
    (each : ∀ c ∈ bs, d ∣ size c) (member : (a, b) ∈ placed size r bs) : d ∣ a := by
  induction bs generalizing r with
  | nil => exact (List.not_mem_nil member).elim
  | cons c bs ih =>
    rcases List.mem_cons.mp member with same | later
    · exact (Prod.mk.inj same).1 ▸ start
    · exact ih (Nat.dvd_add start (each c List.mem_cons_self))
        (fun c' here => each c' (List.mem_cons_of_mem _ here)) later

theorem placed_apart {r a a' : Nat} {b b' : B} {bs : List B} (member : (a, b) ∈ placed size r bs)
    (member' : (a', b') ∈ placed size r bs) :
    a = a' ∧ b = b' ∨ Region.Apart ⟨a, size b⟩ ⟨a', size b'⟩ := by
  induction bs generalizing r with
  | nil => exact (List.not_mem_nil member).elim
  | cons c bs ih =>
    rcases List.mem_cons.mp member with first | later
    · obtain ⟨rfl, rfl⟩ := Prod.mk.inj first
      rcases List.mem_cons.mp member' with first' | later'
      · obtain ⟨rfl, rfl⟩ := Prod.mk.inj first'
        exact .inl ⟨rfl, rfl⟩
      · exact .inr (.inl (placed_bounds later').2.1)
    · rcases List.mem_cons.mp member' with first' | later'
      · obtain ⟨rfl, rfl⟩ := Prod.mk.inj first'
        exact .inr (.inr (placed_bounds later).2.1)
      · exact ih later later'

/-- The regions of the blocks that are not free. -/
def liveOf (size : B → Nat) (free : B → Prop) (r : Nat) (bs : List B) : Set Region :=
  {x | ∃ b, (x.start, b) ∈ placed size r bs ∧ ¬ free b ∧ size b = x.length}

variable {free : B → Prop}

theorem liveOf_inside {r : Nat} {bs : List B} (positive : ∀ b ∈ bs, 0 < size b) {x : Region}
    (member : x ∈ liveOf size free r bs) :
    r ≤ x.start ∧ 0 < x.length ∧ x.start + x.length ≤ r + total size bs := by
  obtain ⟨b, here, -, length⟩ := member
  obtain ⟨inside, low, high⟩ := placed_bounds here
  rw [← length]
  exact ⟨low, positive b inside, high⟩

theorem liveOf_apart {r : Nat} {bs : List B} :
    (liveOf size free r bs).Pairwise Region.Apart := by
  rintro ⟨a, n⟩ ⟨b, here, -, rfl⟩ ⟨a', n'⟩ ⟨b', here', -, rfl⟩ distinct
  rcases placed_apart here here' with ⟨rfl, rfl⟩ | apart
  · exact absurd rfl distinct
  · exact apart

theorem liveOf_append (r : Nat) (as bs : List B) :
    liveOf size free r (as ++ bs) =
      liveOf size free r as ∪ liveOf size free (r + total size as) bs := by
  ext x
  constructor
  · rintro ⟨b, here, rest⟩
    rw [placed_append] at here
    rcases List.mem_append.mp here with first | later
    · exact .inl ⟨b, first, rest⟩
    · exact .inr ⟨b, later, rest⟩
  · rintro (⟨b, here, rest⟩ | ⟨b, here, rest⟩)
    · exact ⟨b, placed_append r as bs ▸ List.mem_append_left _ here, rest⟩
    · exact ⟨b, placed_append r as bs ▸ List.mem_append_right _ here, rest⟩

theorem liveOf_free {r : Nat} {bs : List B} (all : ∀ b ∈ bs, free b) :
    liveOf size free r bs = ∅ := by
  refine Set.eq_empty_iff_forall_notMem.mpr ?_
  rintro x ⟨b, here, taken, -⟩
  exact taken (all b (placed_bounds here).1)

theorem liveOf_taken {r : Nat} {b : B} (taken : ¬ free b) :
    liveOf size free r [b] = {⟨r, size b⟩} := by
  ext x
  constructor
  · rintro ⟨c, here, -, length⟩
    obtain ⟨rfl, rfl⟩ := Prod.mk.inj (List.mem_singleton.mp here)
    exact Set.mem_singleton_iff.mpr (Region.mk.injEq .. ▸ ⟨rfl, length.symm⟩)
  · rintro rfl
    exact ⟨b, List.mem_singleton_self _, taken, rfl⟩

theorem liveOf_cons (r : Nat) (b : B) (bs : List B) :
    liveOf size free r (b :: bs) =
      liveOf size free r [b] ∪ liveOf size free (r + size b) bs := by
  have apart : liveOf size free r ([b] ++ bs) = _ := liveOf_append r [b] bs
  rwa [total_cons, total_nil, Nat.add_zero] at apart

theorem liveOf_cons_free {r : Nat} {b : B} (unused : free b) (bs : List B) :
    liveOf size free r (b :: bs) = liveOf size free (r + size b) bs := by
  rw [liveOf_cons, liveOf_free (by simpa using unused), Set.empty_union]

theorem liveOf_cons_taken {r : Nat} {b : B} (taken : ¬ free b) (bs : List B) :
    liveOf size free r (b :: bs) = insert ⟨r, size b⟩ (liveOf size free (r + size b) bs) := by
  rw [liveOf_cons, liveOf_taken taken, Set.singleton_union]

/-- Without the block at an address no region begins there, and the others are left. -/
theorem liveOf_released {r : Nat} {as bs : List B} {b : B}
    (positive : ∀ c ∈ as ++ b :: bs, 0 < size c) :
    liveOf size free r as ∪ liveOf size free (r + total size as + size b) bs =
      {x ∈ liveOf size free r (as ++ b :: bs) | x.start ≠ r + total size as} := by
  have here := positive b (List.mem_append_right _ List.mem_cons_self)
  ext x
  rw [liveOf_append, liveOf_cons]
  constructor
  · rintro (first | second)
    · have bounds :=
        liveOf_inside (fun c member => positive c (List.mem_append_left _ member)) first
      exact ⟨.inl first, by omega⟩
    · have bounds := liveOf_inside (fun c member =>
        positive c (List.mem_append_right _ (List.mem_cons_of_mem _ member))) second
      exact ⟨.inr (.inr second), by omega⟩
  · rintro ⟨first | ⟨c, at_b, -, -⟩ | second, elsewhere⟩
    · exact .inl first
    · exact absurd (Prod.mk.inj (List.mem_singleton.mp at_b)).1 elsewhere
    · exact .inr second

/-- No two free blocks stand side by side. -/
def Settled (free : B → Prop) (bs : List B) : Prop :=
  bs.IsChain fun b c => ¬ (free b ∧ free c)

theorem Settled.append {as bs : List B} (first : Settled free as) (second : Settled free bs)
    (between : ∀ a ∈ as.getLast?, ∀ b ∈ bs.head?, ¬ (free a ∧ free b)) :
    Settled free (as ++ bs) :=
  List.isChain_append.mpr ⟨first, second, between⟩

theorem Settled.left {as bs : List B} (h : Settled free (as ++ bs)) : Settled free as :=
  (List.isChain_append.mp h).1

theorem Settled.right {as bs : List B} (h : Settled free (as ++ bs)) : Settled free bs :=
  (List.isChain_append.mp h).2.1

theorem Settled.before {as bs : List B} {b : B} (h : Settled free (as ++ b :: bs))
    (unused : free b) : ∀ a ∈ as.getLast?, ¬ free a :=
  fun a last both => (List.isChain_append.mp h).2.2 a last b rfl ⟨both, unused⟩

theorem Settled.behind {b : B} {bs : List B} (h : Settled free (b :: bs)) (unused : free b) :
    ∀ c ∈ bs.head?, ¬ free c :=
  fun c first both => (List.isChain_cons.mp h).1 c first ⟨unused, both⟩

/-- A block may be set free where its neighbours are not. -/
theorem Settled.surrounded {as bs : List B} {b : B} (first : Settled free as)
    (second : Settled free bs) (before : ∀ a ∈ as.getLast?, ¬ free a)
    (behind : ∀ c ∈ bs.head?, ¬ free c) : Settled free (as ++ b :: bs) :=
  first.append (List.isChain_cons.mpr ⟨fun c next both => behind c next both.2, second⟩)
    fun a last _ _ both => before a last both.1

/-- What no region touches lies within one free block. -/
theorem Settled.within {r : Nat} {bs : List B} (settled : Settled free bs)
    (positive : ∀ b ∈ bs, 0 < size b) (gap : Region) (used : 0 < gap.length)
    (low : r ≤ gap.start) (high : gap.start + gap.length ≤ r + total size bs)
    (apart : ∀ x ∈ liveOf size free r bs, gap.Apart x) :
    ∃ a b, (a, b) ∈ placed size r bs ∧ free b ∧
      a ≤ gap.start ∧ gap.start + gap.length ≤ a + size b := by
  induction bs generalizing r with
  | nil =>
    rw [total_nil] at high
    omega
  | cons b bs ih =>
    rw [total_cons] at high
    have later : ∀ x ∈ liveOf size free (r + size b) bs, gap.Apart x := by
      rintro x ⟨c, here, taken⟩
      exact apart x ⟨c, .tail _ here, taken⟩
    rcases Nat.lt_or_ge gap.start (r + size b) with here | behind
    · have unused : free b := by
        by_contra taken
        rcases apart ⟨r, size b⟩ ⟨b, .head _, taken, rfl⟩ with before | after <;>
          · simp only at *
            omega
      refine ⟨r, b, .head _, unused, low, ?_⟩
      by_contra long
      cases bs with
      | nil =>
        rw [total_nil] at high
        omega
      | cons c bs =>
        -- A free block is followed by one that is not, which the stretch would touch.
        have taken : ¬ free c := fun both =>
          (List.isChain_cons_cons.mp settled).1 ⟨unused, both⟩
        have next := positive c (.tail _ (.head _))
        rcases later ⟨r + size b, size c⟩ ⟨c, .head _, taken, rfl⟩ with before | after <;>
          · simp only at *
            omega
    · obtain ⟨a, c, place, rest⟩ := ih (List.IsChain.tail settled)
        (fun c member => positive c (.tail _ member)) behind (by omega) later
      exact ⟨a, c, .tail _ place, rest⟩

end Regions
