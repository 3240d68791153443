import Ucimf.Support.Layers
import Mathlib.Order.Interval.Set.Defs
import Mathlib.Data.Nat.ModEq

/-!
# Bytes, words and walking pointers

A memory gives a byte to every address. A program that only stores words is the list of
its stores, a loop that moves words from one memory to another the list of its copies.
Words may overlap, so what counts at an address is whether the words over it agree there.
-/

namespace ByteMemory

open Compositing

abbrev Bytes := Nat → UInt8

/-- Byte `i` of a value, the lowest one first. -/
def byteOf (value i : Nat) : UInt8 := UInt8.ofNat (value / 256 ^ i)

theorem byteOf_succ (value i : Nat) : byteOf value (i + 1) = byteOf (value / 256) i := by
  rw [byteOf, byteOf, Nat.div_div_eq_div_mul, pow_succ']

/-- The little-endian value of the `n` bytes from `a` on. -/
def load (m : Bytes) (a : Nat) : Nat → Nat
  | 0 => 0
  | n + 1 => (m a).toNat + 256 * load m (a + 1) n

theorem load_lt (m : Bytes) (a n : Nat) : load m a n < 256 ^ n := by
  induction n generalizing a with
  | zero => exact Nat.one_pos
  | succ n ih =>
    have rest := ih (a + 1)
    have byte := (m a).toNat_lt
    rw [load, Nat.pow_succ]
    omega

theorem byteOf_load (m : Bytes) (a : Nat) {n i : Nat} (inside : i < n) :
    byteOf (load m a n) i = m (a + i) := by
  induction i generalizing a n with
  | zero =>
    obtain ⟨n, rfl⟩ := Nat.exists_eq_succ_of_ne_zero inside.ne'
    apply UInt8.toNat_inj.mp
    have small := (m a).toNat_lt
    simp only [byteOf, load, pow_zero, Nat.div_one, UInt8.toNat_ofNat', add_zero]
    omega
  | succ i ih =>
    cases n with
    | zero => omega
    | succ n =>
      have small := (m a).toNat_lt
      have rest : load m a (n + 1) / 256 = load m (a + 1) n := by
        rw [load]
        omega
      rw [byteOf_succ, rest, ih (a + 1) (by omega)]
      congr 1
      omega

/-! ### Stores -/

/-- The lowest `word` bytes of `value`, written from `addr` on. -/
structure Store where
  word : Nat
  addr : Nat
  value : Nat
  deriving DecidableEq, Repr

def Store.bytes (s : Store) : Set Nat := Set.Ico s.addr (s.addr + s.word)

@[simp] theorem Store.mem_bytes {s : Store} {a : Nat} :
    a ∈ s.bytes ↔ s.addr ≤ a ∧ a < s.addr + s.word := Iff.rfl

/-- The byte the store puts at `a`. -/
def Store.byteAt (s : Store) (a : Nat) : UInt8 := byteOf s.value (a - s.addr)

def Store.apply (s : Store) (m : Bytes) : Bytes := fun a =>
  if s.addr ≤ a ∧ a < s.addr + s.word then s.byteAt a else m a

def write (stores : List Store) (m : Bytes) : Bytes := stores.foldl (fun m s => s.apply m) m

/-- A store is a layer over the memory. -/
def Store.layer (s : Store) : Layer Nat UInt8 := ⟨s.bytes, s.byteAt⟩

theorem Store.apply_eq_over (s : Store) (m : Bytes) : s.apply m = s.layer.over m := by
  funext a
  by_cases inside : s.addr ≤ a ∧ a < s.addr + s.word
  · rw [Store.apply, if_pos inside]
    exact (Layer.over_of_mem m (l := s.layer) inside).symm
  · rw [Store.apply, if_neg inside]
    exact (Layer.over_of_notMem m (l := s.layer) inside).symm

theorem write_eq_composite (stores : List Store) (m : Bytes) :
    write stores m = composite m (stores.map Store.layer) := by
  induction stores generalizing m with
  | nil => rfl
  | cons s stores ih =>
    rw [List.map_cons, composite_cons, ← Store.apply_eq_over, ← ih]
    rfl

theorem write_append (as bs : List Store) (m : Bytes) :
    write (as ++ bs) m = write bs (write as m) := List.foldl_append

/-- A fallible loop each of whose rounds makes its stores. -/
theorem foldlM_write {P E : Type} {act : Bytes → P → Except E Bytes} {stores : P → List Store}
    {ps : List P} (acts : ∀ p ∈ ps, ∀ m, act m p = .ok (write (stores p) m)) (m : Bytes) :
    ps.foldlM act m = .ok (write (ps.flatMap stores) m) := by
  induction ps generalizing m with
  | nil => rfl
  | cons p ps ih =>
    rw [List.foldlM_cons, acts p List.mem_cons_self m, List.flatMap_cons, write_append]
    exact ih (fun q hq => acts q (List.mem_cons_of_mem p hq)) _

theorem write_of_agree {stores : List Store} (m : Bytes) {a : Nat} {b : UInt8}
    (covered : ∃ s ∈ stores, a ∈ s.bytes) (agree : ∀ s ∈ stores, a ∈ s.bytes → s.byteAt a = b) :
    write stores m a = b := by
  rw [write_eq_composite]
  apply composite_of_agree
  · obtain ⟨s, hs, ha⟩ := covered
    exact ⟨s.layer, List.mem_map_of_mem hs, ha⟩
  · intro l hl ha
    obtain ⟨s, hs, rfl⟩ := List.mem_map.mp hl
    exact agree s hs ha

theorem write_of_untouched {stores : List Store} (m : Bytes) {a : Nat}
    (clear : ∀ s ∈ stores, a ∉ s.bytes) : write stores m a = m a := by
  rw [write_eq_composite]
  apply composite_of_uncovered
  intro l hl
  obtain ⟨s, hs, rfl⟩ := List.mem_map.mp hl
  exact clear s hs

/-- The stores lie within the `size` bytes from `start` on and leave none of them out. -/
structure Spans (start size : Nat) (stores : List Store) : Prop where
  covers : ∀ a, start ≤ a → a < start + size → ∃ s ∈ stores, a ∈ s.bytes
  within : ∀ s ∈ stores, start ≤ s.addr ∧ s.addr + s.word ≤ start + size

theorem spans_nil (start : Nat) : Spans start 0 [] where
  covers _ low high := absurd high (Nat.not_lt.mpr low)
  within _ hs := absurd hs List.not_mem_nil

theorem spans_store (word start value : Nat) : Spans start word [⟨word, start, value⟩] where
  covers a low high := ⟨_, List.mem_singleton_self _, low, high⟩
  within s hs := by
    obtain rfl := List.mem_singleton.mp hs
    exact ⟨le_rfl, le_rfl⟩

theorem Spans.append {start m n : Nat} {as bs : List Store} (front : Spans start m as)
    (back : Spans (start + m) n bs) : Spans start (m + n) (as ++ bs) where
  covers a low high := by
    by_cases first : a < start + m
    · obtain ⟨s, hs, ha⟩ := front.covers a low first
      exact ⟨s, List.mem_append_left _ hs, ha⟩
    · obtain ⟨s, hs, ha⟩ := back.covers a (by omega) (by omega)
      exact ⟨s, List.mem_append_right _ hs, ha⟩
  within s hs := by
    rcases List.mem_append.mp hs with hs | hs
    · have bounds := front.within s hs
      omega
    · have bounds := back.within s hs
      omega

/-! ### Copies between two memories -/

/-- A word read at `src` of one memory and written at `dst` of another. -/
structure Copy where
  word : Nat
  src : Nat
  dst : Nat
  deriving DecidableEq, Repr

def Copy.reads (c : Copy) : Set Nat := Set.Ico c.src (c.src + c.word)

def Copy.writes (c : Copy) : Set Nat := Set.Ico c.dst (c.dst + c.word)

@[simp] theorem Copy.mem_reads {c : Copy} {a : Nat} :
    a ∈ c.reads ↔ c.src ≤ a ∧ a < c.src + c.word := Iff.rfl

@[simp] theorem Copy.mem_writes {c : Copy} {a : Nat} :
    a ∈ c.writes ↔ c.dst ≤ a ∧ a < c.dst + c.word := Iff.rfl

def Copy.store (c : Copy) (source : Bytes) : Store := ⟨c.word, c.dst, load source c.src c.word⟩

def copy (copies : List Copy) (source target : Bytes) : Bytes :=
  write (copies.map (·.store source)) target

theorem Copy.store_byteAt (c : Copy) (source : Bytes) {a : Nat} (ha : a ∈ c.writes) :
    (c.store source).byteAt a = source (c.src + (a - c.dst)) := by
  have bounds := c.mem_writes.mp ha
  exact byteOf_load source c.src (i := a - c.dst) (by omega)

theorem copy_of_agree {copies : List Copy} {source : Bytes} (target : Bytes) {a : Nat} {b : UInt8}
    (covered : ∃ c ∈ copies, a ∈ c.writes)
    (agree : ∀ c ∈ copies, a ∈ c.writes → source (c.src + (a - c.dst)) = b) :
    copy copies source target a = b := by
  apply write_of_agree
  · obtain ⟨c, hc, ha⟩ := covered
    exact ⟨c.store source, List.mem_map_of_mem hc, ha⟩
  · intro s hs ha
    obtain ⟨c, hc, rfl⟩ := List.mem_map.mp hs
    rw [c.store_byteAt source ha]
    exact agree c hc ha

theorem copy_of_untouched {copies : List Copy} (source target : Bytes) {a : Nat}
    (clear : ∀ c ∈ copies, a ∉ c.writes) : copy copies source target a = target a := by
  apply write_of_untouched
  intro s hs
  obtain ⟨c, hc, rfl⟩ := List.mem_map.mp hs
  exact clear c hc

/-! ### Walking pointers -/

/-- `count` words copied by two pointers, which both move on by `step` after each word. -/
def walk (word step : Nat) : Nat → Nat → Nat → List Copy
  | 0, _, _ => []
  | count + 1, src, dst => ⟨word, src, dst⟩ :: walk word step count (src + step) (dst + step)

theorem mem_walk {word step count src dst : Nat} {c : Copy} :
    c ∈ walk word step count src dst ↔
      ∃ k < count, c = ⟨word, src + k * step, dst + k * step⟩ := by
  induction count generalizing src dst with
  | zero => simp [walk]
  | succ count ih =>
    rw [walk, List.mem_cons, ih]
    constructor
    · rintro (rfl | ⟨k, hk, rfl⟩)
      · exact ⟨0, by omega, by simp⟩
      · refine ⟨k + 1, by omega, ?_⟩
        simp only [Nat.add_mul, one_mul, add_assoc, Nat.add_comm step]
    · rintro ⟨k, hk, rfl⟩
      cases k with
      | zero => exact .inl (by simp)
      | succ k =>
        refine .inr ⟨k, by omega, ?_⟩
        simp only [Nat.add_mul, one_mul, add_assoc, Nat.add_comm step]

theorem walk_append (word step m n src dst : Nat) :
    walk word step (m + n) src dst =
      walk word step m src dst ++ walk word step n (src + m * step) (dst + m * step) := by
  induction m generalizing src dst with
  | zero => simp [walk]
  | succ m ih =>
    rw [Nat.succ_add, walk, walk, ih, List.cons_append]
    simp only [Nat.add_mul, one_mul, add_assoc, Nat.add_comm step]

/-- A block of rows: the two row pointers move on by a stride of their own. -/
def lines (row : Nat → Nat → List Copy) (srcLine dstLine : Nat) : Nat → Nat → Nat → List Copy
  | 0, _, _ => []
  | height + 1, src, dst =>
    row src dst ++ lines row srcLine dstLine height (src + srcLine) (dst + dstLine)

theorem lines_one (row : Nat → Nat → List Copy) (srcLine dstLine src dst : Nat) :
    lines row srcLine dstLine 1 src dst = row src dst := List.append_nil _

theorem mem_lines {row : Nat → Nat → List Copy} {srcLine dstLine height src dst : Nat} {c : Copy} :
    c ∈ lines row srcLine dstLine height src dst ↔
      ∃ j < height, c ∈ row (src + j * srcLine) (dst + j * dstLine) := by
  induction height generalizing src dst with
  | zero => simp [lines]
  | succ height ih =>
    rw [lines, List.mem_append, ih]
    constructor
    · rintro (here | ⟨j, hj, there⟩)
      · exact ⟨0, by omega, by simpa using here⟩
      · refine ⟨j + 1, by omega, ?_⟩
        simpa only [Nat.add_mul, one_mul, add_assoc, Nat.add_comm srcLine,
          Nat.add_comm dstLine] using there
    · rintro ⟨j, hj, there⟩
      cases j with
      | zero => exact .inl (by simpa using there)
      | succ j =>
        refine .inr ⟨j, by omega, ?_⟩
        simpa only [Nat.add_mul, one_mul, add_assoc, Nat.add_comm srcLine,
          Nat.add_comm dstLine] using there

/-! ### Blocks of rows -/

/-- The bytes of `height` rows of `width` bytes, one row every `line` bytes from `base` on. -/
def block (base line height width : Nat) : Set Nat :=
  {a | ∃ j < height, ∃ i < width, a = base + j * line + i}

theorem row_unique {line j j' i i' : Nat} (hi : i < line) (hi' : i' < line)
    (same : j * line + i = j' * line + i') : j = j' ∧ i = i' := by
  have positive : 0 < line := Nat.zero_lt_of_lt hi
  have row := congrArg (· / line) same
  have column := congrArg (· % line) same
  simp only [Nat.mul_comm _ line, Nat.mul_add_div positive, Nat.mul_add_mod,
    Nat.div_eq_of_lt hi, Nat.div_eq_of_lt hi', Nat.mod_eq_of_lt hi, Nat.mod_eq_of_lt hi',
    add_zero] at row column
  exact ⟨row, column⟩

theorem row_lt {line j height i : Nat} (hj : j < height) (hi : i < line) :
    j * line + i < height * line := by
  have step : (j + 1) * line ≤ height * line := Nat.mul_le_mul_right line hj
  rw [Nat.add_mul, one_mul] at step
  omega

section Block
variable {word step count height srcLine dstLine src dst : Nat}

theorem mem_lines_walk {c : Copy} :
    c ∈ lines (walk word step count) srcLine dstLine height src dst ↔
      ∃ j < height, ∃ k < count,
        c = ⟨word, src + j * srcLine + k * step, dst + j * dstLine + k * step⟩ := by
  simp only [mem_lines, mem_walk]

/-- Every byte of a row of words lies in one of them. -/
theorem exists_word {i : Nat} (hi : i < count * step) :
    ∃ k < count, k * step ≤ i ∧ i < k * step + step := by
  have positive : 0 < step := Nat.pos_of_ne_zero fun zero => by simp [zero] at hi
  refine ⟨i / step, Nat.div_lt_of_lt_mul (by rwa [Nat.mul_comm]), Nat.div_mul_le_self i step, ?_⟩
  exact Nat.lt_div_mul_add positive

theorem writes_block {c : Copy}
    (hc : c ∈ lines (walk step step count) srcLine dstLine height src dst) {a : Nat}
    (ha : a ∈ c.writes) : ∃ j < height, ∃ i < count * step,
      a = dst + j * dstLine + i ∧ c.src + (a - c.dst) = src + j * srcLine + i := by
  obtain ⟨j, hj, k, hk, rfl⟩ := mem_lines_walk.mp hc
  have bounds := Copy.mem_writes.mp ha
  dsimp only at bounds ⊢
  have offset : a - (dst + j * dstLine + k * step) < step := by omega
  have inside := row_lt hk offset
  exact ⟨j, hj, _, inside, by omega, by omega⟩

theorem reads_block {c : Copy}
    (hc : c ∈ lines (walk step step count) srcLine dstLine height src dst) {a : Nat}
    (ha : a ∈ c.reads) : a ∈ block src srcLine height (count * step) := by
  obtain ⟨j, hj, k, hk, rfl⟩ := mem_lines_walk.mp hc
  have bounds := Copy.mem_reads.mp ha
  dsimp only at bounds
  have offset : a - (src + j * srcLine + k * step) < step := by omega
  have inside := row_lt hk offset
  exact ⟨j, hj, _, inside, by omega⟩

theorem copy_block_of_notMem (source target : Bytes) {a : Nat}
    (off : a ∉ block dst dstLine height (count * step)) :
    copy (lines (walk step step count) srcLine dstLine height src dst) source target a =
      target a := by
  apply copy_of_untouched
  intro c hc ha
  obtain ⟨j, hj, i, hi, same, -⟩ := writes_block hc ha
  exact off ⟨j, hj, i, hi, same⟩

/-- Copying a block whose source already holds `g` makes the target `g` there. -/
theorem copy_block_of_mem {source g : Bytes} (target : Bytes)
    (holds : ∀ j < height, ∀ i < count * step,
      source (src + j * srcLine + i) = g (dst + j * dstLine + i)) {a : Nat}
    (ha : a ∈ block dst dstLine height (count * step)) :
    copy (lines (walk step step count) srcLine dstLine height src dst) source target a = g a := by
  apply copy_of_agree
  · obtain ⟨j, hj, i, hi, rfl⟩ := ha
    obtain ⟨k, hk, low, high⟩ := exists_word hi
    exact ⟨_, mem_lines_walk.mpr ⟨j, hj, k, hk, rfl⟩, Copy.mem_writes.mpr (by dsimp only; omega)⟩
  · intro c hc ha
    obtain ⟨j, hj, i, hi, rfl, from_⟩ := writes_block hc ha
    rw [from_]
    exact holds j hj i hi

/-- Rows that do not overlap in the target keep their places. -/
theorem copy_block_apply (source target : Bytes) (apart : count * step ≤ dstLine) {j i : Nat}
    (hj : j < height) (hi : i < count * step) :
    copy (lines (walk step step count) srcLine dstLine height src dst) source target
      (dst + j * dstLine + i) = source (src + j * srcLine + i) := by
  apply copy_of_agree
  · obtain ⟨k, hk, low, high⟩ := exists_word hi
    exact ⟨_, mem_lines_walk.mpr ⟨j, hj, k, hk, rfl⟩, Copy.mem_writes.mpr (by dsimp only; omega)⟩
  · intro c hc ha
    obtain ⟨j', hj', i', hi', place, from_⟩ := writes_block hc ha
    have flat : j * dstLine + i = j' * dstLine + i' := by omega
    obtain ⟨rfl, rfl⟩ := row_unique (hi.trans_le apart) (hi'.trans_le apart) flat
    rw [from_]

/-- The rule of restoring: if nothing changed off the block and its rows are in the storage,
copying them back gives the memory as it was. -/
theorem restore_block {line storeLine base store : Nat} {before after heap : Bytes}
    (kept : ∀ a, a ∉ block base line height (count * step) → after a = before a)
    (stored : ∀ j < height, ∀ i < count * step,
      heap (store + j * storeLine + i) = before (base + j * line + i)) :
    copy (lines (walk step step count) storeLine line height store base) heap after = before := by
  funext a
  by_cases inside : a ∈ block base line height (count * step)
  · exact copy_block_of_mem after stored inside
  · rw [copy_block_of_notMem heap after inside, kept a inside]

end Block

end ByteMemory
