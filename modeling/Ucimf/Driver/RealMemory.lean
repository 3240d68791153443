import Ucimf.Support.Regions
import Ucimf.Support.Run

/-!
# Real-mode memory

`LRMI_alloc_real` hands out paragraphs of the 64 KiB below `0x20000`, first fit, and
`LRMI_free_real` joins the block it frees with the free blocks next to it. The table of
blocks is an array of 256 entries.
-/

namespace Ucimf.Driver

open Regions Transition

/-- `REAL_MEM_BASE`, `REAL_MEM_SIZE` and `REAL_MEM_BLOCKS`. -/
def realMemBase : Nat := 0x10000
def realMemSize : Nat := 0x10000
def realMemBlocks : Nat := 0x100

/-- `size` is a bit field of 20 bits. -/
structure MemBlock where
  size : Nat
  free : Bool
  deriving DecidableEq, Repr

def MemBlock.Unused (b : MemBlock) : Prop := b.free = true

theorem MemBlock.not_unused {b : MemBlock} (used : b.free = false) : ¬ b.Unused :=
  fun unused => Bool.false_ne_true (used.symm.trans unused)

/-- The first `count` entries of the table. -/
structure MemInfo where
  ready : Bool
  blocks : List MemBlock
  deriving DecidableEq, Repr

/-- What an assignment to the field `size` keeps. -/
def bits20 (n : Int) : Nat := (n % 2 ^ 20).toNat

/-- `insert_block`: the block at `i` stands there twice. -/
def insertBlock (blocks : List MemBlock) (i : Nat) : List MemBlock :=
  blocks.take (i + 1) ++ blocks.drop i

def deleteBlock (blocks : List MemBlock) (i : Nat) : List MemBlock :=
  blocks.take i ++ blocks.drop (i + 1)

/-- `(size + 15) & ~15` on an `int`. -/
def roundUp (size : Int) : Int := (size + 15).bmod (2 ^ 32) / 16 * 16

/-- The loop of `LRMI_alloc_real` at the block `i`, which begins at `r`. -/
def firstFit (size : Int) : List MemBlock → Nat → Nat → Option (Nat × Nat)
  | [], _, _ => none
  | b :: bs, i, r =>
    if b.free = true ∧ size < b.size then some (i, r) else firstFit size bs (i + 1) (r + b.size)

/-- The loop of `LRMI_free_real`: the block that begins at `p`. -/
def blockAt (p : Nat) : List MemBlock → Nat → Nat → Option Nat
  | [], _, _ => none
  | b :: bs, i, r => if p = r then some i else blockAt p bs (i + 1) (r + b.size)

def freeAt (blocks : List MemBlock) (i : Nat) : Bool := blocks[i]?.any MemBlock.free

/-- `blocks[i].size += blocks[i + 1].size` and `delete_block(i + 1)`. -/
def absorbNext (blocks : List MemBlock) (i : Nat) : List MemBlock :=
  let next := (blocks[i + 1]?.map MemBlock.size).getD 0
  deleteBlock (blocks.modify i fun b => { b with size := bits20 (b.size + next) }) (i + 1)

namespace MemInfo

/-- `real_mem_init`; `mapped` tells whether `/dev/zero` was opened and mapped. -/
def realMemInit (m : MemInfo) (mapped : Bool) : MemInfo × Bool :=
  if m.ready then (m, true)
  else if mapped then ({ ready := true, blocks := [⟨realMemSize, true⟩] }, true)
  else (m, false)

/-- `LRMI_alloc_real`. -/
def allocReal (m : MemInfo) (size : Int) : MemInfo × Option Nat :=
  if m.ready = false then (m, none)
  else if m.blocks.length = realMemBlocks then (m, none)
  else
    let size := roundUp size
    match firstFit size m.blocks 0 realMemBase with
    | none => (m, none)
    | some (i, r) =>
      let blocks := insertBlock m.blocks i
      let blocks := blocks.modify i fun _ => { size := bits20 size, free := false }
      let blocks := blocks.modify (i + 1) fun b => { b with size := bits20 (b.size - size) }
      ({ m with blocks := blocks }, some r)

/-- `LRMI_free_real`. -/
def freeReal (m : MemInfo) (p : Nat) : MemInfo :=
  if m.ready = false then m
  else match blockAt p m.blocks 0 realMemBase with
    | none => m
    | some i =>
      let blocks := m.blocks.modify i fun b => { b with free := true }
      let blocks := if freeAt blocks (i + 1) then absorbNext blocks i else blocks
      let blocks := if 0 < i ∧ freeAt blocks (i - 1) then absorbNext blocks (i - 1) else blocks
      { m with blocks := blocks }

end MemInfo

/-! ## Blocks by their neighbours -/

variable {pre post blocks : List MemBlock} {b c : MemBlock}

theorem modify_at (f : MemBlock → MemBlock) :
    (pre ++ b :: post).modify pre.length f = pre ++ f b :: post := by
  induction pre with
  | nil => rfl
  | cons a pre ih => exact congrArg (a :: ·) ih

theorem insertBlock_at :
    insertBlock (pre ++ b :: post) pre.length = pre ++ b :: b :: post := by
  have split : pre ++ b :: post = (pre ++ [b]) ++ post := by simp
  rw [insertBlock, List.drop_left, split, show pre.length + 1 = (pre ++ [b]).length by simp,
    List.take_left]
  simp

theorem freeAt_at : freeAt (pre ++ b :: post) pre.length = b.free := by
  simp [freeAt]

theorem freeAt_next :
    freeAt (pre ++ b :: post) (pre.length + 1) = post.head?.any MemBlock.free := by
  cases post <;> simp [freeAt]

theorem absorbNext_at :
    absorbNext (pre ++ b :: c :: post) pre.length =
      pre ++ { b with size := bits20 (b.size + c.size) } :: post := by
  have next : (pre ++ b :: c :: post)[pre.length + 1]? = some c := by
    simp
  unfold absorbNext deleteBlock
  rw [next]
  dsimp only [Option.map_some, Option.getD_some]
  rw [modify_at]
  generalize ({ b with size := bits20 (b.size + c.size) } : MemBlock) = d
  have split : pre ++ d :: c :: post = (pre ++ [d]) ++ c :: post := by simp
  rw [split, show pre.length + 1 = (pre ++ [d]).length by simp, List.take_left, List.drop_append]
  simp

theorem bits20_of_lt {n : Nat} (small : n < 2 ^ 20) : bits20 n = n := by
  unfold bits20
  omega

/-- Sizes above zero and clear of `INT_MAX` are rounded up to paragraphs. -/
theorem roundUp_eq {size : Int} (positive : 0 < size) (small : size ≤ 2 ^ 31 - 16) :
    ∃ n : Nat, roundUp size = n ∧ size ≤ n ∧ 16 ∣ n := by
  have wrapped : (size + 15).bmod (2 ^ 32) = size + 15 :=
    Int.bmod_eq_of_le (by omega) (by omega)
  refine ⟨((size + 15) / 16 * 16).toNat, ?_, ?_, ?_⟩
  · rw [roundUp, wrapped]
    omega
  · omega
  · omega

theorem firstFit_some {size : Int} {i r j p : Nat}
    (found : firstFit size blocks i r = some (j, p)) :
    ∃ pre b post, blocks = pre ++ b :: post ∧ j = i + pre.length ∧
      p = r + total MemBlock.size pre ∧ b.free = true ∧ size < b.size := by
  induction blocks generalizing i r with
  | nil => cases found
  | cons a blocks ih =>
    rw [firstFit] at found
    split at found
    · next fits =>
      cases found
      exact ⟨[], a, blocks, rfl, rfl, rfl, fits⟩
    · obtain ⟨pre, b, post, rfl, rfl, rfl, fits⟩ := ih found
      refine ⟨a :: pre, b, post, rfl, ?_, ?_, fits⟩
      · rw [List.length_cons]
        omega
      · rw [total_cons]
        omega

theorem firstFit_none {size : Int} {i r : Nat} (none : firstFit size blocks i r = none) :
    ∀ b ∈ blocks, b.free = true → (b.size : Int) ≤ size := by
  induction blocks generalizing i r with
  | nil => intro b member; cases member
  | cons a blocks ih =>
    rw [firstFit] at none
    split at none
    · cases none
    · next small =>
      intro b member unused
      rcases List.mem_cons.mp member with rfl | later
      · exact not_lt.mp fun large => small ⟨unused, large⟩
      · exact ih none b later unused

theorem blockAt_some {p i r j : Nat} (found : blockAt p blocks i r = some j) :
    ∃ pre b post, blocks = pre ++ b :: post ∧ j = i + pre.length ∧
      p = r + total MemBlock.size pre := by
  induction blocks generalizing i r with
  | nil => cases found
  | cons a blocks ih =>
    rw [blockAt] at found
    split at found
    · next here =>
      cases found
      exact ⟨[], a, blocks, rfl, rfl, here⟩
    · obtain ⟨pre, b, post, rfl, rfl, rfl⟩ := ih found
      refine ⟨a :: pre, b, post, rfl, ?_, ?_⟩
      · rw [List.length_cons]
        omega
      · rw [total_cons]
        omega

theorem blockAt_none {p i r : Nat} (none : blockAt p blocks i r = none) (b : MemBlock) :
    (p, b) ∉ placed MemBlock.size r blocks := by
  induction blocks generalizing i r with
  | nil => exact List.not_mem_nil
  | cons a blocks ih =>
    rw [blockAt] at none
    split at none
    · cases none
    · next elsewhere =>
      intro member
      rcases List.mem_cons.mp member with first | later
      · exact elsewhere (Prod.mk.inj first).1
      · exact ih none later

/-- The block behind is joined if it is free. -/
theorem joinNext (settled : Settled MemBlock.Unused post)
    (small : b.size + total MemBlock.size post < 2 ^ 20) :
    ∃ joined after, post = joined ++ after ∧ (∀ c ∈ joined, c.Unused) ∧
      (∀ c ∈ after.head?, ¬ c.Unused) ∧
      (if freeAt (pre ++ b :: post) (pre.length + 1) then
          absorbNext (pre ++ b :: post) pre.length
        else pre ++ b :: post) =
        pre ++ { b with size := b.size + total MemBlock.size joined } :: after := by
  rw [freeAt_next]
  cases post with
  | nil => exact ⟨[], [], rfl, nofun, nofun, rfl⟩
  | cons c post =>
    rw [total_cons] at small
    cases unused : c.free with
    | false =>
      refine ⟨[], c :: post, rfl, nofun, ?_, ?_⟩
      · rintro d ⟨⟩
        exact MemBlock.not_unused unused
      · rw [List.head?_cons, Option.any_some, unused]
        rfl
    | true =>
      refine ⟨[c], post, rfl, ?_, settled.behind unused, ?_⟩
      · intro d member
        exact List.mem_singleton.mp member ▸ unused
      · rw [List.head?_cons, Option.any_some, unused, if_pos rfl, absorbNext_at,
          ← Int.natCast_add, bits20_of_lt (by omega)]
        rfl

/-- The block before is joined if it is free. -/
theorem joinPrevious (settled : Settled MemBlock.Unused pre)
    (small : total MemBlock.size pre + b.size < 2 ^ 20) (unused : b.free = true) :
    ∃ before joined, pre = before ++ joined ∧ (∀ c ∈ joined, c.Unused) ∧
      (∀ c ∈ before.getLast?, ¬ c.Unused) ∧
      (if 0 < pre.length ∧ freeAt (pre ++ b :: post) (pre.length - 1) then
          absorbNext (pre ++ b :: post) (pre.length - 1)
        else pre ++ b :: post) =
        before ++ ⟨total MemBlock.size joined + b.size, true⟩ :: post := by
  rcases List.eq_nil_or_concat pre with rfl | ⟨pre, c, rfl⟩
  · refine ⟨[], [], rfl, nofun, nofun, ?_⟩
    rw [if_neg (fun both => absurd both.1 (lt_irrefl _)), total_nil, Nat.zero_add, ← unused]
  · rw [List.concat_eq_append] at settled small ⊢
    rw [total_append, total_cons, total_nil] at small
    have split : pre ++ [c] ++ b :: post = pre ++ c :: b :: post := by simp
    have length : (pre ++ [c]).length - 1 = pre.length := by simp
    rw [split, length, freeAt_at]
    cases free : c.free with
    | false =>
      refine ⟨pre ++ [c], [], (List.append_nil _).symm, nofun, ?_, ?_⟩
      · rintro d last
        rw [List.getLast?_concat] at last
        obtain rfl := Option.some.inj last
        exact MemBlock.not_unused free
      · rw [if_neg (fun both => absurd both.2 (by decide)), total_nil, Nat.zero_add, ← unused,
          split]
    | true =>
      refine ⟨pre, [c], rfl, ?_, settled.before free, ?_⟩
      · intro d member
        exact List.mem_singleton.mp member ▸ free
      · rw [if_pos ⟨by simp, rfl⟩, absorbNext_at, ← Int.natCast_add, bits20_of_lt (by omega), free]
        rfl

/-! ## What a call does -/

namespace MemInfo

/-- Paragraphs laid end to end over the whole memory, no two free ones side by side. -/
structure Tiled (m : MemInfo) : Prop where
  ready : m.ready = true
  covers : total MemBlock.size m.blocks = realMemSize
  positive : ∀ b ∈ m.blocks, 0 < b.size
  paragraphs : ∀ b ∈ m.blocks, 16 ∣ b.size
  settled : Settled MemBlock.Unused m.blocks
  bounded : m.blocks.length ≤ realMemBlocks

/-- The regions handed out. -/
def live (m : MemInfo) : Set Region :=
  liveOf MemBlock.size MemBlock.Unused realMemBase m.blocks

variable {m m' : MemInfo}

theorem Tiled.size_lt (h : m.Tiled) {b : MemBlock} (member : b ∈ m.blocks) :
    b.size ≤ realMemSize :=
  h.covers ▸ size_le_total member

/-- A block handed out is cut from the front of a free block. -/
theorem allocReal_some (h : m.Tiled) {size : Int} {n p : Nat} (rounded : roundUp size = n)
    (allocated : m.allocReal size = (m', some p)) :
    ∃ pre b post, m.blocks = pre ++ b :: post ∧ p = realMemBase + total MemBlock.size pre ∧
      b.Unused ∧ n < b.size ∧ m.blocks.length < realMemBlocks ∧
      m' = { m with blocks := pre ++ ⟨n, false⟩ :: ⟨b.size - n, true⟩ :: post } := by
  unfold allocReal at allocated
  rw [if_neg (by rw [h.ready]; decide), rounded] at allocated
  split at allocated
  · cases allocated
  · next space =>
    dsimp only at allocated
    split at allocated
    · cases allocated
    · next i r found =>
      obtain ⟨pre, b, post, blocks, rfl, rfl, unused, large⟩ := firstFit_some found
      obtain ⟨rfl, here⟩ := Prod.mk.inj allocated
      obtain rfl := Option.some.inj here
      have member : b ∈ m.blocks := blocks ▸ List.mem_append_right _ List.mem_cons_self
      have small := h.size_lt member
      rw [realMemSize] at small
      have less : n < b.size := by exact_mod_cast large
      refine ⟨pre, b, post, blocks, rfl, unused, less, lt_of_le_of_ne h.bounded space, ?_⟩
      have front : bits20 n = n := bits20_of_lt (by omega)
      have rest : bits20 (b.size - n) = b.size - n := by
        rw [← Int.ofNat_sub less.le]
        exact bits20_of_lt (by omega)
      rw [Nat.zero_add, blocks, insertBlock_at, modify_at, front]
      have split : pre ++ (⟨n, false⟩ : MemBlock) :: b :: post =
          (pre ++ [⟨n, false⟩]) ++ b :: post := by simp
      rw [split, show pre.length + 1 = (pre ++ [(⟨n, false⟩ : MemBlock)]).length by simp,
        modify_at, rest, unused]
      simp

/-- A block that is freed is joined with the free blocks on either side. -/
theorem freeReal_cases (h : m.Tiled) (p : Nat) :
    (m.freeReal p = m ∧ ∀ b, (p, b) ∉ placed MemBlock.size realMemBase m.blocks) ∨
      ∃ before previous b next after,
        m.blocks = before ++ (previous ++ b :: next) ++ after ∧
        p = realMemBase + total MemBlock.size (before ++ previous) ∧
        (∀ c ∈ previous ++ next, c.Unused) ∧
        (∀ c ∈ before.getLast?, ¬ c.Unused) ∧ (∀ c ∈ after.head?, ¬ c.Unused) ∧
        m.freeReal p = { m with
          blocks := before ++ ⟨total MemBlock.size (previous ++ b :: next), true⟩ :: after } := by
  unfold freeReal
  rw [if_neg (by rw [h.ready]; decide)]
  split
  · next none => exact .inl ⟨rfl, blockAt_none none⟩
  · next i found =>
    obtain ⟨pre, b, post, blocks, rfl, rfl⟩ := blockAt_some found
    have settled := blocks ▸ h.settled
    have covers := h.covers
    rw [blocks, total_append, total_cons, realMemSize] at covers
    dsimp only
    rw [Nat.zero_add, blocks, modify_at]
    have rest : Settled MemBlock.Unused post := settled.right.tail
    obtain ⟨next, after, rfl, nextFree, behind, joined⟩ :=
      @joinNext pre post ⟨b.size, true⟩ rest (show b.size + _ < _ by omega)
    rw [joined]
    rw [total_append] at covers
    obtain ⟨before, previous, rfl, previousFree, ahead, joined⟩ :=
      @joinPrevious pre after ⟨b.size + total MemBlock.size next, true⟩ settled.left
        (show _ + (b.size + _) < _ by omega) rfl
    rw [joined]
    refine .inr ⟨before, previous, b, next, after, by simp, rfl, ?_, ahead, behind, ?_⟩
    · intro c member
      rcases List.mem_append.mp member with first | second
      · exact previousFree c first
      · exact nextFree c second
    · rw [total_append, total_cons]

/-! ### The blocks stay laid end to end -/

theorem Tiled.allocReal (h : m.Tiled) {size : Int} {p : Nat} (positive : 0 < size)
    (small : size ≤ 2 ^ 31 - 16) (allocated : m.allocReal size = (m', some p)) : m'.Tiled := by
  obtain ⟨n, rounded, enough, paragraphs⟩ := roundUp_eq positive small
  obtain ⟨pre, b, post, blocks, rfl, unused, larger, room, rfl⟩ :=
    allocReal_some h rounded allocated
  have settled := blocks ▸ h.settled
  have member : b ∈ m.blocks := blocks ▸ List.mem_append_right _ List.mem_cons_self
  have covers := h.covers
  have length := congrArg List.length blocks
  rw [blocks, total_append, total_cons] at covers
  rw [List.length_append, List.length_cons] at length
  have others : ∀ c, c ∈ pre ∨ c ∈ post → c ∈ m.blocks := by
    rw [blocks]
    rintro c (first | second)
    · exact List.mem_append_left _ first
    · exact List.mem_append_right _ (List.mem_cons_of_mem _ second)
  have blockwise : ∀ P : MemBlock → Prop, (∀ c ∈ m.blocks, P c) → P ⟨n, false⟩ →
      P ⟨b.size - n, true⟩ → ∀ c ∈ pre ++ ⟨n, false⟩ :: ⟨b.size - n, true⟩ :: post, P c := by
    intro P old front rest c here
    rcases List.mem_append.mp here with first | second
    · exact old c (others c (.inl first))
    · rcases List.mem_cons.mp second with rfl | second
      · exact front
      · rcases List.mem_cons.mp second with rfl | second
        · exact rest
        · exact old c (others c (.inr second))
  exact
    { ready := h.ready
      covers := by
        rw [total_append, total_cons, total_cons]
        show _ + (n + (b.size - n + _)) = _
        omega
      positive := blockwise _ h.positive (show 0 < n by omega) (show 0 < b.size - n by omega)
      paragraphs := blockwise _ h.paragraphs paragraphs
        (Nat.dvd_sub (h.paragraphs b member) paragraphs)
      settled := by
        have behind := settled.right
        apply settled.left.append
        · refine List.isChain_cons_cons.mpr ⟨fun both => Bool.false_ne_true both.1, ?_⟩
          exact List.isChain_cons.mpr ⟨fun c next both => behind.behind unused c next both.2,
            behind.tail⟩
        · rintro a last c ⟨⟩ both
          exact Bool.false_ne_true both.2
      bounded := by
        rw [List.length_append, List.length_cons, List.length_cons]
        omega }

theorem Tiled.freeReal (h : m.Tiled) (p : Nat) : (m.freeReal p).Tiled := by
  rcases freeReal_cases h p with ⟨same, -⟩ | ⟨before, previous, b, next, after, blocks, -, -, ahead,
    behind, freed⟩
  · rw [same]
    exact h
  · have settled := blocks ▸ h.settled
    have covers := h.covers
    have bounded := h.bounded
    rw [blocks] at covers bounded
    rw [total_append, total_append] at covers
    rw [List.length_append, List.length_append, List.length_append, List.length_cons] at bounded
    have old : ∀ c, c ∈ before ∨ c ∈ previous ++ b :: next ∨ c ∈ after → c ∈ m.blocks := by
      rw [blocks]
      rintro c (first | middle | last)
      · exact List.mem_append_left _ (List.mem_append_left _ first)
      · exact List.mem_append_left _ (List.mem_append_right _ middle)
      · exact List.mem_append_right _ last
    have blockwise : ∀ P : MemBlock → Prop, (∀ c ∈ m.blocks, P c) →
        P ⟨total MemBlock.size (previous ++ b :: next), true⟩ →
        ∀ c ∈ before ++ ⟨total MemBlock.size (previous ++ b :: next), true⟩ :: after, P c := by
      intro P known joined c here
      rcases List.mem_append.mp here with first | second
      · exact known c (old c (.inl first))
      · rcases List.mem_cons.mp second with rfl | second
        · exact joined
        · exact known c (old c (.inr (.inr second)))
    have inside : b ∈ previous ++ b :: next := List.mem_append_right _ List.mem_cons_self
    rw [freed]
    exact
      { ready := h.ready
        covers := by
          rw [total_append, total_cons, ← covers]
          exact (Nat.add_assoc ..).symm
        positive := blockwise _ h.positive <|
          (h.positive b (old b (.inr (.inl inside)))).trans_le (size_le_total inside)
        paragraphs := blockwise _ h.paragraphs <|
          dvd_total fun c here => h.paragraphs c (old c (.inr (.inl here)))
        settled := settled.left.left.surrounded settled.right ahead behind
        bounded := by
          rw [List.length_append, List.length_cons]
          omega }

/-! ### The regions handed out -/

theorem live_allocReal (h : m.Tiled) {size : Int} {n p : Nat} (rounded : roundUp size = n)
    (allocated : m.allocReal size = (m', some p)) : m'.live = insert ⟨p, n⟩ m.live := by
  obtain ⟨pre, b, post, blocks, rfl, unused, larger, -, rfl⟩ := allocReal_some h rounded allocated
  have behind : n + (b.size - n) = b.size := Nat.add_sub_of_le larger.le
  unfold live
  have front : ¬ MemBlock.Unused ⟨n, false⟩ := MemBlock.not_unused rfl
  have rest : MemBlock.Unused ⟨b.size - n, true⟩ := rfl
  rw [blocks, liveOf_append, liveOf_append, liveOf_cons_free unused, liveOf_cons_taken front,
    liveOf_cons_free rest, Set.union_insert, Nat.add_assoc _ n, behind]

theorem live_freeReal (h : m.Tiled) (p : Nat) :
    (m.freeReal p).live = {x ∈ m.live | x.start ≠ p} := by
  rcases freeReal_cases h p with ⟨same, nowhere⟩ | ⟨before, previous, b, next, after, blocks, rfl,
    unused, -, -, freed⟩
  · rw [same]
    refine (Set.sep_eq_self_iff_mem_true.mpr ?_).symm
    rintro x ⟨c, here, -⟩ rfl
    exact nowhere c here
  · have apart : before ++ (previous ++ b :: next) ++ after =
        (before ++ previous) ++ b :: (next ++ after) := by simp
    have positive := h.positive
    rw [blocks, apart] at positive
    have previousFree : ∀ c ∈ previous, c.Unused := fun c member =>
      unused c (List.mem_append_left _ member)
    have nextFree : ∀ c ∈ next, c.Unused := fun c member =>
      unused c (List.mem_append_right _ member)
    have joined : MemBlock.Unused ⟨total MemBlock.size (previous ++ b :: next), true⟩ := rfl
    rw [live, live, freed, blocks, apart, ← liveOf_released positive, liveOf_append,
      liveOf_append, liveOf_append, liveOf_free previousFree, liveOf_free nextFree,
      Set.union_empty, Set.empty_union, liveOf_cons_free joined]
    congr 2
    simp only [total_append, total_cons]
    omega

theorem allocReal_apart (h : m.Tiled) {size : Int} {n p : Nat} (rounded : roundUp size = n)
    (allocated : m.allocReal size = (m', some p)) : ∀ y ∈ m.live, Region.Apart ⟨p, n⟩ y := by
  obtain ⟨pre, b, post, blocks, rfl, unused, larger, -, -⟩ := allocReal_some h rounded allocated
  have positive := blocks ▸ h.positive
  intro y member
  rw [live, blocks, liveOf_append, liveOf_cons_free unused] at member
  rcases member with first | second
  · exact .inr (liveOf_inside (fun c here => positive c (List.mem_append_left _ here)) first).2.2
  · have bounds := liveOf_inside
      (fun c here => positive c (List.mem_append_right _ (List.mem_cons_of_mem _ here))) second
    exact .inl (by simp only; omega)

theorem allocReal_none {size : Int} (refused : m.allocReal size = (m', none)) : m' = m := by
  unfold allocReal at refused
  split at refused
  · exact (Prod.mk.inj refused).1.symm
  · split at refused
    · exact (Prod.mk.inj refused).1.symm
    · dsimp only at refused
      split at refused
      · exact (Prod.mk.inj refused).1.symm
      · cases refused

theorem allocReal_eq_none_iff (h : m.Tiled) {size : Int} {n : Nat} (rounded : roundUp size = n) :
    (m.allocReal size).2 = none ↔
      m.blocks.length = realMemBlocks ∨ ∀ b ∈ m.blocks, b.Unused → b.size ≤ n := by
  unfold allocReal
  rw [if_neg (by rw [h.ready]; decide), rounded]
  split
  · next full => exact iff_of_true rfl (.inl full)
  · next space =>
    dsimp only
    split
    · next missed =>
      refine iff_of_true rfl (.inr fun b member unused => ?_)
      exact_mod_cast firstFit_none missed b member unused
    · next i r found =>
      obtain ⟨pre, b, post, blocks, -, -, unused, larger⟩ := firstFit_some found
      apply iff_of_false nofun
      rintro (full | small)
      · exact space full
      · have member : b ∈ m.blocks := blocks ▸ List.mem_append_right _ List.mem_cons_self
        exact not_lt.mpr (small b member unused) (by exact_mod_cast larger)

/-- A free block is clear of the regions handed out. -/
theorem apart_of_unused {a : Nat} {b : MemBlock}
    (here : (a, b) ∈ placed MemBlock.size realMemBase m.blocks) (unused : b.Unused) :
    ∀ x ∈ m.live, Region.Apart ⟨a, b.size⟩ x := by
  rintro ⟨a', n⟩ ⟨c, there, used, rfl⟩
  rcases placed_apart here there with ⟨-, rfl⟩ | apart
  · exact absurd unused used
  · exact apart

/-! ## Runs -/

/-- A call, with the address `LRMI_alloc_real` returned. -/
inductive Request
  | alloc (size : Int) (result : Option Nat)
  | free (p : Nat)
  deriving DecidableEq, Repr

/-- A size above zero that can be rounded up in an `int`. -/
def Request.Fits : Request → Prop
  | .alloc size _ => 0 < size ∧ size ≤ 2 ^ 31 - 16
  | .free _ => True

instance : DecidablePred Request.Fits
  | .alloc _ _ => inferInstanceAs (Decidable (_ ∧ _))
  | .free _ => inferInstanceAs (Decidable True)

def Request.event : Request → Event
  | .alloc size (some p) => .taken ⟨p, (roundUp size).toNat⟩
  | .alloc _ none => .refused
  | .free p => .released p

def Step (m : MemInfo) : Request → MemInfo → Prop
  | .alloc size result, m' => m.allocReal size = (m', result)
  | .free p, m' => m.freeReal p = m'

/-- The table behind `real_mem_init`. -/
def started : MemInfo := (realMemInit ⟨false, []⟩ true).1

theorem tiled_started : started.Tiled where
  ready := rfl
  covers := rfl
  positive := by decide
  paragraphs := by decide
  settled := List.isChain_singleton _
  bounded := by decide

theorem Tiled.step (h : m.Tiled) {q : Request} (fits : q.Fits) (taken : Step m q m') :
    m'.Tiled := by
  cases q with
  | alloc size result =>
    cases result with
    | some p => exact h.allocReal fits.1 fits.2 taken
    | none =>
      rw [allocReal_none taken]
      exact h
  | free p =>
    obtain rfl := taken
    exact h.freeReal p

theorem tiled_run {qs : List Request} (run : Run Step started qs m) (fits : ∀ q ∈ qs, q.Fits) :
    m.Tiled :=
  (run.restrict fits).invariant Tiled (fun _ _ _ h step => h.step step.1 step.2) tiled_started

/-- The regions handed out, as the allocator in the abstract has them. -/
def Tiled.heap (h : m.Tiled) : Heap realMemBase (realMemBase + realMemSize) where
  live := m.live
  inside := fun _ member => h.covers ▸ liveOf_inside h.positive member
  apart := liveOf_apart

theorem Tiled.simulates (h : m.Tiled) {q : Request} (fits : q.Fits) (taken : Step m q m') :
    Heap.Step h.heap q.event (h.step fits taken).heap := by
  cases q with
  | alloc size result =>
    cases result with
    | some p =>
      obtain ⟨n, rounded, -, -⟩ := roundUp_eq fits.1 fits.2
      have length : (roundUp size).toNat = n := by rw [rounded, Int.toNat_natCast]
      rw [Request.event, length]
      apply Heap.Step.take
      · exact allocReal_apart h rounded taken
      · exact live_allocReal h rounded taken
    | none =>
      obtain rfl := allocReal_none taken
      exact .refuse
  | free p =>
    obtain rfl := taken
    exact .release (live_freeReal h p)

theorem run_heap {qs : List Request} (run : Run Step started qs m) (fits : ∀ q ∈ qs, q.Fits) :
    Run Heap.Step (Heap.empty _ _) (qs.map Request.event) (tiled_run run fits).heap := by
  induction run with
  | nil =>
    have nothing : tiled_started.heap = Heap.empty _ _ :=
      Heap.ext (liveOf_free fun b member => List.mem_singleton.mp member ▸ rfl)
    exact nothing ▸ Run.nil
  | snoc before step ih =>
    have known := List.forall_mem_append.mp fits
    have last := known.2 _ (List.mem_singleton_self _)
    rw [List.map_append]
    exact (ih known.1).snoc ((tiled_run before known.1).simulates last step)

/-- Whatever is allocated and freed, the regions handed out are paragraphs inside the memory
and apart from each other, a region leaves when its address is freed and at no other time, and
the table does not overflow. -/
theorem refines_heap {qs : List Request} (run : Run Step started qs m) (fits : ∀ q ∈ qs, q.Fits) :
    ∃ h : Heap realMemBase (realMemBase + realMemSize),
      Run Heap.Step (Heap.empty _ _) (qs.map Request.event) h ∧ h.live = m.live ∧
      (∀ x ∈ h.live, 16 ∣ x.start) ∧ m.blocks.length ≤ realMemBlocks := by
  have tiled := tiled_run run fits
  refine ⟨tiled.heap, run_heap run fits, rfl, ?_, tiled.bounded⟩
  rintro x ⟨b, here, -⟩
  exact placed_dvd (by decide) tiled.paragraphs here

/-- The table behind `LRMI_init`: the stack, and the routine that returns to 32 bits. -/
def initialized : MemInfo := ⟨true, [⟨0x1000, false⟩, ⟨16, false⟩, ⟨61424, true⟩]⟩

def initRequests : List Request := [.alloc 0x1000 (some 0x10000), .alloc 2 (some 0x11000)]

theorem run_initRequests : Run Step started initRequests initialized := by
  have stack : Run Step started [Request.alloc 0x1000 (some 0x10000)]
      ⟨true, [⟨0x1000, false⟩, ⟨61440, true⟩]⟩ := Run.nil.snoc rfl
  exact stack.snoc rfl

theorem refines_heap_initRequests : ∃ h : Heap realMemBase (realMemBase + realMemSize),
    Run Heap.Step (Heap.empty _ _) (initRequests.map Request.event) h ∧
      h.live = initialized.live ∧ (∀ x ∈ h.live, 16 ∣ x.start) ∧
      initialized.blocks.length ≤ realMemBlocks :=
  refines_heap run_initRequests (by decide)

/-- A request is refused exactly when the table is full or no stretch that is longer than the
paragraphs asked for is clear of the regions handed out: no memory is lost to fragments that
could be joined. -/
theorem refuses_iff {qs : List Request} (run : Run Step started qs m) (fits : ∀ q ∈ qs, q.Fits)
    {size : Int} (positive : 0 < size) (small : size ≤ 2 ^ 31 - 16) :
    (m.allocReal size).2 = none ↔ m.blocks.length = realMemBlocks ∨
      ∀ gap : Region, roundUp size < gap.length → realMemBase ≤ gap.start →
        gap.start + gap.length ≤ realMemBase + realMemSize → ∃ x ∈ m.live, ¬ gap.Apart x := by
  have tiled := tiled_run run fits
  obtain ⟨n, rounded, -, -⟩ := roundUp_eq positive small
  rw [allocReal_eq_none_iff tiled rounded, rounded]
  apply or_congr_right
  constructor
  · intro limited gap longer low high
    by_contra! clear
    obtain ⟨a, b, here, unused, start, stop⟩ := tiled.settled.within tiled.positive gap
      (show 0 < gap.length by omega) low (tiled.covers ▸ high) clear
    have most := limited b (placed_bounds here).1 unused
    omega
  · intro crowded b member unused
    by_contra large
    obtain ⟨a, here⟩ := exists_placed realMemBase member
    obtain ⟨-, low, high⟩ := placed_bounds here
    rw [tiled.covers] at high
    obtain ⟨x, handedOut, meets⟩ := crowded ⟨a, b.size⟩ (by simp only; omega) low high
    exact meets (apart_of_unused here unused x handedOut)

/-- The last block is never handed out whole. -/
theorem refuses_initialized : (initialized.allocReal 61424).2 = none ↔
    initialized.blocks.length = realMemBlocks ∨
      ∀ gap : Region, roundUp 61424 < gap.length → realMemBase ≤ gap.start →
        gap.start + gap.length ≤ realMemBase + realMemSize →
        ∃ x ∈ initialized.live, ¬ gap.Apart x :=
  refuses_iff run_initRequests (by decide) (by decide) (by decide)

/-- Once every region has been freed the memory is one block again. -/
theorem all_freed {qs : List Request} (run : Run Step started qs m) (fits : ∀ q ∈ qs, q.Fits)
    (returned : m.live = ∅) : m = started := by
  have tiled := tiled_run run fits
  obtain ⟨a, b, here, unused, start, stop⟩ := tiled.settled.within tiled.positive
    ⟨realMemBase, realMemSize⟩ (by decide) le_rfl (Nat.add_le_add_left tiled.covers.ge _)
    (fun x member => absurd (returned ▸ member) (Set.notMem_empty x))
  obtain ⟨member, low, -⟩ := placed_bounds here
  obtain ⟨pre, post, blocks⟩ := List.append_of_mem member
  have positive := blocks ▸ tiled.positive
  have covers := tiled.covers
  rw [blocks, total_append, total_cons] at covers
  simp only at start stop
  obtain rfl : pre = [] := eq_nil_of_total
    (fun c inside => positive c (List.mem_append_left _ inside)) (by omega)
  obtain rfl : post = [] := eq_nil_of_total
    (fun c inside => positive c (List.mem_cons_of_mem _ inside)) (by omega)
  have whole : b = ⟨realMemSize, true⟩ := by
    obtain ⟨size, free⟩ := b
    exact congrArg₂ MemBlock.mk (by simp at covers; exact covers) unused
  obtain ⟨ready, bs⟩ := m
  obtain rfl : ready = true := tiled.ready
  exact congrArg (MemInfo.mk true) (blocks.trans (congrArg (fun c => [c]) whole))

theorem all_freed_initialized :
    (initialized.freeReal 0x10000).freeReal 0x11000 = started := by
  have stack : Run Step started (initRequests ++ [Request.free 0x10000])
      (initialized.freeReal 0x10000) := run_initRequests.snoc rfl
  have routine : Run Step started (initRequests ++ [Request.free 0x10000] ++ [.free 0x11000])
      ((initialized.freeReal 0x10000).freeReal 0x11000) := stack.snoc rfl
  exact all_freed routine (by decide)
    (liveOf_free fun b member => List.mem_singleton.mp member ▸ rfl)

end MemInfo

end Ucimf.Driver
