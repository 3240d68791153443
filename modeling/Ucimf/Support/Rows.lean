import Ucimf.Support.Memory

/-!
# Rows of words

A rectangle is worked off row by row, each row word by word. What happens to a row does not
depend on how it is cut into words: stores that put the same bytes leave the same memory,
and inverting words one after another inverts the bytes they cover.
-/

namespace ByteMemory

/-- The words of `height` rows, one row every `line` bytes. -/
def rows {W : Type} (row : Nat → List W) (line : Nat) : Nat → Nat → List W
  | 0, _ => []
  | height + 1, dest => row dest ++ rows row line height (dest + line)

theorem rows_eq_flatMap {W : Type} (row : Nat → List W) (line height dest : Nat) :
    rows row line height dest = (List.range height).flatMap fun j => row (dest + j * line) := by
  induction height generalizing dest with
  | zero => rfl
  | succ height ih =>
    rw [rows, ih, List.range_succ_eq_map, List.flatMap_cons, List.flatMap_map, Nat.zero_mul,
      Nat.add_zero]
    simp only [Nat.succ_mul, Nat.add_comm _ line, ← Nat.add_assoc]

/-! ### Rows of stores -/

/-- The stores cover `size` bytes from `start` on and put the bytes of `g` there. -/
structure Paints (g : Bytes) (start size : Nat) (stores : List Store) : Prop where
  covers : ∀ a, start ≤ a → a < start + size → ∃ s ∈ stores, a ∈ s.bytes
  within : ∀ s ∈ stores, start ≤ s.addr ∧ s.addr + s.word ≤ start + size
  bytes : ∀ s ∈ stores, ∀ a ∈ s.bytes, s.byteAt a = g a

section Paints
variable {g : Bytes} {start m n : Nat} {as bs : List Store}

theorem Paints.spans (h : Paints g start m as) : Spans start m as := ⟨h.covers, h.within⟩

theorem paints_nil (g : Bytes) (start : Nat) : Paints g start 0 [] where
  covers := (spans_nil start).covers
  within := (spans_nil start).within
  bytes _ hs := absurd hs List.not_mem_nil

theorem paints_store {word value : Nat} (start : Nat)
    (bytes : ∀ e < word, byteOf value e = g (start + e)) :
    Paints g start word [⟨word, start, value⟩] where
  covers := (spans_store word start value).covers
  within := (spans_store word start value).within
  bytes s hs a ha := by
    obtain rfl := List.mem_singleton.mp hs
    obtain ⟨low, high⟩ := Store.mem_bytes.mp ha
    obtain ⟨e, rfl⟩ := Nat.exists_eq_add_of_le low
    dsimp only at high
    rw [Store.byteAt, Nat.add_sub_cancel_left]
    exact bytes e (by omega)

theorem Paints.append (front : Paints g start m as) (back : Paints g (start + m) n bs) :
    Paints g start (m + n) (as ++ bs) where
  covers := (front.spans.append back.spans).covers
  within := (front.spans.append back.spans).within
  bytes s hs := by
    rcases List.mem_append.mp hs with hs | hs
    · exact front.bytes s hs
    · exact back.bytes s hs

/-- Two ways of painting the same bytes. -/
theorem Paints.write_eq (left : Paints g start m as) (right : Paints g start m bs)
    (memory : Bytes) : write as memory = write bs memory := by
  have painted : ∀ {stores}, Paints g start m stores → ∀ a,
      write stores memory a = if start ≤ a ∧ a < start + m then g a else memory a := by
    intro stores paints a
    split
    · next inside =>
      exact write_of_agree _ (paints.covers a inside.1 inside.2) fun s hs ha =>
        paints.bytes s hs a ha
    · next outside =>
      apply write_of_untouched
      intro s hs ha
      have bounds := paints.within s hs
      have place := Store.mem_bytes.mp ha
      exact outside ⟨by omega, by omega⟩
  funext a
  rw [painted left, painted right]

theorem write_rows_eq {row row' : Nat → List Store}
    (same : ∀ dest memory, write (row dest) memory = write (row' dest) memory)
    (line height dest : Nat) (memory : Bytes) :
    write (rows row line height dest) memory = write (rows row' line height dest) memory := by
  induction height generalizing dest memory with
  | zero => rfl
  | succ height ih => rw [rows, rows, write_append, write_append, same, ih]

/-- Rows that do not overlap: along each of them the stores put the bytes of `f`. -/
theorem write_rows_apply {f : Nat → UInt8} {row : Nat → List Store} {size line : Nat}
    (apart : size ≤ line) (each : ∀ dest, Paints (fun a => f (a - dest)) dest size (row dest))
    (memory : Bytes) {height dest j i : Nat} (hj : j < height) (hi : i < size) :
    write (rows row line height dest) memory (dest + j * line + i) = f i := by
  rw [rows_eq_flatMap]
  apply write_of_agree
  · obtain ⟨s, hs, ha⟩ := (each (dest + j * line)).covers _ (Nat.le_add_right _ i) (by omega)
    exact ⟨s, List.mem_flatMap.mpr ⟨j, List.mem_range.mpr hj, hs⟩, ha⟩
  · intro s hs ha
    obtain ⟨j', -, hs⟩ := List.mem_flatMap.mp hs
    have bounds := (each (dest + j' * line)).within s hs
    have inside := Store.mem_bytes.mp ha
    have flat : j * line + i = j' * line + (dest + j * line + i - (dest + j' * line)) := by omega
    obtain ⟨-, column⟩ := row_unique (hi.trans_le apart) (by omega) flat
    rw [(each (dest + j' * line)).bytes s hs _ ha, ← column]

theorem write_rows_of_notMem {f : Nat → UInt8} {row : Nat → List Store} {size line : Nat}
    (each : ∀ dest, Paints (fun a => f (a - dest)) dest size (row dest)) (memory : Bytes)
    {height dest a : Nat} (off : a ∉ block dest line height size) :
    write (rows row line height dest) memory a = memory a := by
  rw [rows_eq_flatMap]
  apply write_of_untouched
  intro s hs ha
  obtain ⟨j, hj, hs⟩ := List.mem_flatMap.mp hs
  have bounds := (each (dest + j * line)).within s hs
  have inside := Store.mem_bytes.mp ha
  exact off ⟨j, List.mem_range.mp hj, a - (dest + j * line), by omega, by omega⟩

/-- Stores that agree where they overlap may be made in any order. -/
theorem write_eq_of_mem_iff (same : ∀ s, s ∈ as ↔ s ∈ bs)
    (agree : ∀ s ∈ as, ∀ t ∈ as, ∀ a ∈ s.bytes, a ∈ t.bytes → s.byteAt a = t.byteAt a)
    (memory : Bytes) : write as memory = write bs memory := by
  funext a
  by_cases covered : ∃ s ∈ as, a ∈ s.bytes
  · obtain ⟨s, hs, ha⟩ := covered
    have left := write_of_agree memory ⟨s, hs, ha⟩ fun t ht hat => agree t ht s hs a hat ha
    have right := write_of_agree memory ⟨s, (same s).mp hs, ha⟩ fun t ht hat =>
      agree t ((same t).mpr ht) s hs a hat ha
    rw [left, right]
  · rw [write_of_untouched memory fun s hs ha => covered ⟨s, hs, ha⟩,
      write_of_untouched memory fun s hs ha => covered ⟨s, (same s).mpr hs, ha⟩]

end Paints

/-! ### Inverted words -/

/-- A word that is read and stored again with the bits of the mask inverted. -/
structure Flip where
  word : Nat
  addr : Nat
  mask : Nat
  deriving DecidableEq, Repr

def Flip.apply (f : Flip) (m : Bytes) : Bytes :=
  (Store.mk f.word f.addr (load m f.addr f.word ^^^ f.mask)).apply m

def invert (flips : List Flip) (m : Bytes) : Bytes := flips.foldl (fun m f => f.apply m) m

/-- The bits that the word inverts in the byte at `a`. -/
def Flip.maskAt (f : Flip) (a : Nat) : UInt8 :=
  if f.addr ≤ a ∧ a < f.addr + f.word then byteOf f.mask (a - f.addr) else 0

/-- The bits that all the words together invert in the byte at `a`. -/
def inverted (flips : List Flip) (a : Nat) : UInt8 :=
  flips.foldr (fun f bits => f.maskAt a ^^^ bits) 0

theorem byteOf_xor (v w i : Nat) : byteOf (v ^^^ w) i = byteOf v i ^^^ byteOf w i := by
  have power : 256 ^ i = 2 ^ (8 * i) := by rw [Nat.pow_mul]
  rw [byteOf, byteOf, byteOf, power, Nat.xor_div_two_pow, UInt8.ofNat_xor]

theorem Flip.apply_apply (f : Flip) (m : Bytes) (a : Nat) : f.apply m a = m a ^^^ f.maskAt a := by
  rw [Flip.apply, Store.apply, Flip.maskAt]
  by_cases inside : f.addr ≤ a ∧ a < f.addr + f.word
  · obtain ⟨e, rfl⟩ := Nat.exists_eq_add_of_le inside.1
    rw [if_pos inside, if_pos inside, Store.byteAt, byteOf_xor, Nat.add_sub_cancel_left,
      byteOf_load m f.addr (by omega)]
  · rw [if_neg inside, if_neg inside, UInt8.xor_zero]

theorem invert_apply (flips : List Flip) (m : Bytes) (a : Nat) :
    invert flips m a = m a ^^^ inverted flips a := by
  induction flips generalizing m with
  | nil => exact UInt8.xor_zero.symm
  | cons f flips ih =>
    calc invert flips (f.apply m) a = f.apply m a ^^^ inverted flips a := ih _
      _ = m a ^^^ inverted (f :: flips) a := by
        rw [Flip.apply_apply, UInt8.xor_assoc]
        rfl

/-- Words read back before they are stored: inverting twice restores, whatever the words. -/
theorem invert_invert (flips : List Flip) (m : Bytes) : invert flips (invert flips m) = m := by
  funext a
  rw [invert_apply, invert_apply, UInt8.xor_assoc, UInt8.xor_self, UInt8.xor_zero]

theorem invert_eq_of_inverted {as bs : List Flip} (same : ∀ a, inverted as a = inverted bs a)
    (m : Bytes) : invert as m = invert bs m := by
  funext a
  rw [invert_apply, invert_apply, same]

theorem inverted_append (as bs : List Flip) (a : Nat) :
    inverted (as ++ bs) a = inverted as a ^^^ inverted bs a := by
  induction as with
  | nil => exact UInt8.zero_xor.symm
  | cons f as ih =>
    calc inverted (f :: (as ++ bs)) a = f.maskAt a ^^^ inverted (as ++ bs) a := rfl
      _ = inverted (f :: as) a ^^^ inverted bs a := by
        rw [ih, ← UInt8.xor_assoc]
        rfl

/-- The words invert the mask's bits in `size` bytes from `start` on and nothing else. -/
def Inverts (mask : UInt8) (start size : Nat) (flips : List Flip) : Prop :=
  ∀ a, inverted flips a = if start ≤ a ∧ a < start + size then mask else 0

section Inverts
variable {mask : UInt8} {start m n : Nat} {as bs : List Flip}

theorem inverts_nil (mask : UInt8) (start : Nat) : Inverts mask start 0 [] := by
  intro a
  rw [if_neg (by omega)]
  rfl

theorem inverts_word {word bits : Nat} (start : Nat) (bytes : ∀ e < word, byteOf bits e = mask) :
    Inverts mask start word [⟨word, start, bits⟩] := by
  intro a
  calc inverted [⟨word, start, bits⟩] a = Flip.maskAt ⟨word, start, bits⟩ a := UInt8.xor_zero
    _ = if start ≤ a ∧ a < start + word then mask else 0 := by
      rw [Flip.maskAt]
      split
      · next inside =>
        obtain ⟨e, rfl⟩ := Nat.exists_eq_add_of_le inside.1
        exact bytes _ (by dsimp only at inside ⊢; omega)
      · rfl

theorem Inverts.append (front : Inverts mask start m as) (back : Inverts mask (start + m) n bs) :
    Inverts mask start (m + n) (as ++ bs) := by
  intro a
  rw [inverted_append, front a, back a]
  by_cases first : start ≤ a ∧ a < start + m
  · rw [if_pos first, if_neg (by omega), if_pos (by omega), UInt8.xor_zero]
  · rw [if_neg first, UInt8.zero_xor]
    congr 1
    exact propext (by omega)

theorem inverted_rows_eq {row row' : Nat → List Flip}
    (same : ∀ dest a, inverted (row dest) a = inverted (row' dest) a) (line height dest a : Nat) :
    inverted (rows row line height dest) a = inverted (rows row' line height dest) a := by
  induction height generalizing dest with
  | zero => rfl
  | succ height ih => rw [rows, rows, inverted_append, inverted_append, same, ih]

/-- How many rows of `size` bytes hold the byte at `a`. -/
def rowsAt (size line height dest a : Nat) : Nat :=
  (List.range height).countP fun j => dest + j * line ≤ a ∧ a < dest + j * line + size

/-- Rows may overlap: a byte is inverted once for each row that holds it. -/
theorem inverted_rows_parity {row : Nat → List Flip} {size : Nat}
    (each : ∀ dest, Inverts mask dest size (row dest)) (line height dest a : Nat) :
    inverted (rows row line height dest) a =
      if rowsAt size line height dest a % 2 = 1 then mask else 0 := by
  rw [rows_eq_flatMap, rowsAt]
  induction height with
  | zero => rfl
  | succ height ih =>
    rw [List.range_succ, List.flatMap_append, List.flatMap_singleton, inverted_append, ih,
      each _ a, List.countP_append, List.countP_singleton]
    generalize (List.range height).countP _ = count
    by_cases inside : dest + height * line ≤ a ∧ a < dest + height * line + size
    · rw [if_pos inside, decide_eq_true inside, if_pos rfl]
      by_cases odd : count % 2 = 1
      · rw [if_pos odd, if_neg (by omega), UInt8.xor_self]
      · rw [if_neg odd, if_pos (by omega), UInt8.zero_xor]
    · rw [if_neg inside, decide_eq_false inside, if_neg Bool.false_ne_true, UInt8.xor_zero,
        Nat.add_zero]

theorem mem_block_succ {line height dest size a : Nat} : a ∈ block dest line (height + 1) size ↔
    (dest ≤ a ∧ a < dest + size) ∨ a ∈ block (dest + line) line height size := by
  constructor
  · rintro ⟨j, hj, i, hi, rfl⟩
    cases j with
    | zero => exact .inl (by omega)
    | succ j => exact .inr ⟨j, by omega, i, hi, by rw [Nat.succ_mul]; omega⟩
  · rintro (⟨low, high⟩ | ⟨j, hj, i, hi, rfl⟩)
    · exact ⟨0, by omega, a - dest, by omega, by omega⟩
    · exact ⟨j + 1, by omega, i, hi, by rw [Nat.succ_mul]; omega⟩

/-- Rows that do not overlap: the words invert the block. -/
theorem inverted_rows {row : Nat → List Flip} {size line : Nat} (apart : size ≤ line)
    (each : ∀ dest, Inverts mask dest size (row dest)) (height dest a : Nat) :
    (a ∈ block dest line height size → inverted (rows row line height dest) a = mask) ∧
      (a ∉ block dest line height size → inverted (rows row line height dest) a = 0) := by
  induction height generalizing dest with
  | zero =>
    constructor
    · rintro ⟨j, hj, -⟩
      exact absurd hj (Nat.not_lt_zero j)
    · exact fun _ => rfl
  | succ height ih =>
    have rest := ih (dest + line)
    rw [rows, inverted_append, each dest a, mem_block_succ]
    by_cases first : dest ≤ a ∧ a < dest + size
    · have later : a ∉ block (dest + line) line height size := by
        rintro ⟨j, -, i, -, place⟩
        omega
      rw [if_pos first, rest.2 later, UInt8.xor_zero]
      exact ⟨fun _ => rfl, fun off => absurd (.inl first) off⟩
    · rw [if_neg first, UInt8.zero_xor, or_iff_right first]
      exact rest

end Inverts

end ByteMemory
