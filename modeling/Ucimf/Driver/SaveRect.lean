import Ucimf.Driver.FbDev

/-!
# `SaveRect` and `RstrRect` of the linear drivers

Each driver walks two pointers over a rectangle, one on the screen and one in the save
buffer. The drivers differ in the words they move, in how far the pointers move on after
each word, and `FBLinear8` also in where its buffer pointer starts and how it gets to the
next row.
-/

namespace Ucimf.Driver

open ByteMemory

structure Rect where
  x1 : Int
  y1 : Int
  x2 : Int
  y2 : Int
  deriving DecidableEq, Repr

def Rect.width (r : Rect) : Nat := (r.x2 - r.x1 + 1).toNat

def Rect.height (r : Rect) : Nat := (r.y2 - r.y1 + 1).toNat

/-- `assert( *buffer != NULL )` and the assertions on the corners. -/
inductive Assertion
  | range
  | nullBuffer
  deriving DecidableEq, Repr

/-- The mapped framebuffer, the heap and the caller's `*buffer`; `0` is `NULL`. -/
structure Memory where
  fb : Bytes
  heap : Bytes
  buffer : Nat

/-- What a call leaves, and the copies it made. -/
structure Done where
  memory : Memory
  copies : List Copy

/-- The assertions on the corners of a rectangle. -/
def FBDev.InRange (d : FBDev) (r : Rect) : Prop :=
  d.OnScreen r.x1 r.y1 ∧ d.OnScreen r.x2 r.y2 ∧ r.x1 ≤ r.x2 ∧ r.y1 ≤ r.y2

instance (d : FBDev) (r : Rect) : Decidable (d.InRange r) :=
  inferInstanceAs (Decidable (d.OnScreen r.x1 r.y1 ∧ d.OnScreen r.x2 r.y2 ∧ _))

/-- `for ( int cnt = width ; cnt--;)` around `per` copies of a word, each of which moves both
pointers on by `step`. -/
def pixelLoop (word step per : Nat) : Nat → Nat → Nat → List Copy
  | 0, _, _ => []
  | cnt + 1, src, dst =>
    walk word step per src dst ++ pixelLoop word step per cnt (src + per * step) (dst + per * step)

theorem pixelLoop_eq (word step per cnt : Nat) :
    pixelLoop word step per cnt = walk word step (cnt * per) := by
  funext src dst
  induction cnt generalizing src dst with
  | zero => rw [Nat.zero_mul, pixelLoop, walk]
  | succ cnt ih => rw [pixelLoop, ih, Nat.add_mul, one_mul, Nat.add_comm _ per, walk_append]

/-- The loop over the rows of a save; `buf` moves on by `bufLine` in every row. -/
def FBDev.saving (d : FBDev) (bytes : Nat) (row : Nat → Nat → List Copy) (bufLine : Nat)
    (r : Rect) (buf : Nat) : List Copy :=
  lines row d.mNextLine bufLine r.height (d.address bytes r.x1 r.y1) buf

def FBDev.restoring (d : FBDev) (bytes : Nat) (row : Nat → Nat → List Copy) (bufLine : Nat)
    (r : Rect) (buf : Nat) : List Copy :=
  lines row bufLine d.mNextLine r.height buf (d.address bytes r.x1 r.y1)

/-- A `SaveRect` that fills the new block pixel after pixel; `block` is what `new char[]`
returned. -/
def packedSave (bytes word step per : Nat) (d : FBDev) (block : Nat) (r : Rect) (m : Memory) :
    Except Assertion Done :=
  if d.InRange r then
    let copies := d.saving bytes (pixelLoop word step per r.width) (r.width * bytes) r block
    .ok ⟨{ m with heap := copy copies m.fb m.heap, buffer := block }, copies⟩
  else .error .range

/-- A `RstrRect` that reads the buffer pixel after pixel, then releases it. -/
def packedRstr (bytes word step per : Nat) (d : FBDev) (r : Rect) (m : Memory) :
    Except Assertion Done :=
  if d.InRange r then
    if m.buffer = 0 then .error .nullBuffer
    else
      let copies := d.restoring bytes (pixelLoop word step per r.width) (r.width * bytes) r m.buffer
      .ok ⟨{ m with fb := copy copies m.heap m.fb, buffer := 0 }, copies⟩
  else .error .range

namespace FBLinear16

def saveRect := packedSave 2 2 2 1

def rstrRect := packedRstr 2 2 2 1

end FBLinear16

namespace FBLinear32

def saveRect := packedSave 4 4 4 1

def rstrRect := packedRstr 4 4 4 1

end FBLinear32

namespace FBLinear24

def saveRect := packedSave 3 1 1 3

/-- `fb_writew( fb_readw(buf++), dest8++ )`: words of two bytes, pointers to bytes. -/
def rstrRect := packedRstr 3 2 1 3

end FBLinear24

namespace FBLinear8

def saveRect (d : FBDev) (block : Nat) (r : Rect) (m : Memory) : Except Assertion Done :=
  if d.InRange r then
    -- `buf` was taken from `*buffer` before the block was allocated, and moves by `mNextLine`
    let copies := d.saving 1 (pixelLoop 1 1 1 (r.width * 1)) d.mNextLine r m.buffer
    .ok ⟨{ m with heap := copy copies m.fb m.heap, buffer := block }, copies⟩
  else .error .range

def rstrRect (d : FBDev) (r : Rect) (m : Memory) : Except Assertion Done :=
  if d.InRange r then
    if m.buffer = 0 then .error .nullBuffer
    else
      let copies := d.restoring 1 (pixelLoop 1 1 1 (r.width * 1)) d.mNextLine r m.buffer
      .ok ⟨{ m with fb := copy copies m.heap m.fb, buffer := 0 }, copies⟩
  else .error .range

end FBLinear8

namespace Linear

/-- The virtual call; `FBLinear15` inherits both functions from `FBLinear16`. -/
def saveRect : Linear → FBDev → Nat → Rect → Memory → Except Assertion Done
  | .fbLinear8 => FBLinear8.saveRect
  | .fbLinear15 | .fbLinear16 => FBLinear16.saveRect
  | .fbLinear24 => FBLinear24.saveRect
  | .fbLinear32 => FBLinear32.saveRect

def rstrRect : Linear → FBDev → Rect → Memory → Except Assertion Done
  | .fbLinear8 => FBLinear8.rstrRect
  | .fbLinear15 | .fbLinear16 => FBLinear16.rstrRect
  | .fbLinear24 => FBLinear24.rstrRect
  | .fbLinear32 => FBLinear32.rstrRect

end Linear

/-! ### The rectangle in the framebuffer and in the buffer -/

def Rect.Contains (r : Rect) (x y : Int) : Prop := r.x1 ≤ x ∧ x ≤ r.x2 ∧ r.y1 ≤ y ∧ y ≤ r.y2

/-- The bytes of the pixels of a rectangle. -/
def FBDev.rectBytes (d : FBDev) (bytes : Nat) (r : Rect) : Set Nat :=
  {a | ∃ x y, r.Contains x y ∧ a ∈ d.pixelBytes bytes x y}

/-- `buffer_bytes`. -/
def Rect.bufferBytes (r : Rect) (bytes : Nat) : Nat := r.height * r.width * bytes

/-- The block that was allocated. -/
def Rect.blockBytes (r : Rect) (bytes block : Nat) : Set Nat :=
  Set.Ico block (block + r.bufferBytes bytes)

section Geometry
variable {d : FBDev} {r : Rect} {bytes : Nat}

theorem Rect.bufferBytes_eq (r : Rect) (bytes : Nat) :
    r.bufferBytes bytes = r.height * (r.width * bytes) := Nat.mul_assoc ..

theorem Rect.mem_blockBytes {block j i : Nat} (hj : j < r.height) (hi : i < r.width * bytes) :
    block + j * (r.width * bytes) + i ∈ r.blockBytes bytes block := by
  have inside := row_lt hj hi
  rw [← Rect.bufferBytes_eq] at inside
  exact ⟨by omega, by omega⟩

theorem FBDev.InRange.width_le (h : d.InRange r) : r.x1.toNat + r.width ≤ d.mXres.toNat := by
  obtain ⟨⟨left, -, -, -⟩, ⟨-, right, -, -⟩, across, -⟩ := h
  rw [Rect.width]
  omega

theorem FBDev.InRange.height_le (h : d.InRange r) : r.y1.toNat + r.height ≤ d.mYres.toNat := by
  obtain ⟨⟨-, -, top, -⟩, ⟨-, -, -, bottom⟩, -, down⟩ := h
  rw [Rect.height]
  omega

theorem FBDev.InRange.width_pos (h : d.InRange r) : 0 < r.width := by
  obtain ⟨-, -, across, -⟩ := h
  rw [Rect.width]
  omega

theorem FBDev.InRange.height_pos (h : d.InRange r) : 0 < r.height := by
  obtain ⟨-, -, -, down⟩ := h
  rw [Rect.height]
  omega

theorem FBDev.InRange.row_le (h : d.InRange r) (room : d.mXres.toNat * bytes ≤ d.mNextLine) :
    r.width * bytes ≤ d.mNextLine :=
  (Nat.mul_le_mul_right bytes ((Nat.le_add_left _ _).trans h.width_le)).trans room

theorem FBDev.InRange.onScreen (h : d.InRange r) {x y : Int} (contained : r.Contains x y) :
    d.OnScreen x y := by
  obtain ⟨⟨left, -, top, -⟩, ⟨-, right, -, bottom⟩, -, -⟩ := h
  obtain ⟨hx, hx', hy, hy'⟩ := contained
  exact ⟨by omega, by omega, by omega, by omega⟩

/-- Where a byte of a pixel lies in the rows of the rectangle. -/
theorem FBDev.InRange.exists_offset (h : d.InRange r) {x y : Int} (contained : r.Contains x y)
    {e : Nat} (he : e < bytes) :
    ∃ j < r.height, ∃ i < r.width * bytes,
      d.address bytes x y + e = d.address bytes r.x1 r.y1 + j * d.mNextLine + i ∧
      i % bytes = e := by
  obtain ⟨⟨left, -, top, -⟩, -, -, -⟩ := h
  obtain ⟨hx, hx', hy, hy'⟩ := contained
  have column : (x - r.x1).toNat < r.width := by rw [Rect.width]; omega
  have row : (y - r.y1).toNat < r.height := by rw [Rect.height]; omega
  refine ⟨_, row, _, row_lt column he, ?_, Nat.mul_add_mod_of_lt he⟩
  have sameX : x.toNat = r.x1.toNat + (x - r.x1).toNat := by omega
  have sameY : y.toNat = r.y1.toNat + (y - r.y1).toNat := by omega
  rw [address, address, sameX, sameY, Nat.mul_add, Nat.mul_add, Nat.mul_comm (y - r.y1).toNat,
    Nat.mul_comm (x - r.x1).toNat]
  omega

/-- The bytes of a rectangle are rows of a block. -/
theorem FBDev.InRange.rectBytes_eq (h : d.InRange r) : d.rectBytes bytes r =
    block (d.address bytes r.x1 r.y1) d.mNextLine r.height (r.width * bytes) := by
  ext a
  constructor
  · rintro ⟨x, y, contained, low, high⟩
    obtain ⟨e, rfl⟩ := Nat.exists_eq_add_of_le low
    obtain ⟨j, hj, i, hi, place, -⟩ := h.exists_offset contained (by omega : e < bytes)
    exact ⟨j, hj, i, hi, place⟩
  · rintro ⟨j, hj, i, hi, rfl⟩
    obtain ⟨⟨left, -, top, -⟩, -, -, -⟩ := h
    obtain ⟨k, hk, low, high⟩ := exists_word hi
    rw [Rect.height] at hj
    rw [Rect.width] at hk
    refine ⟨r.x1 + k, r.y1 + j, ⟨by omega, by omega, by omega, by omega⟩, ?_⟩
    rw [mem_pixelBytes, address, Nat.mul_comm d.mNextLine, Nat.mul_comm bytes]
    have sameX : (r.x1 + k).toNat = r.x1.toNat + k := by omega
    have sameY : (r.y1 + j).toNat = r.y1.toNat + j := by omega
    refine ⟨i - k * bytes, by omega, ?_⟩
    rw [sameX, sameY, Nat.add_mul, Nat.add_mul]
    omega

end Geometry

/-! ### Saving, painting inside, restoring -/

/-- What may happen between a save and its restore: pixels of the rectangle are painted, and
the heap changes outside the block. -/
structure Scribbled (d : FBDev) (bytes : Nat) (r : Rect) (saved now : Memory) : Prop where
  outside : ∀ a, a ∉ d.rectBytes bytes r → now.fb a = saved.fb a
  block : ∀ a ∈ r.blockBytes bytes saved.buffer, now.heap a = saved.heap a
  buffer : now.buffer = saved.buffer

/-- Whatever was painted in between, restoring reads the block only, brings the whole
framebuffer back and leaves a null pointer. -/
def Linear.RoundTrip (k : Linear) (d : FBDev) (r : Rect) (before : Memory) (saved : Done) : Prop :=
  ∀ now, Scribbled d k.bytes r saved.memory now →
    ∃ restored, k.rstrRect d r now = .ok restored ∧ restored.memory.fb = before.fb ∧
      restored.memory.buffer = 0 ∧
      ∀ c ∈ restored.copies, c.reads ⊆ r.blockBytes k.bytes saved.memory.buffer

section Packed
variable {d : FBDev} {r : Rect} {bytes word step per : Nat}

theorem packedSave_eq (range : d.InRange r) (block : Nat) (m : Memory) :
    packedSave bytes word step per d block r m =
      .ok ⟨{ m with
        heap := copy (d.saving bytes (walk word step (r.width * per)) (r.width * bytes) r block)
          m.fb m.heap
        buffer := block },
        d.saving bytes (walk word step (r.width * per)) (r.width * bytes) r block⟩ := by
  rw [packedSave, if_pos range, pixelLoop_eq]

theorem packedRstr_eq (range : d.InRange r) {m : Memory} (full : m.buffer ≠ 0) :
    packedRstr bytes word step per d r m =
      .ok ⟨{ m with
        fb := copy (d.restoring bytes (walk word step (r.width * per)) (r.width * bytes) r m.buffer)
          m.heap m.fb
        buffer := 0 },
        d.restoring bytes (walk word step (r.width * per)) (r.width * bytes) r m.buffer⟩ := by
  rw [packedRstr, if_pos range, if_neg full, pixelLoop_eq]

theorem row_eq (pixel : bytes = per * step) : r.width * bytes = r.width * per * step := by
  rw [pixel, Nat.mul_assoc]

/-- A packed save writes in the block only. -/
theorem saving_writes (pixel : bytes = per * step) {block : Nat} {c : Copy}
    (hc : c ∈ d.saving bytes (walk step step (r.width * per)) (r.width * bytes) r block) :
    c.writes ⊆ r.blockBytes bytes block := by
  intro a ha
  obtain ⟨j, hj, i, hi, rfl, -⟩ := writes_block hc ha
  rw [← row_eq pixel] at hi
  exact Rect.mem_blockBytes hj hi

theorem restoring_reads (pixel : bytes = per * step) {block : Nat} {c : Copy}
    (hc : c ∈ d.restoring bytes (walk step step (r.width * per)) (r.width * bytes) r block) :
    c.reads ⊆ r.blockBytes bytes block := by
  intro a ha
  obtain ⟨j, hj, i, hi, rfl⟩ := reads_block hc ha
  rw [← row_eq pixel] at hi
  exact Rect.mem_blockBytes hj hi

theorem restoring_writes (pixel : bytes = per * step) (range : d.InRange r) {bufLine block : Nat}
    {c : Copy} (hc : c ∈ d.restoring bytes (walk step step (r.width * per)) bufLine r block) :
    c.writes ⊆ d.rectBytes bytes r := by
  intro a ha
  obtain ⟨j, hj, i, hi, rfl, -⟩ := writes_block hc ha
  rw [← row_eq pixel] at hi
  rw [range.rectBytes_eq]
  exact ⟨j, hj, i, hi, rfl⟩

/-- The storage still holds the rows that were saved. -/
theorem saved_byte (pixel : bytes = per * step) {block : Nat} {m now : Memory}
    (scribbled : Scribbled d bytes r
      { m with
        heap := copy (d.saving bytes (walk step step (r.width * per)) (r.width * bytes) r block)
          m.fb m.heap
        buffer := block } now) {j i : Nat} (hj : j < r.height) (hi : i < r.width * bytes) :
    now.heap (block + j * (r.width * bytes) + i) =
      m.fb (d.address bytes r.x1 r.y1 + j * d.mNextLine + i) := by
  rw [scribbled.block _ (Rect.mem_blockBytes hj hi)]
  rw [row_eq pixel] at hi ⊢
  exact copy_block_apply m.fb m.heap le_rfl hj hi

/-- Whole words walked there and back again give the framebuffer that was saved. -/
theorem restoring_saving (pixel : bytes = per * step) (range : d.InRange r) {block : Nat}
    {m now : Memory}
    (scribbled : Scribbled d bytes r
      { m with
        heap := copy (d.saving bytes (walk step step (r.width * per)) (r.width * bytes) r block)
          m.fb m.heap
        buffer := block } now) :
    copy (d.restoring bytes (walk step step (r.width * per)) (r.width * bytes) r block)
      now.heap now.fb = m.fb := by
  have outside := scribbled.outside
  have stored : ∀ j < r.height, ∀ i < r.width * bytes, _ = _ :=
    fun j hj i hi => saved_byte pixel scribbled hj hi
  rw [range.rectBytes_eq] at outside
  simp only [FBDev.restoring, row_eq pixel] at outside stored ⊢
  exact restore_block outside stored

/-- What a driver with an exact save and restore does. -/
structure Linear.Exact (k : Linear) (d : FBDev) (r : Rect) (block : Nat) (m : Memory)
    (saved : Done) : Prop where
  fb : saved.memory.fb = m.fb
  buffer : saved.memory.buffer = block
  writes : ∀ c ∈ saved.copies, c.writes ⊆ r.blockBytes k.bytes block
  roundTrip : k.RoundTrip d r m saved
  confined : ∀ now restored, k.rstrRect d r now = .ok restored →
    ∀ c ∈ restored.copies, c.writes ⊆ d.rectBytes k.bytes r

theorem exact_of_packed {k : Linear} (step per : Nat) (pixel : k.bytes = per * step)
    (range : d.InRange r) {block : Nat} (allocated : block ≠ 0) {m : Memory}
    (saves : k.saveRect d block r m = packedSave k.bytes step step per d block r m)
    (restores : ∀ now, k.rstrRect d r now = packedRstr k.bytes step step per d r now) :
    ∃ saved, k.saveRect d block r m = .ok saved ∧ k.Exact d r block m saved := by
  refine ⟨_, by rw [saves, packedSave_eq range], rfl, rfl,
    fun c hc => saving_writes pixel hc, ?_, ?_⟩
  · intro now scribbled
    have full : now.buffer ≠ 0 := by
      rw [scribbled.buffer]
      exact allocated
    refine ⟨_, by rw [restores, packedRstr_eq range full], ?_, rfl, ?_⟩
    · dsimp only
      rw [scribbled.buffer]
      exact restoring_saving pixel range scribbled
    · intro c hc
      have reads := restoring_reads pixel hc
      rwa [scribbled.buffer] at reads
  · intro now restored returned
    rw [restores] at returned
    by_cases full : now.buffer = 0
    · rw [packedRstr, if_pos range, if_pos full] at returned
      cases returned
    · rw [packedRstr_eq range full] at returned
      cases returned
      exact fun c hc => restoring_writes pixel range hc

end Packed

/-! ### The drivers of whole words -/

/-- The drivers of 15, 16 and 32 bits save and restore exactly, inside the rectangle and
inside the block. -/
theorem save_restore_exact {k : Linear}
    (words : k = .fbLinear15 ∨ k = .fbLinear16 ∨ k = .fbLinear32) {d : FBDev} {r : Rect}
    (range : d.InRange r) {block : Nat} (allocated : block ≠ 0) (m : Memory) :
    ∃ saved, k.saveRect d block r m = .ok saved ∧ k.Exact d r block m saved := by
  rcases words with rfl | rfl | rfl
  · exact exact_of_packed 2 1 rfl range allocated rfl fun _ => rfl
  · exact exact_of_packed 2 1 rfl range allocated rfl fun _ => rfl
  · exact exact_of_packed 4 1 rfl range allocated rfl fun _ => rfl

theorem save_restore_exact_corner :
    ∃ saved, Linear.fbLinear32.saveRect ⟨640, 480, 2560, 1228800, some .fbLinear32⟩ 4096
      ⟨600, 400, 639, 479⟩ ⟨fun a => UInt8.ofNat a, fun _ => 0, 0⟩ = .ok saved ∧
      Linear.fbLinear32.Exact ⟨640, 480, 2560, 1228800, some .fbLinear32⟩
        ⟨600, 400, 639, 479⟩ 4096 ⟨fun a => UInt8.ofNat a, fun _ => 0, 0⟩ saved :=
  save_restore_exact (.inr (.inr rfl)) (by decide) (by decide) _

/-! ### Eight bits -/

section Eight
variable {d : FBDev} {r : Rect}

theorem Rect.height_eq_one (range : d.InRange r) : r.height = 1 ↔ r.y1 = r.y2 := by
  obtain ⟨-, -, -, down⟩ := range
  rw [Rect.height]
  omega

/-- With one row, or rows that fill the line, the buffer pointer of `FBLinear8` walks as that
of a packed buffer. -/
theorem FBLinear8.saveRect_eq (range : d.InRange r)
    (flat : r.y1 = r.y2 ∨ r.width = d.mNextLine) {block : Nat} {m : Memory}
    (reused : m.buffer = block) :
    FBLinear8.saveRect d block r m = packedSave 1 1 1 1 d block r m := by
  have same : d.saving 1 (pixelLoop 1 1 1 (r.width * 1)) d.mNextLine r m.buffer =
      d.saving 1 (pixelLoop 1 1 1 r.width) (r.width * 1) r block := by
    rw [reused, Nat.mul_one]
    rcases flat with one | full
    · rw [FBDev.saving, FBDev.saving, (Rect.height_eq_one range).mpr one, lines_one, lines_one]
    · rw [full]
  rw [saveRect, packedSave, same]

theorem FBLinear8.rstrRect_eq (range : d.InRange r)
    (flat : r.y1 = r.y2 ∨ r.width = d.mNextLine) (m : Memory) :
    FBLinear8.rstrRect d r m = packedRstr 1 1 1 1 d r m := by
  have same : d.restoring 1 (pixelLoop 1 1 1 (r.width * 1)) d.mNextLine r m.buffer =
      d.restoring 1 (pixelLoop 1 1 1 r.width) (r.width * 1) r m.buffer := by
    rw [Nat.mul_one]
    rcases flat with one | full
    · rw [FBDev.restoring, FBDev.restoring, (Rect.height_eq_one range).mpr one, lines_one,
        lines_one]
    · rw [full]
  rw [rstrRect, packedRstr, same]

/-- The first and the last byte that `FBLinear8` saves show where its buffer pointer went. -/
theorem FBLinear8.reused_of_writes (room : d.mXres.toNat ≤ d.mNextLine) (range : d.InRange r)
    {block buf : Nat}
    (writes : ∀ c ∈ d.saving 1 (pixelLoop 1 1 1 (r.width * 1)) d.mNextLine r buf,
      c.writes ⊆ r.blockBytes 1 block) :
    buf = block ∧ (r.y1 = r.y2 ∨ r.width = d.mNextLine) := by
  have walked : ∀ j < r.height, ∀ i < r.width,
      block ≤ buf + j * d.mNextLine + i ∧
        buf + j * d.mNextLine + i < block + r.height * r.width := by
    intro j hj i hi
    have copied : (⟨1, d.address 1 r.x1 r.y1 + j * d.mNextLine + i * 1,
        buf + j * d.mNextLine + i * 1⟩ : Copy) ∈
        d.saving 1 (pixelLoop 1 1 1 (r.width * 1)) d.mNextLine r buf := by
      refine mem_lines.mpr ⟨j, hj, ?_⟩
      rw [pixelLoop_eq]
      exact mem_walk.mpr ⟨i, by omega, rfl⟩
    have inside := writes _ copied (Copy.mem_writes.mpr ⟨le_rfl, Nat.lt_succ_self _⟩)
    simpa [Rect.blockBytes, Rect.bufferBytes] using inside
  have wide := range.width_pos
  have high := range.height_pos
  have columns : d.mXres.toNat * 1 ≤ d.mNextLine := by rwa [Nat.mul_one]
  have line := range.row_le columns
  rw [Nat.mul_one] at line
  obtain ⟨first, -⟩ := walked 0 high 0 wide
  obtain ⟨-, last⟩ := walked (r.height - 1) (by omega) (r.width - 1) (by omega)
  obtain ⟨h, height⟩ : ∃ h, r.height = h + 1 := ⟨r.height - 1, by omega⟩
  rw [height, Nat.add_sub_cancel, Nat.add_mul, one_mul] at last
  have longer : h * r.width ≤ h * d.mNextLine := Nat.mul_le_mul_left h line
  refine ⟨by omega, ?_⟩
  rcases Nat.eq_zero_or_pos h with one | more
  · left
    rw [← Rect.height_eq_one range, height, one]
  · right
    have shorter : h * d.mNextLine ≤ h * r.width := by omega
    exact le_antisymm line (Nat.le_of_mul_le_mul_left shorter more)

/-- `FBLinear8` is exact and in bounds only if the allocator hands the old block out again
and the rows lie without gaps. -/
theorem fbLinear8_exact_iff (room : d.mXres.toNat ≤ d.mNextLine) (range : d.InRange r)
    {block : Nat} (allocated : block ≠ 0) (m : Memory) :
    (∃ saved, Linear.fbLinear8.saveRect d block r m = .ok saved ∧
      (∀ c ∈ saved.copies, c.writes ⊆ r.blockBytes Linear.fbLinear8.bytes block) ∧
      Linear.fbLinear8.RoundTrip d r m saved) ↔
    m.buffer = block ∧ (r.y1 = r.y2 ∨ r.width = d.mNextLine) := by
  constructor
  · rintro ⟨saved, returned, writes, -⟩
    rw [Linear.saveRect, FBLinear8.saveRect, if_pos range] at returned
    cases returned
    exact FBLinear8.reused_of_writes room range writes
  · rintro ⟨reused, flat⟩
    obtain ⟨saved, returned, faithful⟩ := exact_of_packed (k := .fbLinear8) 1 1 rfl range allocated
      (FBLinear8.saveRect_eq range flat reused) (FBLinear8.rstrRect_eq range flat)
    exact ⟨saved, returned, faithful.writes, faithful.roundTrip⟩

/-- Saving through a null pointer, ten columns and four rows of a screen of 640 x 480. -/
theorem fbLinear8_null_buffer :
    ¬ ∃ saved, Linear.fbLinear8.saveRect ⟨640, 480, 640, 307200, some .fbLinear8⟩ 4096
        ⟨0, 0, 9, 3⟩ ⟨fun _ => 0, fun _ => 0, 0⟩ = .ok saved ∧
      (∀ c ∈ saved.copies, c.writes ⊆ Rect.blockBytes ⟨0, 0, 9, 3⟩ 1 4096) ∧
      Linear.fbLinear8.RoundTrip ⟨640, 480, 640, 307200, some .fbLinear8⟩ ⟨0, 0, 9, 3⟩
        ⟨fun _ => 0, fun _ => 0, 0⟩ saved := by
  rintro ⟨saved, returned, writes, -⟩
  cases returned
  obtain ⟨reused, -⟩ := FBLinear8.reused_of_writes (d := ⟨640, 480, 640, 307200, some .fbLinear8⟩)
    (r := ⟨0, 0, 9, 3⟩) (by decide) (by decide) writes
  exact absurd reused (by decide)

theorem fbLinear8_exact_row :
    ∃ saved, Linear.fbLinear8.saveRect ⟨640, 480, 640, 307200, some .fbLinear8⟩ 4096
        ⟨0, 2, 9, 2⟩ ⟨fun _ => 0, fun _ => 0, 4096⟩ = .ok saved ∧
      (∀ c ∈ saved.copies, c.writes ⊆
        Rect.blockBytes ⟨0, 2, 9, 2⟩ Linear.fbLinear8.bytes 4096) ∧
      Linear.fbLinear8.RoundTrip ⟨640, 480, 640, 307200, some .fbLinear8⟩ ⟨0, 2, 9, 2⟩
        ⟨fun _ => 0, fun _ => 0, 4096⟩ saved :=
  (fbLinear8_exact_iff (by decide) (by decide) (by decide) _).mpr ⟨rfl, .inl rfl⟩

end Eight

/-! ### Twenty-four bits -/

section TwentyFour
variable {d : FBDev} {r : Rect}

theorem FBLinear24.mem_restoring {buf : Nat} {c : Copy} :
    c ∈ d.restoring 3 (walk 2 1 (r.width * 3)) (r.width * 3) r buf ↔
      ∃ j < r.height, ∃ k < r.width * 3,
        c = ⟨2, buf + j * (r.width * 3) + k, d.address 3 r.x1 r.y1 + j * d.mNextLine + k⟩ := by
  simp only [FBDev.restoring, mem_lines_walk, Nat.mul_one]

theorem FBLinear24.restoring_byte {buf : Nat} {c : Copy}
    (hc : c ∈ d.restoring 3 (walk 2 1 (r.width * 3)) (r.width * 3) r buf) {a : Nat}
    (ha : a ∈ c.writes) :
    ∃ j < r.height, ∃ i ≤ r.width * 3, a = d.address 3 r.x1 r.y1 + j * d.mNextLine + i ∧
      c.src + (a - c.dst) = buf + j * (r.width * 3) + i := by
  obtain ⟨j, hj, k, hk, rfl⟩ := FBLinear24.mem_restoring.mp hc
  have bounds := Copy.mem_writes.mp ha
  dsimp only at bounds ⊢
  exact ⟨j, hj, a - (d.address 3 r.x1 r.y1 + j * d.mNextLine), by omega, by omega, by omega⟩

/-- The byte right of a row gets what the buffer holds after that row. -/
theorem FBLinear24.restored_edge (room : r.width * 3 ≤ d.mNextLine) {buf : Nat}
    (heap fb : Bytes) (wide : 0 < r.width) {j : Nat} (hj : j < r.height) :
    copy (d.restoring 3 (walk 2 1 (r.width * 3)) (r.width * 3) r buf) heap fb
        (d.address 3 r.x1 r.y1 + j * d.mNextLine + r.width * 3) =
      heap (buf + (j + 1) * (r.width * 3)) := by
  apply copy_of_agree
  · exact ⟨_, FBLinear24.mem_restoring.mpr ⟨j, hj, r.width * 3 - 1, by omega, rfl⟩,
      Copy.mem_writes.mpr (by dsimp only; omega)⟩
  · intro c hc ha
    obtain ⟨j', hj', i, hi, place, from_⟩ := FBLinear24.restoring_byte hc ha
    rw [from_]
    have flat : j * d.mNextLine + r.width * 3 = j' * d.mNextLine + i := by omega
    rcases room.eq_or_lt with full | gap
    · -- rows without a gap: the byte is also the first one of the next row
      rw [← full, ← Nat.succ_mul] at flat
      rcases hi.eq_or_lt with last | inside
      · rw [last, ← Nat.succ_mul] at flat
        rw [last, Nat.add_assoc, ← Nat.succ_mul, ← flat]
      · obtain ⟨next, first⟩ := row_unique (i := 0) (by omega) inside flat
        rw [← next, ← first, Nat.add_zero]
    · obtain ⟨rfl, rfl⟩ := row_unique gap (hi.trans_lt gap) flat
      rw [Nat.add_assoc, ← Nat.succ_mul]

/-- When the whole framebuffer comes back in spite of the reads past each row: the byte right
of a row must equal the first byte of the next row, and the one right of the last row what
lies after the block. -/
theorem FBLinear24.fb_restored_iff (room : d.mXres.toNat * 3 ≤ d.mNextLine) (range : d.InRange r)
    {block : Nat} (allocated : block ≠ 0) {m now : Memory} {saved restored : Done}
    (saves : FBLinear24.saveRect d block r m = .ok saved)
    (scribbled : Scribbled d 3 r saved.memory now)
    (restores : FBLinear24.rstrRect d r now = .ok restored) :
    restored.memory.fb = m.fb ↔
      (∀ j, j + 1 < r.height →
        m.fb (d.address 3 r.x1 r.y1 + (j + 1) * d.mNextLine) =
          m.fb (d.address 3 r.x1 r.y1 + j * d.mNextLine + r.width * 3)) ∧
      now.heap (block + r.bufferBytes 3) =
        m.fb (d.address 3 r.x1 r.y1 + (r.height - 1) * d.mNextLine + r.width * 3) := by
  rw [saveRect, packedSave_eq range] at saves
  cases saves
  have full : now.buffer ≠ 0 := by
    rw [scribbled.buffer]
    exact allocated
  have same : now.buffer = block := scribbled.buffer
  rw [rstrRect, packedRstr_eq range full, same] at restores
  cases restores
  have wide := range.width_pos
  have row := range.row_le room
  have rows : ∀ j < r.height, ∀ i < r.width * 3, _ = _ :=
    fun j hj i hi => saved_byte (rfl : 3 = 3 * 1) scribbled hj hi
  have next : ∀ j, j + 1 < r.height → now.heap (block + (j + 1) * (r.width * 3)) =
      m.fb (d.address 3 r.x1 r.y1 + (j + 1) * d.mNextLine) :=
    fun j hj => rows (j + 1) hj 0 (by omega)
  have size : r.bufferBytes 3 = (r.height - 1 + 1) * (r.width * 3) := by
    rw [Rect.bufferBytes_eq, Nat.sub_add_cancel range.height_pos]
  have edges : (∀ j < r.height, now.heap (block + (j + 1) * (r.width * 3)) =
        m.fb (d.address 3 r.x1 r.y1 + j * d.mNextLine + r.width * 3)) ↔ _ ∧ _ :=
    ⟨fun edge => ⟨fun j hj => (next j hj).symm.trans (edge j (by omega)),
        size ▸ edge (r.height - 1) (Nat.sub_lt range.height_pos one_pos)⟩,
      fun ⟨inner, last⟩ j hj => by
        by_cases lower : j + 1 < r.height
        · exact (next j lower).trans (inner j lower)
        · obtain rfl : j = r.height - 1 := by omega
          exact size ▸ last⟩
  rw [← edges]
  constructor
  · intro whole j hj
    rw [← restored_edge row now.heap now.fb wide hj]
    exact congrFun whole _
  · intro edge
    funext a
    by_cases covered : ∃ c ∈ d.restoring 3 (walk 2 1 (r.width * 3)) (r.width * 3) r block,
        a ∈ c.writes
    · apply copy_of_agree _ covered
      intro c hc ha
      obtain ⟨j, hj, i, hi, rfl, from_⟩ := restoring_byte hc ha
      rw [from_]
      rcases hi.eq_or_lt with rfl | inside
      · rw [Nat.add_assoc, ← Nat.succ_mul]
        exact edge j hj
      · exact rows j hj i inside
    · have clear : ∀ c ∈ d.restoring 3 (walk 2 1 (r.width * 3)) (r.width * 3) r block,
          a ∉ c.writes := fun c hc ha => covered ⟨c, hc, ha⟩
      refine (copy_of_untouched now.heap now.fb clear).trans (scribbled.outside a ?_)
      rw [range.rectBytes_eq]
      rintro ⟨j, hj, i, hi, rfl⟩
      exact covered ⟨_, mem_restoring.mpr ⟨j, hj, i, hi, rfl⟩,
        Copy.mem_writes.mpr (by dsimp only; omega)⟩

/-- The last word of a restore reaches one byte past the buffer. -/
theorem FBLinear24.rstrRect_overreads (range : d.InRange r) {m : Memory} (full : m.buffer ≠ 0)
    {restored : Done} (returned : FBLinear24.rstrRect d r m = .ok restored) :
    ∃ c ∈ restored.copies, m.buffer + r.bufferBytes 3 ∈ c.reads := by
  rw [rstrRect, packedRstr_eq range full] at returned
  cases returned
  have high := range.height_pos
  have wide := range.width_pos
  refine ⟨_, FBLinear24.mem_restoring.mpr
    ⟨r.height - 1, by omega, r.width * 3 - 1, by omega, rfl⟩, ?_⟩
  obtain ⟨h, height⟩ : ∃ h, r.height = h + 1 := ⟨r.height - 1, by omega⟩
  simp only [Copy.mem_reads, Rect.bufferBytes_eq, height, Nat.add_sub_cancel, Nat.add_mul, one_mul]
  omega

/-- `FBLinear24` never restores within the buffer, whatever the rectangle. -/
theorem fbLinear24_never_exact (range : d.InRange r) {block : Nat} (allocated : block ≠ 0)
    (m : Memory) :
    ¬ ∃ saved, Linear.fbLinear24.saveRect d block r m = .ok saved ∧
      Linear.fbLinear24.RoundTrip d r m saved := by
  rintro ⟨saved, returned, roundTrip⟩
  have saves : Linear.fbLinear24.saveRect d block r m = _ := packedSave_eq range block m
  rw [saves] at returned
  cases returned
  obtain ⟨restored, returned, -, -, reads⟩ :=
    roundTrip _ ⟨fun _ _ => rfl, fun _ _ => rfl, rfl⟩
  obtain ⟨c, hc, past⟩ := FBLinear24.rstrRect_overreads range allocated returned
  have inside := reads c hc past
  exact absurd inside.2 (lt_irrefl _)

/-- On a screen of four pixels in one row, the byte after the restored pixel changes when the
heap after the block holds another one. -/
theorem fbLinear24_spill :
    ¬ ∃ saved, Linear.fbLinear24.saveRect ⟨4, 1, 12, 12, some .fbLinear24⟩ 4096 ⟨0, 0, 0, 0⟩
        ⟨fun _ => 0, fun _ => 255, 0⟩ = .ok saved ∧
      Linear.fbLinear24.RoundTrip ⟨4, 1, 12, 12, some .fbLinear24⟩ ⟨0, 0, 0, 0⟩
        ⟨fun _ => 0, fun _ => 255, 0⟩ saved := by
  rintro ⟨saved, returned, roundTrip⟩
  cases returned
  obtain ⟨restored, returned, whole, -, -⟩ :=
    roundTrip _ ⟨fun _ _ => rfl, fun _ _ => rfl, rfl⟩
  cases returned
  exact absurd (congrFun whole 3) (by decide)

theorem fbLinear24_never_exact_pixel :
    ¬ ∃ saved, Linear.fbLinear24.saveRect ⟨4, 1, 12, 12, some .fbLinear24⟩ 4096 ⟨0, 0, 0, 0⟩
        ⟨fun _ => 0, fun _ => 0, 0⟩ = .ok saved ∧
      Linear.fbLinear24.RoundTrip ⟨4, 1, 12, 12, some .fbLinear24⟩ ⟨0, 0, 0, 0⟩
        ⟨fun _ => 0, fun _ => 0, 0⟩ saved :=
  fbLinear24_never_exact (by decide) (by decide) _

end TwentyFour

end Ucimf.Driver
