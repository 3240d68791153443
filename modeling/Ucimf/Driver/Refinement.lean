import Ucimf.Driver.Words
import Ucimf.Display.Device
import Ucimf.Support.Regions
import Ucimf.Support.Run

/-!
# Bytes behind the device

A driver of whole words keeps its pixels in the bytes of the framebuffer and its save buffers
in blocks of the heap. Whatever it is called for, it does what the device behind the graph
ports does, as long as no restore asks for more pixels than were saved.
-/

namespace Ucimf.Driver

open ByteMemory Outcome Regions Transition Display

variable {N : Type}

/-- The mapped framebuffer, the heap with the blocks that are allocated, the buffer pointers of
the caller (`0` is `NULL`), and all blocks that were ever handed out. -/
structure Screen (N : Type) where
  fb : Bytes
  heap : Bytes
  buffer : N → Nat
  live : List Region
  past : List Region

namespace Screen

variable (s : Screen N)

/-- The blocks that are left after `delete [] (*buffer)`. -/
def freed (b : N) : List Region := s.live.filter (·.start ≠ s.buffer b)

/-- What `new char[buffer_bytes]` promises. The old block of the pointer is deleted before. -/
def Fresh (bytes block : Nat) : DevCall N (Fin 16) → Prop
  | .saveRect b x1 y1 x2 y2 => block ≠ 0 ∧
      ∀ x ∈ s.freed b, Region.Apart ⟨block, Rect.bufferBytes ⟨x1, y1, x2, y2⟩ bytes⟩ x
  | _ => True

end Screen

def Assertion.fault : Assertion → Fault
  | .range => .range
  | .nullBuffer => .nullBuffer

namespace Words

variable (k : Words) (d : FBDev) [DecidableEq N]

/-- `block` is what `new char[]` returns, if it is called. -/
def exec (block : Nat) (s : Screen N) : DevCall N (Fin 16) → Except Assertion (Screen N)
  | .putPixel x y color => do
    let fb ← k.putPixel d color s.fb (x, y)
    .ok { s with fb := fb }
  | .fillRect x1 y1 x2 y2 color => do
    let fb ← k.fillRect d ⟨x1, y1, x2, y2⟩ color s.fb
    .ok { s with fb := fb }
  | .revRect x1 y1 x2 y2 => do
    let fb ← k.linear.revRect d ⟨x1, y1, x2, y2⟩ s.fb
    .ok { s with fb := fb }
  | .forget b => .ok { s with buffer := Function.update s.buffer b 0 }
  | .saveRect b x1 y1 x2 y2 => do
    let r : Rect := ⟨x1, y1, x2, y2⟩
    let done ← k.linear.saveRect d block r ⟨s.fb, s.heap, s.buffer b⟩
    .ok { fb := done.memory.fb
          heap := done.memory.heap
          buffer := Function.update s.buffer b done.memory.buffer
          live := ⟨block, r.bufferBytes k.bytes⟩ :: s.freed b
          past := ⟨block, r.bufferBytes k.bytes⟩ :: s.past }
  | .rstrRect b x1 y1 x2 y2 => do
    let done ← k.linear.rstrRect d ⟨x1, y1, x2, y2⟩ ⟨s.fb, s.heap, s.buffer b⟩
    .ok { fb := done.memory.fb
          heap := done.memory.heap
          buffer := Function.update s.buffer b done.memory.buffer
          live := s.freed b
          past := s.past }

/-- A call that meets no assertion, whatever block the allocator chooses. -/
def Step (s : Screen N) (call : DevCall N (Fin 16)) (t : Screen N) : Prop :=
  ∃ block, s.Fresh k.bytes block call ∧ k.exec d block s call = .ok t

/-- All bytes of a pixel inverted. -/
def invert (p : Dot k.bytes) : Dot k.bytes := fun e => p e ^^^ 0xff

/-- The device behind the graph ports, with pixels of the driver. -/
def device (a : Device N (Dot k.bytes)) (call : DevCall N (Fin 16)) :
    Except Fault (Device N (Dot k.bytes)) := a.exec k.colour k.invert call

/-- The framebuffer shows the device. -/
structure Pictured (fb : Bytes) (dev : GraphDev (Dot k.bytes)) : Prop where
  width : dev.xres = d.mXres
  height : dev.yres = d.mYres
  dots : ∀ x y, d.OnScreen x y → ∀ e : Fin k.bytes,
    fb (d.address k.bytes x y + e) = dev.pixel (x, y) e

/-- An allocated block holds the pixels that were saved. -/
structure Holds (heap : Bytes) (live : List Region) (p : Nat) (saved : List (Dot k.bytes)) :
    Prop where
  some : saved ≠ []
  full : p ≠ 0
  live : ⟨p, saved.length * k.bytes⟩ ∈ live
  dots : ∀ i (inside : i < saved.length) (e : Fin k.bytes),
    heap (p + (i * k.bytes + e)) = saved[i] e

/-- The heap holds the buffers of the device, no two of them in one place. -/
structure Kept (heap : Bytes) (live : List Region) (pointer : N → Nat)
    (buffer : N → Option (List (Dot k.bytes))) : Prop where
  null : ∀ b, buffer b = none → pointer b = 0
  held : ∀ b saved, buffer b = some saved → k.Holds heap live (pointer b) saved
  apart : ∀ b c saved saved', b ≠ c → buffer b = some saved → buffer c = some saved' →
    Region.Apart ⟨pointer b, saved.length * k.bytes⟩ ⟨pointer c, saved'.length * k.bytes⟩

/-- No byte has changed but those of the pixels on the screen. -/
def Untouched (before after : Bytes) : Prop :=
  ∀ a, (∀ x y, d.OnScreen x y → a ∉ d.pixelBytes k.bytes x y) → after a = before a

structure Shows (s : Screen N) (a : Device N (Dot k.bytes)) : Prop where
  pictured : k.Pictured d s.fb a.dev
  kept : k.Kept s.heap s.live s.buffer a.buffer

end Words

/-! ### What the calls change -/

namespace Words

variable {k : Words} {d : FBDev} {r : Rect}

section Picture
variable {fb after : Bytes} {dev : GraphDev (Dot k.bytes)} {x y : Int}

theorem Pictured.onScreen (h : k.Pictured d fb dev) : dev.OnScreen x y ↔ d.OnScreen x y := by
  rw [GraphDev.OnScreen, FBDev.OnScreen, h.width, h.height]

theorem Pictured.inRange (h : k.Pictured d fb dev) (x1 y1 x2 y2 : Int) :
    dev.InRange x1 y1 x2 y2 ↔ d.InRange ⟨x1, y1, x2, y2⟩ := by
  rw [GraphDev.InRange, FBDev.InRange, h.onScreen, h.onScreen]

/-- The pixels of a rectangle change, on the framebuffer and on the device. -/
theorem Pictured.drawn (h : k.Pictured d fb dev) (room : d.mXres.toNat * k.bytes ≤ d.mNextLine)
    (range : d.InRange r) {picture : Int × Int → Dot k.bytes}
    (drawn : Drawn d k.bytes r picture fb after) {pixel : Point → Dot k.bytes}
    (inside : ∀ x y, r.Contains x y → pixel (x, y) = picture (x, y))
    (outside : ∀ x y, ¬ r.Contains x y → pixel (x, y) = dev.pixel (x, y)) :
    k.Pictured d after { dev with pixel := pixel } where
  width := h.width
  height := h.height
  dots x y visible e := by
    dsimp only
    by_cases contained : r.Contains x y
    · rw [inside x y contained]
      exact drawn.inside x y contained e
    · rw [outside x y contained, ← h.dots x y visible e]
      apply drawn.outside
      rintro ⟨x', y', contained', there⟩
      have differ : (x, y) ≠ (x', y') := by
        rintro ⟨⟩
        exact contained contained'
      have apart := FBDev.pixelBytes_disjoint room visible (range.onScreen contained') differ
      exact Set.disjoint_left.mp apart
        ⟨Nat.le_add_right _ _, Nat.add_lt_add_left e.isLt _⟩ there

theorem untouched_of_drawn (range : d.InRange r) {picture : Int × Int → Dot k.bytes}
    (drawn : Drawn d k.bytes r picture fb after) : k.Untouched d fb after := by
  intro a off
  apply drawn.outside
  rintro ⟨x, y, contained, member⟩
  exact off x y (range.onScreen contained) member

end Picture

section Buffers
variable {heap heap' : Bytes} {live live' : List Region} {pointer : N → Nat}
  {buffer : N → Option (List (Dot k.bytes))} {b c : N} {p : Nat} {saved : List (Dot k.bytes)}

theorem Holds.length_pos (h : k.Holds heap live p saved) : 0 < saved.length * k.bytes :=
  Nat.mul_pos (List.length_pos_iff.mpr h.some) k.bytes_pos

/-- A block stays what it is while it is allocated and nothing is stored in it. -/
theorem Holds.still (h : k.Holds heap live p saved)
    (allocated : ⟨p, saved.length * k.bytes⟩ ∈ live')
    (same : ∀ a, p ≤ a → a < p + saved.length * k.bytes → heap' a = heap a) :
    k.Holds heap' live' p saved where
  some := h.some
  full := h.full
  live := allocated
  dots i inside e := by
    rw [same _ (Nat.le_add_right _ _) (Nat.add_lt_add_left (row_lt inside e.isLt) _)]
    exact h.dots i inside e

theorem Kept.distinct (h : k.Kept heap live pointer buffer) (differ : c ≠ b)
    (some : buffer c = some saved) : pointer c ≠ pointer b := by
  have held := h.held c saved some
  cases other : buffer b with
  | none =>
    rw [h.null b other]
    exact held.full
  | some saved' =>
    intro same
    have size := held.length_pos
    have size' := (h.held b saved' other).length_pos
    have apart := h.apart c b saved saved' differ some other
    rw [Region.Apart] at apart
    dsimp only at apart
    omega

variable [DecidableEq N]

omit [DecidableEq N] in
theorem mem_others {x : Region} (member : x ∈ live) (other : x.start ≠ p) :
    x ∈ live.filter (·.start ≠ p) :=
  List.mem_filter.mpr ⟨member, by simpa using other⟩

/-- A pointer is nulled; the blocks of the other pointers are still allocated. -/
theorem Kept.nulled (h : k.Kept heap live pointer buffer) (b : N)
    (keeps : ∀ x ∈ live, x.start ≠ pointer b → x ∈ live') :
    k.Kept heap live' (Function.update pointer b 0) (Function.update buffer b none) where
  null c empty := by
    by_cases same : c = b
    · rw [same, Function.update_self]
    · rw [Function.update_of_ne same] at empty ⊢
      exact h.null c empty
  held c saved some := by
    by_cases same : c = b
    · rw [same, Function.update_self] at some
      cases some
    · rw [Function.update_of_ne same] at some ⊢
      have held := h.held c saved some
      exact held.still (keeps _ held.live (h.distinct same some)) fun a _ _ => rfl
  apart c c' saved saved' differ some some' := by
    by_cases same : c = b
    · rw [same, Function.update_self] at some
      cases some
    · by_cases same' : c' = b
      · rw [same', Function.update_self] at some'
        cases some'
      · rw [Function.update_of_ne same] at some ⊢
        rw [Function.update_of_ne same'] at some' ⊢
        exact h.apart c c' saved saved' differ some some'

/-- A fresh block is stored in and handed to a null pointer. -/
theorem Kept.stored (h : k.Kept heap live pointer buffer)
    (fresh : ∀ x ∈ live, Region.Apart ⟨p, saved.length * k.bytes⟩ x)
    (outside : ∀ a, ¬ (p ≤ a ∧ a < p + saved.length * k.bytes) → heap' a = heap a)
    (holds : k.Holds heap' (⟨p, saved.length * k.bytes⟩ :: live) p saved) (b : N) :
    k.Kept heap' (⟨p, saved.length * k.bytes⟩ :: live) (Function.update pointer b p)
      (Function.update buffer b (some saved)) where
  null c empty := by
    by_cases same : c = b
    · rw [same, Function.update_self] at empty
      cases empty
    · rw [Function.update_of_ne same] at empty ⊢
      exact h.null c empty
  held c saved' some := by
    by_cases same : c = b
    · rw [same, Function.update_self] at some ⊢
      obtain rfl := Option.some.inj some
      exact holds
    · rw [Function.update_of_ne same] at some ⊢
      have held := h.held c saved' some
      apply held.still (List.mem_cons_of_mem _ held.live)
      intro a low high
      apply outside
      have apart := fresh _ held.live
      rw [Region.Apart] at apart
      dsimp only at apart
      omega
  apart c c' saved' saved'' differ some some' := by
    by_cases same : c = b <;> by_cases same' : c' = b
    · exact absurd (same.trans same'.symm) differ
    · rw [same, Function.update_self] at some ⊢
      rw [Function.update_of_ne same'] at some' ⊢
      obtain rfl := Option.some.inj some
      exact fresh _ (h.held c' saved'' some').live
    · rw [Function.update_of_ne same] at some ⊢
      rw [same', Function.update_self] at some' ⊢
      obtain rfl := Option.some.inj some'
      exact (fresh _ (h.held c saved' some).live).symm
    · rw [Function.update_of_ne same] at some ⊢
      rw [Function.update_of_ne same'] at some' ⊢
      exact h.apart c c' saved' saved'' differ some some'

end Buffers

/-! ### Saved pixels -/

section Tiles
variable {x y : Int}

theorem Rect.index_lt (contained : r.Contains x y) : r.index x y < r.height * r.width :=
  row_lt contained.row contained.column

theorem Rect.index_offset (contained : r.Contains x y) :
    offset (r.x2 - r.x1) (x - r.x1) (y - r.y1) = r.index x y := by
  obtain ⟨left, right, top, -⟩ := contained
  obtain ⟨i, hi⟩ := Int.eq_ofNat_of_zero_le (sub_nonneg.mpr left)
  obtain ⟨j, hj⟩ := Int.eq_ofNat_of_zero_le (sub_nonneg.mpr top)
  obtain ⟨w, hw⟩ := Int.eq_ofNat_of_zero_le (by omega : 0 ≤ r.x2 - r.x1)
  have width : ((w : Int) + 1).toNat = w + 1 := by omega
  rw [offset, Rect.index, Rect.width, hi, hj, hw, width]
  exact_mod_cast Int.toNat_natCast (j * (w + 1) + i)

theorem length_tile_rect (f : Point → Dot k.bytes) :
    (tile f (r.x2 - r.x1) (r.y2 - r.y1)).length * k.bytes = r.bufferBytes k.bytes := by
  rw [length_tile, Rect.bufferBytes, Rect.width, Rect.height, Nat.mul_comm (Int.toNat _)]

/-- `SaveRect` leaves the pixels of the rectangle in the block. -/
theorem holds_tile {fb heap heap' : Bytes} {dev : GraphDev (Dot k.bytes)} {block : Nat}
    {live : List Region} (h : k.Pictured d fb dev) (range : d.InRange r) (allocated : block ≠ 0)
    (stored : Stored d k.bytes r block fb heap heap')
    (member : ⟨block, r.bufferBytes k.bytes⟩ ∈ live) :
    k.Holds heap' live block (tile (crop dev.pixel r.x1 r.y1) (r.x2 - r.x1) (r.y2 - r.y1)) where
  some := by
    have size : 0 < (tile (crop dev.pixel r.x1 r.y1) (r.x2 - r.x1) (r.y2 - r.y1)).length := by
      rw [length_tile]
      exact Nat.mul_pos range.width_pos range.height_pos
    exact List.length_pos_iff.mp size
  full := allocated
  live := by rwa [length_tile_rect]
  dots i inside e := by
    have bound := inside
    rw [length_tile] at bound
    have pixel : (tile (crop dev.pixel r.x1 r.y1) (r.x2 - r.x1) (r.y2 - r.y1))[i] =
        dev.pixel (r.x1 + (i % r.width : Nat), r.y1 + (i / r.width : Nat)) := by
      simp only [tile, List.getElem_map, List.getElem_range]
      rfl
    have left : i % r.width < r.width := Nat.mod_lt i range.width_pos
    have top : i / r.width < r.height := Nat.div_lt_of_lt_mul bound
    have whole : i / r.width * r.width + i % r.width = i := Nat.div_add_mod' ..
    rw [pixel]
    generalize i % r.width = u at left whole ⊢
    generalize i / r.width = v at top whole ⊢
    have contained : r.Contains (r.x1 + u) (r.y1 + v) := by
      rw [Rect.width] at left
      rw [Rect.height] at top
      exact ⟨by omega, by omega, by omega, by omega⟩
    have number : r.index (r.x1 + u) (r.y1 + v) = i := by
      have sameX : (r.x1 + u - r.x1).toNat = u := by omega
      have sameY : (r.y1 + v - r.y1).toNat = v := by omega
      rw [Rect.index, sameX, sameY, whole]
    rw [← number, stored.dots _ _ contained e]
    exact h.dots _ _ (range.onScreen contained) e

/-- What a restore reads for a pixel is the pixel that was saved. -/
theorem Holds.dot {heap : Bytes} {live : List Region} {p : Nat} {saved : List (Dot k.bytes)}
    (h : k.Holds heap live p saved) (contained : r.Contains x y)
    (enough : r.width * r.height ≤ saved.length) (other : Dot k.bytes) (e : Fin k.bytes) :
    heap (p + (r.index x y * k.bytes + e)) =
      saved.getD (offset (r.x2 - r.x1) (x - r.x1) (y - r.y1)) other e := by
  have inside : r.index x y < saved.length := by
    have bound := Rect.index_lt contained
    rw [Nat.mul_comm] at bound
    exact bound.trans_le enough
  rw [h.dots _ inside e, Rect.index_offset contained, List.getD_eq_getElem _ _ inside]

/-- A pointer gets the block of a save, and its old block is deleted. -/
theorem Kept.saved [DecidableEq N] {fb heap heap' : Bytes} {dev : GraphDev (Dot k.bytes)}
    {live : List Region} {pointer : N → Nat} {buffer : N → Option (List (Dot k.bytes))}
    {block : Nat} (h : k.Kept heap live pointer buffer) (pictured : k.Pictured d fb dev)
    (range : d.InRange r) (allocated : block ≠ 0) (b : N)
    (apart : ∀ x ∈ live.filter (·.start ≠ pointer b),
      Region.Apart ⟨block, r.bufferBytes k.bytes⟩ x)
    (stored : Stored d k.bytes r block fb heap heap') :
    k.Kept heap' (⟨block, r.bufferBytes k.bytes⟩ :: live.filter (·.start ≠ pointer b))
      (Function.update pointer b block)
      (Function.update buffer b
        (some (tile (crop dev.pixel r.x1 r.y1) (r.x2 - r.x1) (r.y2 - r.y1)))) := by
  have nulled := h.nulled b fun x member other => mem_others member other
  have holds := holds_tile pictured range allocated stored
    (List.mem_cons_self (l := live.filter (·.start ≠ pointer b)))
  have outside := stored.outside
  unfold Rect.blockBytes at outside
  rw [← length_tile_rect (crop dev.pixel r.x1 r.y1)] at apart holds outside ⊢
  have kept := nulled.stored apart (fun a off => outside a off) holds b
  rwa [Function.update_idem, Function.update_idem] at kept

end Tiles

/-! ### Calls -/

section Calls
variable {s : Screen N} {a : Device N (Dot k.bytes)}

/-- A call that changes the pixels of a rectangle. -/
theorem Shows.redrawn (shows : k.Shows d s a) (room : d.mXres.toNat * k.bytes ≤ d.mNextLine)
    (range : d.InRange r) {picture : Int × Int → Dot k.bytes} {fb : Bytes}
    (drawn : Drawn d k.bytes r picture s.fb fb) (pixel : Point → Dot k.bytes)
    (inside : ∀ x y, r.Contains x y → pixel (x, y) = picture (x, y))
    (outside : ∀ x y, ¬ r.Contains x y → pixel (x, y) = a.dev.pixel (x, y)) :
    k.Shows d { s with fb := fb } { a with dev := { a.dev with pixel := pixel } } ∧
      k.Untouched d s.fb fb :=
  ⟨⟨shows.pictured.drawn room range drawn inside outside, shows.kept⟩,
    untouched_of_drawn range drawn⟩

variable [DecidableEq N]

/-- The driver stops with the assertion of the device, or both go on; a restore that asks for
more than was saved is left open. -/
def Follows (k : Words) (d : FBDev) (block : Nat) (s : Screen N) (a : Device N (Dot k.bytes))
    (call : DevCall N (Fin 16)) : Prop :=
  match k.exec d block s call with
  | .error e => k.device a call = .error e.fault
  | .ok t => Ends (· = .overrun) (k.device a call) fun b => k.Shows d t b ∧ k.Untouched d s.fb t.fb

theorem follows_of_ok {block : Nat} {call : DevCall N (Fin 16)} {t : Screen N}
    {b : Device N (Dot k.bytes)} (driver : k.exec d block s call = .ok t)
    (device : k.device a call = .ok b) (shows : k.Shows d t b)
    (untouched : k.Untouched d s.fb t.fb) : k.Follows d block s a call := by
  rw [Follows, driver, device]
  exact ⟨shows, untouched⟩

theorem follows_of_error {block : Nat} {call : DevCall N (Fin 16)} {e : Assertion}
    (driver : k.exec d block s call = .error e) (device : k.device a call = .error e.fault) :
    k.Follows d block s a call := by
  rw [Follows, driver]
  exact device

/-- The rectangle of a call. -/
def rectOf : DevCall N (Fin 16) → Option Rect
  | .fillRect x1 y1 x2 y2 _ | .revRect x1 y1 x2 y2 | .saveRect _ x1 y1 x2 y2
  | .rstrRect _ x1 y1 x2 y2 => some ⟨x1, y1, x2, y2⟩
  | .putPixel _ _ _ | .forget _ => none

theorem exec_off {block : Nat} {call : DevCall N (Fin 16)} (rect : rectOf call = some r)
    (off : ¬ d.InRange r) : k.exec d block s call = .error .range := by
  cases call with
  | putPixel | forget => cases rect
  | fillRect x1 y1 x2 y2 color =>
    obtain rfl := Option.some.inj rect
    rw [exec, k.fillRect_off off, error_bind]
  | revRect x1 y1 x2 y2 =>
    obtain rfl := Option.some.inj rect
    rw [exec, Linear.revRect, if_neg off, error_bind]
  | saveRect b x1 y1 x2 y2 =>
    obtain rfl := Option.some.inj rect
    rw [exec, k.saveRect_eq, packedSave, if_neg off, error_bind]
  | rstrRect b x1 y1 x2 y2 =>
    obtain rfl := Option.some.inj rect
    rw [exec, k.rstrRect_eq, packedRstr, if_neg off, error_bind]

theorem device_off {call : DevCall N (Fin 16)} (rect : rectOf call = some r)
    (off : ¬ a.dev.InRange r.x1 r.y1 r.x2 r.y2) : k.device a call = .error .range := by
  cases call with
  | putPixel | forget => cases rect
  | fillRect x1 y1 x2 y2 color =>
    obtain rfl := Option.some.inj rect
    rw [device, Device.exec, GraphDev.fillRect, if_neg off, error_bind]
  | revRect x1 y1 x2 y2 =>
    obtain rfl := Option.some.inj rect
    rw [device, Device.exec, GraphDev.revRect, if_neg off, error_bind]
  | saveRect b x1 y1 x2 y2 =>
    obtain rfl := Option.some.inj rect
    rw [device, Device.exec, GraphDev.saveRect, if_neg off, error_bind]
  | rstrRect b x1 y1 x2 y2 =>
    obtain rfl := Option.some.inj rect
    have stopped : a.dev.rstrRect x1 y1 x2 y2 (a.buffer b) = .error .range := if_neg off
    rw [device, Device.exec, stopped, error_bind]

/-- Off the screen both stop alike. -/
theorem Shows.off (shows : k.Shows d s a) {block : Nat} {call : DevCall N (Fin 16)}
    (rect : rectOf call = some r) (range : ¬ d.InRange r) : k.Follows d block s a call := by
  have ranges := shows.pictured.inRange r.x1 r.y1 r.x2 r.y2
  exact follows_of_error (e := .range) (exec_off rect range) (device_off rect (mt ranges.mp range))

theorem Shows.putPixel (shows : k.Shows d s a) (room : d.mXres.toNat * k.bytes ≤ d.mNextLine)
    (block : Nat) (x y : Int) (color : Fin 16) :
    k.Follows d block s a (.putPixel x y color) := by
  by_cases visible : d.OnScreen x y
  · have line : k.bytes ≤ d.mNextLine := by
      have wide := visible.column
      exact (Nat.le_mul_of_pos_left _ (Nat.zero_lt_of_lt wide)).trans room
    obtain ⟨fb, returned, drawn⟩ := k.drawn_putPixel visible line color s.fb
    have put : a.dev.putPixel x y (k.colour color) = .ok _ :=
      if_pos (shows.pictured.onScreen.mpr visible)
    have range := dotRect_inRange visible
    apply follows_of_ok (t := { s with fb := fb }) (by rw [exec, returned, ok_bind])
      (by rw [device, Device.exec, put, ok_bind])
    · refine ⟨shows.pictured.drawn room range drawn ?_ ?_, shows.kept⟩
      · rintro u v ⟨left, right, top, bottom⟩
        obtain rfl := le_antisymm left right
        obtain rfl := le_antisymm top bottom
        exact Function.update_self ..
      · intro u v off
        apply Function.update_of_ne
        rintro ⟨⟩
        exact off ⟨le_rfl, le_rfl, le_rfl, le_rfl⟩
    · exact untouched_of_drawn range drawn
  · apply follows_of_error (e := .range)
    · rw [exec, k.putPixel_off visible, error_bind]
    · have put : a.dev.putPixel x y (k.colour color) = .error .range :=
        if_neg fun on => visible (shows.pictured.onScreen.mp on)
      rw [device, Device.exec, put, error_bind]
      rfl

theorem Shows.fillRect (shows : k.Shows d s a) (room : d.mXres.toNat * k.bytes ≤ d.mNextLine)
    (block : Nat) (x1 y1 x2 y2 : Int) (color : Fin 16) :
    k.Follows d block s a (.fillRect x1 y1 x2 y2 color) := by
  have ranges := shows.pictured.inRange x1 y1 x2 y2
  by_cases range : d.InRange ⟨x1, y1, x2, y2⟩
  · obtain ⟨fb, returned, drawn⟩ := k.drawn_fillRect range (range.row_le room) color s.fb
    have filled : a.dev.fillRect x1 y1 x2 y2 (k.colour color) = .ok _ := if_pos (ranges.mpr range)
    have redrawn := shows.redrawn room range drawn
      (fun p => if p ∈ box x1 y1 x2 y2 then k.colour color else a.dev.pixel p)
      (fun x y contained => if_pos contained) (fun x y off => if_neg off)
    exact follows_of_ok (t := { s with fb := fb }) (by rw [exec, returned, ok_bind])
      (by rw [device, Device.exec, filled, ok_bind]; rfl) redrawn.1 redrawn.2
  · exact shows.off rfl range

theorem Shows.revRect (shows : k.Shows d s a) (room : d.mXres.toNat * k.bytes ≤ d.mNextLine)
    (block : Nat) (x1 y1 x2 y2 : Int) : k.Follows d block s a (.revRect x1 y1 x2 y2) := by
  have ranges := shows.pictured.inRange x1 y1 x2 y2
  by_cases range : d.InRange ⟨x1, y1, x2, y2⟩
  · obtain ⟨fb, returned, drawn⟩ := k.linear.drawn_revRect range (range.row_le room) s.fb
    have reversed : a.dev.revRect k.invert x1 y1 x2 y2 = .ok _ := if_pos (ranges.mpr range)
    have redrawn := shows.redrawn room range drawn
      (fun p => if p ∈ box x1 y1 x2 y2 then k.invert (a.dev.pixel p) else a.dev.pixel p)
      (fun x y contained => by
        rw [if_pos (show (x, y) ∈ box x1 y1 x2 y2 from contained), k.revMask_eq]
        funext e
        have dot := shows.pictured.dots x y (range.onScreen contained) e
        rw [invert, ← dot]
        rfl) (fun x y off => if_neg off)
    exact follows_of_ok (t := { s with fb := fb }) (by rw [exec, returned, ok_bind])
      (by rw [device, Device.exec, reversed, ok_bind]) redrawn.1 redrawn.2
  · exact shows.off rfl range

theorem Shows.forget (shows : k.Shows d s a) (block : Nat) (b : N) :
    k.Follows d block s a (.forget b) :=
  follows_of_ok rfl rfl ⟨shows.pictured, shows.kept.nulled b fun _ member _ => member⟩
    fun _ _ => rfl

theorem Shows.saveRect (shows : k.Shows d s a) {block : Nat} {b : N} {x1 y1 x2 y2 : Int}
    (fresh : s.Fresh k.bytes block (.saveRect b x1 y1 x2 y2)) :
    k.Follows d block s a (.saveRect b x1 y1 x2 y2) := by
  have ranges := shows.pictured.inRange x1 y1 x2 y2
  by_cases range : d.InRange ⟨x1, y1, x2, y2⟩
  · obtain ⟨allocated, apart⟩ := fresh
    obtain ⟨done, returned, screen, pointer, stored⟩ :=
      stored_packedSave k.bytes range block ⟨s.fb, s.heap, s.buffer b⟩
    have saved : a.dev.saveRect x1 y1 x2 y2 = .ok _ := if_pos (ranges.mpr range)
    rw [← k.saveRect_eq] at returned
    apply follows_of_ok (by rw [exec, returned, ok_bind])
      (by rw [device, Device.exec, saved, ok_bind])
    · constructor
      · dsimp only
        rw [screen]
        exact shows.pictured
      · dsimp only
        rw [pointer]
        exact shows.kept.saved shows.pictured range allocated b apart stored
    · dsimp only
      rw [screen]
      exact fun _ _ => rfl
  · exact shows.off rfl range

theorem Shows.rstrRect (shows : k.Shows d s a) (room : d.mXres.toNat * k.bytes ≤ d.mNextLine)
    (block : Nat) (b : N) (x1 y1 x2 y2 : Int) :
    k.Follows d block s a (.rstrRect b x1 y1 x2 y2) := by
  have ranges := shows.pictured.inRange x1 y1 x2 y2
  by_cases range : d.InRange ⟨x1, y1, x2, y2⟩
  · cases some : a.buffer b with
    | none =>
      apply follows_of_error (e := .nullBuffer)
      · have null : k.linear.rstrRect d ⟨x1, y1, x2, y2⟩ ⟨s.fb, s.heap, s.buffer b⟩ =
            .error .nullBuffer := by
          rw [k.rstrRect_eq, packedRstr, if_pos range, if_pos (shows.kept.null b some)]
        rw [exec, null, error_bind]
      · rw [device, Device.exec, some, GraphDev.rstrRect, if_pos (ranges.mpr range)]
        rfl
    | some saved =>
      have held := shows.kept.held b saved some
      obtain ⟨done, returned, heap, pointer, drawn⟩ := drawn_packedRstr k.bytes range
        (range.row_le room) (m := ⟨s.fb, s.heap, s.buffer b⟩) held.full
      rw [← k.rstrRect_eq] at returned
      have driver : k.exec d block s (.rstrRect b x1 y1 x2 y2) = .ok ⟨done.memory.fb,
          done.memory.heap, Function.update s.buffer b done.memory.buffer, s.freed b, s.past⟩ := by
        rw [exec, returned, ok_bind]
      by_cases enough : (x2 - x1 + 1).toNat * (y2 - y1 + 1).toNat ≤ saved.length
      · have restored : a.dev.rstrRect x1 y1 x2 y2 (a.buffer b) = .ok { a.dev with
            pixel := (box x1 y1 x2 y2).piecewise
              (fun p => saved.getD (offset (x2 - x1) (p.1 - x1) (p.2 - y1)) (a.dev.pixel p))
              a.dev.pixel } := by
          rw [some, GraphDev.rstrRect, if_pos (ranges.mpr range)]
          exact if_pos enough
        apply follows_of_ok driver (by rw [device, Device.exec, restored, ok_bind])
        · constructor
          · apply shows.pictured.drawn room range drawn
            · intro x y contained
              rw [Set.piecewise_eq_of_mem _ _ _ (show (x, y) ∈ box x1 y1 x2 y2 from contained)]
              funext e
              exact (held.dot contained enough _ e).symm
            · intro x y off
              exact Set.piecewise_eq_of_notMem _ _ _ off
          · dsimp only
            rw [heap, pointer]
            exact shows.kept.nulled b fun x member other => mem_others member other
        · exact untouched_of_drawn range drawn
      · have overrun : a.dev.rstrRect x1 y1 x2 y2 (a.buffer b) = .error .overrun := by
          rw [some, GraphDev.rstrRect, if_pos (ranges.mpr range)]
          exact if_neg enough
        rw [Follows, driver, device, Device.exec, overrun]
        exact rfl
  · exact shows.off rfl range

theorem Shows.follows (shows : k.Shows d s a) (room : d.mXres.toNat * k.bytes ≤ d.mNextLine)
    {block : Nat} {call : DevCall N (Fin 16)} (fresh : s.Fresh k.bytes block call) :
    k.Follows d block s a call := by
  cases call with
  | putPixel x y color => exact shows.putPixel room block x y color
  | fillRect x1 y1 x2 y2 color => exact shows.fillRect room block x1 y1 x2 y2 color
  | revRect x1 y1 x2 y2 => exact shows.revRect room block x1 y1 x2 y2
  | forget b => exact shows.forget block b
  | saveRect b x1 y1 x2 y2 => exact shows.saveRect fresh
  | rstrRect b x1 y1 x2 y2 => exact shows.rstrRect room block b x1 y1 x2 y2

theorem Shows.step (shows : k.Shows d s a) (room : d.mXres.toNat * k.bytes ≤ d.mNextLine)
    {call : DevCall N (Fin 16)} {t : Screen N} (step : k.Step d s call t) :
    Ends (· = .overrun) (k.device a call) fun b => k.Shows d t b ∧ k.Untouched d s.fb t.fb := by
  obtain ⟨block, fresh, returned⟩ := step
  have follows := shows.follows room fresh
  rwa [Follows, returned] at follows

theorem Shows.assertion (shows : k.Shows d s a) (room : d.mXres.toNat * k.bytes ≤ d.mNextLine)
    {block : Nat} {call : DevCall N (Fin 16)} (fresh : s.Fresh k.bytes block call) (e : Assertion) :
    k.exec d block s call = .error e ↔ k.device a call = .error e.fault := by
  have follows := shows.follows room fresh
  unfold Follows at follows
  cases driver : k.exec d block s call with
  | error e' =>
    simp only [driver] at follows
    rw [follows]
    cases e <;> cases e' <;> simp [Assertion.fault]
  | ok t =>
    simp only [driver] at follows
    constructor
    · nofun
    · intro stopped
      rw [stopped] at follows
      have overrun : e.fault = .overrun := follows
      cases e <;> cases overrun

end Calls

/-! ### Runs -/

/-- What a framebuffer shows. -/
def screen (k : Words) (d : FBDev) (fb : Bytes) : GraphDev (Dot k.bytes) where
  xres := d.mXres
  yres := d.mYres
  pixel := fun p e => fb (d.address k.bytes p.1 p.2 + e)

section Runs
variable {s t : Screen N} {a : Device N (Dot k.bytes)}

/-- Before the first call no buffer is held. -/
theorem shows_start (fb heap : Bytes) (live : List Region) :
    k.Shows d (⟨fb, heap, fun _ => 0, live, []⟩ : Screen N) ⟨k.screen d fb, fun _ => none⟩ where
  pictured := ⟨rfl, rfl, fun _ _ _ _ => rfl⟩
  kept := ⟨fun _ _ => rfl, nofun, nofun⟩

/-- Whatever a driver of whole words is called for, the device behind the graph ports goes the
same way: the framebuffer shows its pixels, the heap holds its buffers, no other byte of the
framebuffer has changed, and the next call meets an assertion of the driver just when the device
reports it. -/
theorem runs_refine [DecidableEq N] (room : d.mXres.toNat * k.bytes ≤ d.mNextLine)
    (shows : k.Shows d s a) {calls : List (DevCall N (Fin 16))} (run : Run (k.Step d) s calls t)
    (bounded : calls.foldlM k.device a ≠ .error .overrun) :
    ∃ b, calls.foldlM k.device a = .ok b ∧ k.Shows d t b ∧ k.Untouched d s.fb t.fb ∧
      ∀ block call, t.Fresh k.bytes block call → ∀ e,
        k.exec d block t call = .error e ↔ k.device b call = .error e.fault := by
  have followed : Ends (· = .overrun) (calls.foldlM k.device a) fun b =>
      k.Shows d t b ∧ k.Untouched d s.fb t.fb := by
    apply run.followed (R := fun t b => k.Shows d t b ∧ k.Untouched d s.fb t.fb) _
      ⟨shows, fun _ _ => rfl⟩
    rintro s' b call t' ⟨shows, untouched⟩ step
    apply (shows.step room step).mono
    rintro b' ⟨shows', untouched'⟩
    exact ⟨shows', fun a off => (untouched' a off).trans (untouched a off)⟩
  obtain ⟨b, ended, shows, untouched⟩ :=
    followed.exists_ok fun e stopped overran => bounded (overran ▸ stopped)
  exact ⟨b, ended, shows, untouched, fun block call fresh e => shows.assertion room fresh e⟩

/-- Four by two pixels of 16 bits. -/
def fourByTwo : FBDev := ⟨4, 2, 8, 16, some .fbLinear16⟩

/-- A rectangle is saved, the screen is filled, and the rectangle is restored one column further
to the right. -/
def savedAside : List (DevCall Unit (Fin 16)) :=
  [.saveRect () 0 0 1 1, .fillRect 0 0 3 1 15, .revRect 0 0 0 0, .rstrRect () 1 0 2 1]

theorem runs_refine_saved :
    ∃ t b, Run (fbLinear16.Step fourByTwo)
        (⟨fun a => UInt8.ofNat a, fun _ => 0, fun _ => 0, [], []⟩ : Screen Unit) savedAside t ∧
      savedAside.foldlM fbLinear16.device
        ⟨fbLinear16.screen fourByTwo fun a => UInt8.ofNat a, fun _ => none⟩ = .ok b ∧
      fbLinear16.Shows fourByTwo t b ∧
      ∀ block call, t.Fresh 2 block call → ∀ e,
        fbLinear16.exec fourByTwo block t call = .error e ↔
          fbLinear16.device b call = .error e.fault := by
  have ran : savedAside.foldlM fbLinear16.device
      ⟨fbLinear16.screen fourByTwo fun a => UInt8.ofNat a, fun _ => none⟩ = .ok _ := rfl
  have run : Run (fbLinear16.Step fourByTwo)
      (⟨fun a => UInt8.ofNat a, fun _ => 0, fun _ => 0, [], []⟩ : Screen Unit) savedAside _ :=
    (((Run.nil.snoc ⟨4096, ⟨by decide, nofun⟩, rfl⟩).snoc ⟨0, trivial, rfl⟩).snoc
      ⟨0, trivial, rfl⟩).snoc ⟨0, trivial, rfl⟩
  obtain ⟨b, ended, shows, -, next⟩ :=
    runs_refine (by decide) (shows_start _ _ _) run (by rw [ran]; nofun)
  exact ⟨_, b, run, ended, shows, next⟩

end Runs

end Words

end Ucimf.Driver
