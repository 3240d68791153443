import Ucimf.Driver.Refinement
import Ucimf.Display.Backend
import Ucimf.Display.Overrun

/-!
# The library on a framebuffer

The windows and the manager over a driver of whole words, beside a terminal that writes into the
same framebuffer. Whatever a client asks for, the bytes show what the library does on pixels, and
no restore reads behind its block.
-/

namespace Ucimf.Driver

open ByteMemory Outcome Regions Display GraphPort

variable {ι N : Type}

/-- `new char[]`: a block that meets none of those that are allocated, by all that were handed
out before. -/
structure Allocator where
  block : List Region → List Region → Nat → Nat
  full : ∀ past live size, block past live size ≠ 0
  apart : ∀ past live size, ∀ x ∈ live, Region.Apart ⟨block past live size, size⟩ x

/-- The block that is allocated for a call. -/
def Screen.blockFor (alloc : Allocator) (bytes : Nat) (s : Screen N) : DevCall N (Fin 16) → Nat
  | .saveRect b x1 y1 x2 y2 =>
    alloc.block s.past (s.freed b) (Rect.bufferBytes ⟨x1, y1, x2, y2⟩ bytes)
  | _ => 0

/-- What happens to the screen: a client calls the library, or the terminal writes its bytes. -/
abbrev Event (ι : Type) := Request ι (List (Int × Int × Figure (Fin 16))) Bytes

namespace Words

variable (k : Words) (d : FBDev) (alloc : Allocator)

/-- The virtual functions on the bytes. -/
def backend [DecidableEq N] : Backend (Screen N) N (Fin 16) Bytes where
  call s call := (k.exec d (s.blockFor alloc k.bytes call) s call).mapError Assertion.fault
  null s n := s.buffer n == 0
  written s fb := { s with fb := fb }

/-- `Cwm::Cwm` over the open driver. -/
def start (fb heap : Bytes) (live : List Region) : Host (Screen (ι × Buffer)) ι where
  drv := ⟨fb, heap, fun _ => 0, live, []⟩
  win := fun _ => (Window.new true : Window (Dot k.bytes)).pane
  cwm := { xres := d.mXres, yres := d.mYres, cursorX := 0, cursorY := 0, focus := false,
           cwmmap := [] }
  prevFocus := false

def handle [LinearOrder ι] (h : Host (Screen (ι × Buffer)) ι) (event : Event ι) :
    Except Fault (Host (Screen (ι × Buffer)) ι) :=
  (k.backend d alloc).manager.exec h event

/-- The same on pixels. -/
def op (event : Event ι) : Op ι (Dot k.bytes) :=
  event.map (Figure.drawing k.colour) fun fb => (k.screen d fb).pixel

end Words

/-- What `ucimf_init` makes of a new manager. -/
def initCalls (fontHeight : Nat) : List (Event Panel) :=
  [.attachWindow .lookupChoice (Panel.lookupChoice.shift fontHeight),
    .attachWindow .preedit (Panel.preedit.shift fontHeight),
    .attachWindow .status (Panel.status.shift fontHeight), .setFocus false]

abbrev Event.Listed (event : Event ι) : Prop := Display.Listed event

namespace Words

variable {k : Words} {d : FBDev} {alloc : Allocator}

theorem fresh_blockFor [DecidableEq N] (alloc : Allocator) (s : Screen N)
    (call : DevCall N (Fin 16)) : s.Fresh k.bytes (s.blockFor alloc k.bytes call) call := by
  cases call with
  | saveRect b x1 y1 x2 y2 => exact ⟨alloc.full _ _ _, alloc.apart _ _ _⟩
  | putPixel | fillRect | revRect | forget | rstrRect => exact trivial

theorem Shows.null_iff {s : Screen N} {a : Device N (Dot k.bytes)} (shows : k.Shows d s a) (n : N) :
    s.buffer n = 0 ↔ a.buffer n = none := by
  cases held : a.buffer n with
  | none => exact iff_of_true (shows.kept.null n held) rfl
  | some saved => exact iff_of_false (shows.kept.held n saved held).full (Option.some_ne_none _)

/-- The driver does on its bytes what the device does on pixels. -/
theorem backend_follows [DecidableEq N] (room : d.mXres.toNat * k.bytes ≤ d.mNextLine) :
    (k.backend (N := N) d alloc).Follows k.colour k.invert (fun fb => (k.screen d fb).pixel)
      (k.Shows d) where
  call := by
    intro s a shows call
    have follows := shows.follows room (fresh_blockFor alloc s call)
    unfold Words.Follows at follows
    change Tracks _ _ _ (k.device a call)
    dsimp only [backend]
    cases driver : k.exec d (s.blockFor alloc k.bytes call) s call with
    | error e =>
      simp only [driver] at follows
      rw [follows]
      exact .error e.fault
    | ok t =>
      simp only [driver] at follows
      cases ended : k.device a call with
      | ok b =>
        rw [ended] at follows
        exact ⟨t, rfl, follows.1⟩
      | error e =>
        rw [ended] at follows
        exact .inl follows
  null := by
    intro s a shows n
    exact beq_iff_eq.trans (shows.null_iff n)
  written shows fb :=
    ⟨⟨shows.pictured.width, shows.pictured.height, fun _ _ _ _ => rfl⟩, shows.kept⟩

section Run
variable [LinearOrder ι] {h : Host (Screen (ι × Buffer)) ι} {s : Desk ι (Dot k.bytes)}

omit [LinearOrder ι] in
theorem shows_host (fb heap : Bytes) (live : List Region) :
    (k.start d fb heap live : Host _ ι).Shows (k.Shows d) (Desk.start (k.screen d fb)) where
  win _ := rfl
  cwm := rfl
  prevFocus := rfl
  drv := by
    have unsaved : (Desk.start (k.screen d fb) : Desk ι (Dot k.bytes)).device =
        ⟨k.screen d fb, fun _ => none⟩ := by
      apply congrArg (Device.mk _)
      funext ⟨u, b⟩
      cases b <;> rfl
    rw [unsaved]
    exact shows_start fb heap live

theorem shows_handle (room : d.mXres.toNat * k.bytes ≤ d.mNextLine)
    (shows : h.Shows (k.Shows d) s) (event : Event ι) :
    Tracks (· = .overrun) (Host.Shows (k.Shows d)) (k.handle d alloc h event)
      (s.exec (k.op d event)) :=
  (backend_follows room).manager.exec shows event

theorem shows_events (alloc : Allocator) (room : d.mXres.toNat * k.bytes ≤ d.mNextLine)
    (shows : h.Shows (k.Shows d) s) (events : List (Event ι)) :
    Tracks (· = .overrun) (Host.Shows (k.Shows d)) (events.foldlM (k.handle d alloc) h)
      ((events.map (k.op d)).foldlM Desk.exec s) := by
  rw [List.foldlM_map]
  exact Tracks.lifting.foldlM (fun h s event shows => shows_handle room shows event) shows events

end Run

section Session
variable [LinearOrder Panel]

theorem init_calls (dev : GraphDev (Dot k.bytes)) (fontHeight : Nat) :
    ((initCalls fontHeight).map (k.op d)).foldlM Desk.exec (Desk.start dev) =
      ucimfInit dev fontHeight :=
  bind_pure (ucimfInit dev fontHeight)

/-- From `ucimf_init` on, whatever a client asks for and whatever the terminal writes, the library
on the bytes of the framebuffer and the blocks of the heap ends as it does on pixels, and shows
the same; it never restores more than it has saved. -/
theorem sessions_refine (alloc : Allocator) (room : d.mXres.toNat * k.bytes ≤ d.mNextLine)
    (fb heap : Bytes) (live : List Region) (fontHeight : Nat) {events : List (Event Panel)}
    (listed : ∀ event ∈ events, event.Listed) :
    let bytes := (initCalls fontHeight ++ events).foldlM (k.handle d alloc)
      (k.start d fb heap live)
    let pixels := ucimfInit (k.screen d fb) fontHeight >>= fun s =>
      (events.map (k.op d)).foldlM Desk.exec s
    (∀ s, pixels = .ok s → ∃ h, bytes = .ok h ∧ h.Shows (k.Shows d) s) ∧
      (∀ e, bytes = .error e ↔ pixels = .error e) ∧ pixels ≠ .error .overrun := by
  intro bytes pixels
  have bounded : pixels ≠ .error .overrun := by
    apply session_no_overrun
    intro op member
    obtain ⟨event, there, rfl⟩ := List.mem_map.mp member
    exact (listed event there).map _ _
  have tracks : Tracks (· = .overrun) (Host.Shows (k.Shows d)) bytes pixels := by
    have whole := shows_events alloc room (shows_host fb heap live)
      (initCalls fontHeight ++ events)
    rwa [List.map_append, List.foldlM_append, List.foldlM_append, init_calls] at whole
  refine ⟨?_, ?_, bounded⟩
  · intro s returned
    rwa [returned] at tracks
  · exact tracks.error_iff fun e stopped overran => bounded (overran ▸ stopped)

end Session

/-- The first block behind all others. -/
def behind : Allocator where
  block _ live _ := 1 + (live.map fun x => x.start + x.length).sum
  full past live size := Nat.ne_of_gt (Nat.lt_add_right _ Nat.one_pos)
  apart past live size x member := by
    have counted : x.start + x.length ≤ (live.map fun x => x.start + x.length).sum :=
      List.le_sum_of_mem (List.mem_map_of_mem member)
    exact .inr (counted.trans (Nat.le_add_left _ 1))

/-- Sixty lines of sixty pixels of 16 bits. -/
def sixty : FBDev := ⟨60, 60, 120, 16, some .fbLinear16⟩

def white : Fin 16 := Fin.last 15

/-- A preedit is drawn and shown, and moves while the terminal paints the screen anew. -/
def repainted : List (Event Panel) :=
  [.render .preedit
      [(0, 0, .fill 5 2 white.rev), (1, 1, .dots ⟨3, 0, [(0, 0, white), (2, 0, white)]⟩)],
    .setFocus true, .refreshBegin, .paint fun a => UInt8.ofNat a, .cursorPosition 10 10,
    .refreshEnd]

theorem sessions_refine_repainted :
    ∃ h s, (initCalls 1 ++ repainted).foldlM (fbLinear16.handle sixty behind)
        (fbLinear16.start sixty (fun _ => 0) (fun _ => 0) []) = .ok h ∧
      (ucimfInit (fbLinear16.screen sixty fun _ => 0) 1 >>= fun s =>
        (repainted.map (fbLinear16.op sixty)).foldlM Desk.exec s) = .ok s ∧
      h.Shows (fbLinear16.Shows sixty) s := by
  have returned : (ucimfInit (fbLinear16.screen sixty fun _ => 0) 1 >>= fun s =>
      (repainted.map (fbLinear16.op sixty)).foldlM Desk.exec s).toOption.isSome = true := by
    decide +kernel
  obtain ⟨s, found⟩ := Option.isSome_iff_exists.mp returned
  have pixels := ok_of_toOption found
  have listed : ∀ event ∈ repainted, event.Listed := by
    simp [repainted, Event.Listed, Listed]
  obtain ⟨h, bytes, shows⟩ := (sessions_refine (k := fbLinear16) (d := sixty) behind (by decide)
    (fun _ => 0) (fun _ => 0) [] 1 listed).1 s pixels
  exact ⟨h, s, bytes, pixels, shows⟩

end Words

end Ucimf.Driver
