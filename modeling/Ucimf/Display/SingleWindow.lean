import Ucimf.Display.Desk
import Ucimf.Support.Run

/-!
# A single window over whole runs

One window is attached to the manager and is the only one on the device. `Solo` adds to
the desk what the terminal last painted and the picture the last render left on it; the
terminal writes only while the window is hidden.
-/

namespace Ucimf.Display

open Outcome Desk Transition

variable {Px : Type}

structure Solo (Px : Type) where
  desk : Desk Unit Px
  /-- What the terminal last painted. -/
  term : Point → Px
  /-- The last rendered content, relative to the corner of the window. -/
  image : Option (Point → Px)

namespace Solo

def start (dev : GraphDev Px) (sh : Shift) : Solo Px where
  desk := (Desk.start dev).attachWindow () sh
  term := dev.pixel
  image := none

def window (s : Solo Px) : Window Px := s.desk.win ()

def termAfter (s : Solo Px) : Op Unit Px → (Point → Px)
  | .paint picture => picture
  | _ => s.term

def imageAfter (s : Solo Px) (d : Desk Unit Px) : Op Unit Px → Option (Point → Px)
  | .render _ content => some (content.image (d.win ()).posX (d.win ()).posY s.term)
  | _ => s.image

def after (s : Solo Px) (op : Op Unit Px) (d : Desk Unit Px) : Solo Px :=
  ⟨d, s.termAfter op, s.imageAfter d op⟩

/-- The terminal writes while the window is hidden; the shapes of a widget paint inside
the rectangle they measure. -/
def Allowed (s : Solo Px) : Op Unit Px → Prop
  | .paint _ => s.window.visible = false
  | .render _ content => content.Inside (content.extent 0 0)
  | _ => True

def Step (s : Solo Px) (op : Op Unit Px) (s' : Solo Px) : Prop :=
  s.Allowed op ∧ ∃ d, s.desk.exec op = .ok d ∧ s' = s.after op d

instance (s : Solo Px) : DecidablePred s.Allowed
  | .paint _ => inferInstanceAs (Decidable (s.window.visible = false))
  | .render _ content => inferInstanceAs (Decidable (content.Inside (content.extent 0 0)))
  | .attachWindow .. | .showWindow _ | .hideWindow _ | .xy .. | .cursorPosition .. | .setFocus _
  | .refreshBegin | .refreshEnd => inferInstanceAs (Decidable True)

/-- `Step` as a function. -/
def call (s : Solo Px) (op : Op Unit Px) : Option (Solo Px) :=
  match s.desk.exec op with
  | .ok d => if s.Allowed op then some (s.after op d) else none
  | .error _ => none

theorem step_of_call (s : Solo Px) (op : Op Unit Px) (s' : Solo Px)
    (called : s.call op = some s') : s.Step op s' := by
  unfold call at called
  split at called
  · next d returned =>
    obtain ⟨allowed, same⟩ := Option.ite_none_right_eq_some.mp called
    exact ⟨allowed, d, returned, (Option.some.inj same).symm⟩
  · cases called

/-- The invariant of a run. -/
structure Sound (term : Point → Px) (image : Option (Point → Px)) (d : Desk Unit Px) :
    Prop where
  held : Held term image (d.view ())
  mapped : ∃ sh, d.cwm.cwmmap = [((), sh)]

section Sound
variable {term : Point → Px} {image : Option (Point → Px)} {d : Desk Unit Px}

theorem Sound.knows (h : Sound term image d) (c : Cwm Unit) (W : Window Px)
    (same : c.cwmmap = d.cwm.cwmmap) : c.Knows () W := by
  obtain ⟨sh, mapped⟩ := h.mapped
  intro _
  exact ⟨sh, by rw [same, mapped]; rfl⟩

/-- The window manager enters the invariant only through its map. -/
theorem Sound.with_cwm (h : Sound term image d) (c : Cwm Unit) (prevFocus : Bool)
    (same : c.cwmmap = d.cwm.cwmmap) :
    Sound term image { d with cwm := c, prevFocus := prevFocus } :=
  ⟨h.held, same ▸ h.mapped⟩

theorem Sound.on (h : Sound term image d) {f : View Px → Except Fault (View Px)}
    (keep : Ends OffScreen (f (d.view ())) (Held term image)) :
    Ends OffScreen (d.on () f) (Sound term image) := by
  refine ends_on (keep.mono fun v held => ⟨?_, h.mapped⟩)
  rw [view_put]
  exact held

theorem Sound.setPosition (h : Sound term image d) (x y : Int) :
    Ends OffScreen (d.setPosition x y) (Sound term image) := by
  obtain ⟨sh, mapped⟩ := h.mapped
  rw [Desk.setPosition_def]
  split
  · have moved : Sound term image (d.withCursor x y) := h.with_cwm _ _ rfl
    rw [mapped, updateAll_def, List.foldlM_cons]
    refine (moved.on ?_).bind fun d' sound => sound
    exact (moved.held.xy _ _).mono fun v kept => kept.1
  · exact h

theorem Sound.setFocus (h : Sound term image d) (newFocus : Bool) :
    Ends OffScreen (d.setFocus newFocus) (Sound term image) := by
  obtain ⟨sh, mapped⟩ := h.mapped
  have focused : Sound term image (d.withFocus newFocus) := h.with_cwm _ _ rfl
  rw [Desk.setFocus_def]
  split
  · rw [mapped, showAll_def, hideAll_def, List.foldlM_cons, List.foldlM_cons]
    split
    · refine (focused.on ?_).bind fun d' sound => sound
      exact focused.held.show.mono fun v kept => kept.1
    · obtain ⟨v, lowering, kept⟩ := focused.held.hide
      exact (focused.on (Ends.intro lowering kept.1)).bind fun d' sound => sound
  · exact h

theorem Sound.attach (h : Sound term image d) (sh : Shift) :
    Sound term image (d.attachWindow () sh) := by
  obtain ⟨old, mapped⟩ := h.mapped
  refine ⟨⟨h.held.opened, h.held.unmeasured, fun shown => ?_, fun hid => ?_⟩,
    sh, by simp [attachWindow_def, mapped, Cwm.assign]⟩
  · exact ⟨(h.held.above shown).fits, (h.held.above shown).bg, (h.held.above shown).outside,
      (h.held.above shown).inside⟩
  · exact ⟨(h.held.below hid).same, (h.held.below hid).bg, (h.held.below hid).fg,
      (h.held.below hid).sized⟩

end Sound

/-- One call: it returns and keeps the invariant, or a rectangle is off screen. -/
theorem sound_exec {s : Solo Px} (h : Sound s.term s.image s.desk) {op : Op Unit Px}
    (allowed : s.Allowed op) : Ends OffScreen (s.desk.exec op) fun d =>
      Sound (s.after op d).term (s.after op d).image d := by
  cases op with
  | attachWindow w sh => exact h.attach sh
  | showWindow w => exact h.on (h.held.show.mono fun v kept => kept.1)
  | hideWindow w =>
    obtain ⟨v, lowering, kept⟩ := h.held.hide
    exact h.on (Ends.intro lowering kept.1)
  | xy w x y =>
    exact h.on (f := fun v => Window.xy v x y) ((h.held.xy x y).mono fun v kept => kept.1)
  | render w content =>
    refine ends_on ((h.held.render (h.knows _ _ rfl) allowed).mono fun v kept => ⟨?_, h.mapped⟩)
    rw [view_put]
    simpa [after, imageAfter, termAfter] using kept.1
  | cursorPosition x y => exact h.setPosition x y
  | setFocus newFocus => exact h.setFocus newFocus
  | refreshBegin => exact (h.with_cwm _ _ rfl).setFocus false
  | refreshEnd => exact h.setFocus _
  | paint picture =>
    have below := h.held.below allowed
    exact ⟨⟨h.held.opened, h.held.unmeasured,
      fun shown => absurd (allowed.symm.trans shown) Bool.false_ne_true,
      fun _ => ⟨rfl, below.bg, below.fg, below.sized⟩⟩, h.mapped⟩

theorem sound_start (dev : GraphDev Px) (sh : Shift) :
    Sound dev.pixel none (start dev sh).desk where
  held := by
    refine ⟨rfl, fun _ => ⟨rfl, rfl⟩, fun shown => absurd shown Bool.false_ne_true, fun _ =>
      ⟨rfl, rfl, ?_, ?_⟩⟩
    · rintro I ⟨⟩
    · rintro buf ⟨⟩
  mapped := ⟨sh, rfl⟩

theorem sound_run {dev : GraphDev Px} {sh : Shift} {ops : List (Op Unit Px)} {s : Solo Px}
    (run : Run Step (start dev sh) ops s) : Sound s.term s.image s.desk := by
  refine run.invariant (fun s => Sound s.term s.image s.desk) ?_ (sound_start dev sh)
  rintro s op s' sound ⟨allowed, d, returned, rfl⟩
  exact (sound_exec sound allowed).of_ok returned

/-- In every state of a run a hidden window leaves the terminal's picture alone, a visible
one covers its rectangle with the last rendered content and nothing else, and the next
call can only be stopped by a range assertion. -/
theorem save_under {dev : GraphDev Px} {sh : Shift} {ops : List (Op Unit Px)} {s : Solo Px}
    (run : Run Step (start dev sh) ops s) :
    (s.window.visible = false → s.desk.dev.pixel = s.term) ∧
    (s.window.visible = true →
      (∀ p ∉ s.window.rect, s.desk.dev.pixel p = s.term p) ∧
      ∀ I, s.image = some I → ∀ p ∈ s.window.rect,
        s.desk.dev.pixel p = place I s.window.posX s.window.posY p) ∧
    ∀ op, s.Allowed op → Ends OffScreen (s.desk.exec op) fun _ => True := by
  have sound := sound_run run
  refine ⟨fun hid => (sound.held.below hid).same, fun shown => ?_, fun op allowed => ?_⟩
  · exact ⟨(sound.held.above shown).outside, (sound.held.above shown).inside⟩
  · exact (sound_exec sound allowed).mono fun _ _ => trivial

/-- A bar of two pixels. -/
def bar : Drawing Nat := [(0, 0, ⟨1, 0, [(0, 0, 7), (1, 0, 7)]⟩)]

/-- The bar is rendered, shown below the cursor and moved. -/
theorem save_under_bar : ∃ s : Solo Nat,
    Run Step (start ⟨40, 40, fun _ => 0⟩ (.preeditShift 0 1))
      [.render () bar, .setFocus true, .cursorPosition 3 4] s ∧
    s.window.visible = true ∧ ∀ p ∉ s.window.rect, s.desk.dev.pixel p = s.term p := by
  let calls : List (Op Unit Nat) := [.render () bar, .setFocus true, .cursorPosition 3 4]
  let final := replay call (start ⟨40, 40, fun _ => 0⟩ (.preeditShift 0 1)) calls
  obtain ⟨s, replayed⟩ := Option.isSome_iff_exists.mp (show final.isSome = true by decide)
  have shown : final.map (fun s => s.window.visible) = some true := by decide
  rw [replayed] at shown
  have run := Run.of_replay step_of_call replayed
  have visible := Option.some.inj shown
  exact ⟨s, run, visible, ((save_under run).2.1 visible).1⟩

end Solo

end Ucimf.Display
