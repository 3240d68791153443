import Ucimf.Display.Bracket

/-!
# Whole runs of the window manager

`Scene` is the desk with what the terminal last painted and the image each window was last
given. A run in which visible windows never land on one another (`Separate`) keeps the
desk overlaid, and then the refresh bracket takes all windows away and puts them back.
-/

namespace Ucimf.Display

open Outcome Desk Transition

variable {ι Px : Type}

structure Scene (ι Px : Type) where
  desk : Desk ι Px
  /-- What the terminal last painted. -/
  term : Point → Px
  /-- The last rendered image of each window, relative to its corner. -/
  image : ι → Option (Point → Px)

namespace Scene

section Model
variable [LinearOrder ι]

def start (dev : GraphDev Px) : Scene ι Px := ⟨Desk.start dev, dev.pixel, fun _ => none⟩

def termAfter (s : Scene ι Px) : Op ι Px → (Point → Px)
  | .paint picture => picture
  | _ => s.term

def imageAfter (s : Scene ι Px) (d : Desk ι Px) : Op ι Px → ι → Option (Point → Px)
  | .render w content => Function.update s.image w
      (some (content.image (d.win w).posX (d.win w).posY (s.desk.beneath s.term w)))
  | _ => s.image

def after (s : Scene ι Px) (op : Op ι Px) (d : Desk ι Px) : Scene ι Px :=
  ⟨d, s.termAfter op, s.imageAfter d op⟩

/-- Outside the bracket the terminal writes only while no window is visible; the shapes of
a widget paint inside the rectangle they measure. -/
def Allowed (s : Scene ι Px) : Op ι Px → Prop
  | .paint _ => ∀ u, (s.desk.win u).visible = false
  | .render _ content => content.Inside (content.extent 0 0)
  | _ => True

def Step (s : Scene ι Px) (op : Op ι Px) (s' : Scene ι Px) : Prop :=
  s.Allowed op ∧ ∃ d, s.desk.exec op = .ok d ∧ s' = s.after op d

/-- No visible window lands on another one, unless both show the terminal's colour where
they meet. -/
def Separate (s : Scene ι Px) : Op ι Px → Prop
  | .showWindow w => (s.desk.win w).visible = false →
      Clear s.term s.image s.desk w (s.image w) (s.desk.win w).frame
  | .xy w x y => (s.desk.win w).visible = true →
      Clear s.term s.image s.desk w (s.image w) ((s.desk.view w).moved x y).win.frame
  | .render w content => (s.desk.win w).visible = true →
      let F := s.desk.cwm.rendered w (s.desk.win w) content
      Clear s.term s.image s.desk w
        (some (content.image F.posX F.posY (s.desk.beneath s.term w))) F
  | .cursorPosition x y => s.desk.Roomy s.term s.image x y
  | .setFocus newFocus => newFocus = true → s.desk.cwm.focus = false →
      s.desk.Ready s.term s.image
  | .refreshEnd => s.desk.prevFocus = true → s.desk.cwm.focus = false →
      s.desk.Ready s.term s.image
  | .attachWindow _ _ | .hideWindow _ | .refreshBegin | .paint _ => True

/-- The windows are all rendered, and each is visible exactly if the focus is on. -/
structure Settled (s : Scene ι Px) : Prop where
  visible : ∀ u, (s.desk.win u).visible = true ↔
    s.desk.cwm.focus = true ∧ u ∈ s.desk.attached
  rendered : ∀ u ∈ s.desk.attached, ∃ I, s.image u = some I
  tiled : s.desk.Tiled

/-- The bracket shows the bare terminal while it is open and gives every window back, at
its new place over the new picture, when it closes. -/
def BracketLaw (s : Scene ι Px) : Prop :=
  ∃ opened, s.desk.ucimfRefreshBegin = .ok opened ∧ opened.dev.pixel = s.term ∧
    ∀ acts : List (Act Px), ∃ inside, acts.foldlM Desk.act opened = .ok inside ∧
      inside.dev.pixel = acts.foldl Act.term s.term ∧
      (inside.Tiled → ∃ closed, inside.ucimfRefreshEnd = .ok closed ∧
        closed.cwm = { inside.cwm with focus := s.desk.cwm.focus } ∧
        (∀ u, (closed.win u).frame = (inside.win u).frame) ∧
        (s.desk.cwm.focus = true →
          closed.Overlays (acts.foldl Act.term s.term) s.image) ∧
        (s.desk.cwm.focus = false → closed.dev.pixel = acts.foldl Act.term s.term))

end Model

end Scene

/-! ### The map of the manager -/

section Assign
variable [LinearOrder ι] {w : ι} {sh : Shift} {m : List (ι × Shift)}

theorem Cwm.mem_assign {u : ι} :
    u ∈ (Cwm.assign w sh m).map Prod.fst ↔ u = w ∨ u ∈ m.map Prod.fst := by
  induction m with
  | nil => simp [Cwm.assign]
  | cons e m ih =>
    unfold Cwm.assign
    split
    · simp
    · split
      · next same => simp [same]
      · simp only [List.map_cons, List.mem_cons, ih]
        exact or_left_comm

theorem Cwm.lookup_of_mem (mem : w ∈ m.map Prod.fst) : ∃ sh, m.lookup w = some sh := by
  obtain ⟨e, he, rfl⟩ := List.mem_map.mp mem
  have found : (m.lookup e.1).isSome = true := by
    rw [List.lookup_isSome_iff]
    exact ⟨e, he, beq_self_eq_true _⟩
  exact Option.isSome_iff_exists.mp found

theorem Cwm.assign_sorted (sorted : (m.map Prod.fst).Pairwise (· < ·)) :
    ((Cwm.assign w sh m).map Prod.fst).Pairwise (· < ·) := by
  induction m with
  | nil => simp [Cwm.assign]
  | cons e m ih =>
    obtain ⟨least, rest⟩ := List.pairwise_cons.mp sorted
    unfold Cwm.assign
    split
    · next before =>
      refine List.pairwise_cons.mpr ⟨fun u hu => ?_, sorted⟩
      rcases List.mem_cons.mp hu with rfl | hu
      · exact before
      · exact before.trans (least u hu)
    · next notBefore =>
      split
      · next same =>
        refine List.pairwise_cons.mpr ⟨fun u hu => ?_, rest⟩
        simp only [same]
        exact least u hu
      · next differ =>
        refine List.pairwise_cons.mpr ⟨fun u hu => ?_, ih rest⟩
        rcases Cwm.mem_assign.mp hu with rfl | hu
        · exact lt_of_le_of_ne (not_lt.mp notBefore) (Ne.symm differ)
        · exact least u hu

end Assign

namespace Desk

/-- The map is sorted, and every window that knows the manager is in it. -/
structure Registered [LinearOrder ι] (s : Desk ι Px) : Prop where
  sorted : s.attached.Pairwise (· < ·)
  known : ∀ u, (s.win u).wm = true → u ∈ s.attached

section Registered
variable [LinearOrder ι] {s t : Desk ι Px}

theorem Registered.keys (h : s.Registered) : s.attached.Nodup :=
  h.sorted.imp fun less => ne_of_lt less

theorem Registered.knows (h : s.Registered) (u : ι) : s.cwm.Knows u (s.win u) :=
  fun managed => Cwm.lookup_of_mem (h.known u managed)

theorem Registered.of_same (h : s.Registered) (map : t.cwm.cwmmap = s.cwm.cwmmap)
    (wm : ∀ u, (t.win u).wm = (s.win u).wm) : t.Registered := by
  have same : t.attached = s.attached := congrArg (List.map Prod.fst) map
  refine ⟨same ▸ h.sorted, fun u managed => ?_⟩
  rw [same]
  exact h.known u (wm u ▸ managed)

theorem Registered.of_touches (h : s.Registered) {keys : List ι} (touched : s.Touches keys t) :
    t.Registered := h.of_same (congrArg Cwm.cwmmap touched.cwm) touched.wm

theorem Registered.withFocus (h : s.Registered) (newFocus : Bool) :
    (s.withFocus newFocus).Registered := h.of_same rfl fun _ => rfl

theorem Registered.withCursor (h : s.Registered) (x y : Int) :
    (s.withCursor x y).Registered := h.of_same rfl fun _ => rfl

theorem Registered.attachWindow (h : s.Registered) (w : ι) (sh : Shift) :
    (s.attachWindow w sh).Registered where
  sorted := Cwm.assign_sorted h.sorted
  known u managed := by
    refine Cwm.mem_assign.mpr ?_
    by_cases same : u = w
    · exact .inl same
    · refine .inr (h.known u ?_)
      have kept : (s.attachWindow w sh).win u = s.win u := Function.update_of_ne same _ _
      rwa [kept] at managed

theorem Overlaid.attachWindow {term : Point → Px} {image : ι → Option (Point → Px)}
    (h : Overlaid term image s) (w : ι) (sh : Shift) :
    Overlaid term image (s.attachWindow w sh) := by
  have windows : (s.attachWindow w sh).win =
      fun u => { s.win u with wm := if u = w then true else (s.win u).wm } := by
    funext u
    by_cases same : u = w
    · subst same
      simp [Desk.attachWindow_def]
    · simp [Desk.attachWindow_def, same]
  have desk : s.attachWindow w sh = { s with
      cwm := (s.attachWindow w sh).cwm
      win := fun u => { s.win u with wm := if u = w then true else (s.win u).wm } } := by
    rw [← windows]
    rfl
  rw [desk]
  refine ⟨h.opened, h.unmeasured, fun u shown => ?_, fun u hid => ?_, h.shows, h.off, h.blend⟩
  · have old := h.standing u shown
    exact ⟨old.opened, old.shown, old.bg, old.fits⟩
  · have old := h.below u hid
    exact ⟨old.same, old.bg, old.fg, old.sized⟩

end Registered

end Desk

namespace Scene

variable [LinearOrder ι]

structure Sound (s : Scene ι Px) : Prop where
  overlaid : Overlaid s.term s.image s.desk
  registered : s.desk.Registered

theorem sound_start (dev : GraphDev Px) : (start dev : Scene ι Px).Sound where
  overlaid :=
    { opened := fun _ => rfl
      unmeasured := fun _ _ => ⟨rfl, rfl⟩
      standing := fun _ shown => absurd shown Bool.false_ne_true
      below := fun _ _ =>
        ⟨rfl, rfl, (fun _ absent => nomatch absent), fun _ absent => nomatch absent⟩
      shows := fun _ shown => absurd shown Bool.false_ne_true
      off := fun _ _ => rfl
      blend := fun _ _ _ shown => absurd shown Bool.false_ne_true }
  registered := ⟨List.Pairwise.nil, fun _ managed => absurd managed Bool.false_ne_true⟩

theorem Sound.setFocus {s : Scene ι Px} (h : s.Sound) (newFocus : Bool)
    (ready : newFocus = true → s.desk.cwm.focus = false → s.desk.Ready s.term s.image) :
    Ends OffScreen (s.desk.setFocus newFocus) fun d => Sound ⟨d, s.term, s.image⟩ := by
  cases newFocus with
  | true =>
    refine (h.overlaid.setFocus_true (.inr offScreen_range) (ready rfl)).mono ?_
    rintro d ⟨overlaid, touched, -⟩
    exact ⟨overlaid, h.registered.withFocus _ |>.of_touches touched⟩
  | false =>
    obtain ⟨d, returned, overlaid, touched, -⟩ := h.overlaid.setFocus_false
    exact Ends.intro returned
      ⟨overlaid, h.registered.withFocus _ |>.of_touches touched⟩

theorem sound_exec {s : Scene ι Px} (h : s.Sound) {op : Op ι Px} (allowed : s.Allowed op)
    (separate : s.Separate op) :
    Ends OffScreen (s.desk.exec op) fun d => (s.after op d).Sound := by
  have known := h.registered
  cases op with
  | attachWindow w sh => exact ⟨h.overlaid.attachWindow w sh, known.attachWindow w sh⟩
  | showWindow w =>
    refine (h.overlaid.show w (.inr offScreen_range) separate).mono ?_
    rintro d ⟨overlaid, touched, -⟩
    exact ⟨overlaid, known.of_touches touched⟩
  | hideWindow w =>
    obtain ⟨d, returned, overlaid, touched, -⟩ := h.overlaid.hide w
    exact Ends.intro returned
      ⟨overlaid, known.of_touches touched⟩
  | xy w x y =>
    refine (h.overlaid.xy w x y (.inr offScreen_range) separate).mono ?_
    rintro d ⟨overlaid, touched, -⟩
    exact ⟨overlaid, known.of_touches touched⟩
  | render w content =>
    refine (h.overlaid.render (known.knows w) allowed separate).mono ?_
    rintro d ⟨overlaid, touched⟩
    exact ⟨overlaid, known.of_touches touched⟩
  | cursorPosition x y =>
    refine (h.overlaid.setPosition known.keys x y (.inr offScreen_range) separate).mono ?_
    rintro d ⟨overlaid, touched, -⟩
    exact ⟨overlaid, (known.withCursor x y).of_touches touched⟩
  | setFocus newFocus => exact h.setFocus newFocus separate
  | refreshBegin =>
    have opening : Sound ⟨{ s.desk with prevFocus := s.desk.cwm.focus }, s.term, s.image⟩ :=
      ⟨h.overlaid.of_same rfl rfl, known.of_same rfl fun _ => rfl⟩
    exact opening.setFocus false fun contra => absurd contra Bool.false_ne_true
  | refreshEnd => exact h.setFocus s.desk.prevFocus separate
  | paint picture =>
    obtain ⟨d, returned, cleared, -⟩ :=
      Cleared.act ⟨h.overlaid, allowed⟩ known.keys (.paint picture)
    obtain rfl := Except.ok.inj returned
    exact ⟨cleared.overlaid, known.of_same rfl fun _ => rfl⟩

theorem sound_run {dev : GraphDev Px} {ops : List (Op ι Px)} {s : Scene ι Px}
    (run : Run (fun s op t => s.Step op t ∧ s.Separate op) (start dev) ops s) : s.Sound := by
  refine run.invariant Sound ?_ (sound_start dev)
  rintro s op t sound ⟨⟨allowed, d, returned, rfl⟩, separate⟩
  exact (sound_exec sound allowed separate).of_ok returned

/-- In a run in which no visible window lands on another one, the refresh bracket works at
every settled state. -/
theorem bracket_law {dev : GraphDev Px} {ops : List (Op ι Px)} {s : Scene ι Px}
    (run : Run (fun s op t => s.Step op t ∧ s.Separate op) (start dev) ops s)
    (settled : s.Settled) : s.BracketLaw := by
  obtain ⟨overlaid, known⟩ := sound_run run
  obtain ⟨opened, begins, cleared, touched, paused, frames⟩ :=
    overlaid.refreshBegin fun u shown => (settled.visible u).mp shown
  refine ⟨opened, begins, cleared.overlaid.pixel_of_hidden cleared.hidden, fun acts => ?_⟩
  have map : opened.attached = s.desk.attached := by
    rw [attached, touched.cwm]
    rfl
  obtain ⟨inside, moves, cleared', map', focus, prevFocus⟩ :=
    cleared.acts (map ▸ known.keys) acts
  refine ⟨inside, moves, cleared'.overlaid.pixel_of_hidden cleared'.hidden, fun tiled => ?_⟩
  obtain ⟨closed, ends, overlaid', cwm, frames', visible⟩ :=
    cleared'.refreshEnd tiled (paused.of_same map' focus prevFocus)
  have previous : inside.prevFocus = s.desk.cwm.focus := prevFocus.trans touched.prevFocus
  rw [previous] at cwm
  have mapped : closed.attached = inside.attached := by
    rw [attached, cwm]
    rfl
  refine ⟨closed, ends, cwm, frames', fun on => ⟨?_, ?_⟩, fun off => ?_⟩
  · intro u hu
    exact overlaid'.shows u ((visible u).mpr ⟨previous.trans on, mapped ▸ hu⟩)
  · exact fun p free => overlaid'.off p fun u shown =>
      free u (mapped ▸ ((visible u).mp shown).2)
  · refine overlaid'.pixel_of_hidden fun u => Bool.eq_false_iff.mpr fun shown => ?_
    exact absurd (off.symm.trans (previous.symm.trans ((visible u).mp shown).1))
      Bool.false_ne_true

/-! ### Two windows, one below the other -/

instance (s : Scene Bool Px) : DecidablePred s.Allowed
  | .paint _ => inferInstanceAs (Decidable (∀ u, (s.desk.win u).visible = false))
  | .render _ content => inferInstanceAs (Decidable (content.Inside (content.extent 0 0)))
  | .attachWindow .. | .showWindow _ | .hideWindow _ | .xy .. | .cursorPosition .. | .setFocus _
  | .refreshBegin | .refreshEnd => inferInstanceAs (Decidable True)

/-- `Step` as a function. -/
def call (s : Scene Bool Px) (op : Op Bool Px) : Option (Scene Bool Px) :=
  match s.desk.exec op with
  | .ok d => if s.Allowed op then some (s.after op d) else none
  | .error _ => none

theorem step_of_call (s : Scene Bool Px) (op : Op Bool Px) (s' : Scene Bool Px)
    (called : s.call op = some s') : s.Step op s' := by
  unfold call at called
  split at called
  · next d returned =>
    obtain ⟨allowed, same⟩ := Option.ite_none_right_eq_some.mp called
    exact ⟨allowed, d, returned, (Option.some.inj same).symm⟩
  · cases called

theorem tiled_of_frames {d : Desk Bool Px} {F G : Frame} (low : (d.win false).frame = F)
    (high : (d.win true).frame = G) (apart : Disjoint F.rect G.rect)
    (fits : ∀ u, (d.win u).Fits d.dev) : d.Tiled where
  apart u _ w _ differ := by
    have here : Disjoint (d.win false).rect (d.win true).rect := by
      rwa [Window.rect_eq, Window.rect_eq, low, high]
    cases u <;> cases w
    · exact absurd rfl differ
    · exact here
    · exact here.symm
    · exact absurd rfl differ
  fits u _ := fits u

theorem disjoint_rows {x x' y y' w : Int} (rows : y ≠ y') :
    Disjoint (Frame.rect ⟨x, y, w, 0⟩) (Frame.rect ⟨x', y', w, 0⟩) := by
  rw [Set.disjoint_left]
  simp only [Frame.rect, mem_box]
  omega

/-- A blank screen with a preedit and a status window, rendered but not shown. -/
def furnish : List (Op Bool Nat) :=
  [.attachWindow false (.preeditShift 0 1), .attachWindow true (.statusShift 0 2),
    .render false [(0, 0, ⟨1, 0, [(0, 0, 7), (1, 0, 7)]⟩)],
    .render true [(0, 0, ⟨1, 0, [(0, 0, 8), (1, 0, 8)]⟩)]]

/-- One cursor move with the focus on, and the bracket no longer restores the terminal. -/
theorem bracket_broken : ∃ (ops : List (Op Bool Nat)) (s : Scene Bool Nat),
    Run Step (start ⟨40, 40, fun _ => 0⟩) ops s ∧ s.Settled ∧ ¬ s.BracketLaw := by
  let ops := furnish ++ [.setFocus true, .cursorPosition 0 1]
  let s := (replay call (start ⟨40, 40, fun _ => 0⟩) ops).get (by decide)
  refine ⟨ops, s, Run.of_replay step_of_call (Option.some_get _).symm, ⟨by decide, ?_, ?_⟩, ?_⟩
  · have drawn : ∀ u, (s.image u).isSome = true := by decide
    exact fun u _ => Option.isSome_iff_exists.mp (drawn u)
  · exact tiled_of_frames (F := ⟨0, 2, 1, 0⟩) (G := ⟨0, 3, 1, 0⟩) (by decide) (by decide)
      (disjoint_rows (by decide)) (by decide)
  · rintro ⟨opened, begins, bare, -⟩
    have left : (s.desk.ucimfRefreshBegin.toOption.map fun d => d.dev.pixel (0, 2)) = some 8 := by
      decide
    have blank : s.term (0, 2) = 0 := by decide
    rw [begins] at left
    have stale : opened.dev.pixel (0, 2) = 8 := Option.some.inj left
    rw [bare, blank] at stale
    cases stale

def proceed (s : Scene Bool Nat) (op : Op Bool Nat) : Scene Bool Nat := (s.call op).getD s

theorem run_proceed {start s : Scene Bool Nat} {ops : List (Op Bool Nat)}
    (run : Run (fun s op t => s.Step op t ∧ s.Separate op) start ops s) (op : Op Bool Nat)
    (called : (s.call op).isSome = true) (separate : s.Separate op) :
    Run (fun s op t => s.Step op t ∧ s.Separate op) start (ops ++ [op]) (s.proceed op) := by
  obtain ⟨t, returned⟩ := Option.isSome_iff_exists.mp called
  rw [proceed, returned]
  exact run.snoc ⟨step_of_call s op t returned, separate⟩

/-- The two windows at the cursor `(0, 0)`, not shown yet. -/
def unlit : Scene Bool Nat := furnish.foldl proceed (start ⟨40, 40, fun _ => 0⟩)

def furnished : Scene Bool Nat := unlit.proceed (.setFocus true)

theorem furnished_run : ∃ ops : List (Op Bool Nat),
    Run (fun s op t => s.Step op t ∧ s.Separate op) (start ⟨40, 40, fun _ => 0⟩) ops
      furnished := by
  have unseen : ∀ {b : Bool} {P : Prop}, b = false → b = true → P :=
    fun hid shown => absurd (hid.symm.trans shown) Bool.false_ne_true
  have tiled : unlit.desk.Tiled :=
    tiled_of_frames (F := ⟨0, 1, 1, 0⟩) (G := ⟨0, 2, 1, 0⟩) (by decide) (by decide)
      (disjoint_rows (by decide)) (by decide)
  have ready : unlit.desk.Ready unlit.term unlit.image := tiled.ready (by decide) _ _
  have empty : Run (fun s op t => s.Step op t ∧ s.Separate op) (start ⟨40, 40, fun _ => 0⟩) []
      (start ⟨40, 40, fun _ => 0⟩ : Scene Bool Nat) := .nil
  have attached := run_proceed (run_proceed empty (.attachWindow false (.preeditShift 0 1))
    (by decide) trivial) (.attachWindow true (.statusShift 0 2)) (by decide) trivial
  have rendered := run_proceed (run_proceed attached
    (.render false [(0, 0, ⟨1, 0, [(0, 0, 7), (1, 0, 7)]⟩)]) (by decide) (unseen (by decide)))
    (.render true [(0, 0, ⟨1, 0, [(0, 0, 8), (1, 0, 8)]⟩)]) (by decide) (unseen (by decide))
  exact ⟨_, run_proceed rendered (.setFocus true) (by decide) fun _ _ => ready⟩

theorem bracket_law_furnished : (furnished : Scene Bool Nat).BracketLaw := by
  obtain ⟨ops, run⟩ := furnished_run
  have drawn : ∀ u, (furnished.image u).isSome = true := by decide
  exact bracket_law run ⟨by decide, fun u _ => Option.isSome_iff_exists.mp (drawn u),
    tiled_of_frames (F := ⟨0, 1, 1, 0⟩) (G := ⟨0, 2, 1, 0⟩) (by decide) (by decide)
      (disjoint_rows (by decide)) (by decide)⟩

end Scene

end Ucimf.Display
