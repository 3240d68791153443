import Ucimf.Display.Placement

/-!
# The three windows

The gaps of `ucimf_init` stack the status, preedit and candidate windows: below the cursor
they follow one another downwards, above it upwards, and none but the last is higher than
the step between two gaps. As no window with a size is ever out of its place, no two of
them meet.
-/

namespace Ucimf.Display

open Outcome Transition

variable {ι Px : Type}

theorem lookup_cons_ite [DecidableEq ι] {u : ι} (entry : ι × Shift) (m : List (ι × Shift)) :
    (entry :: m).lookup u = if u = entry.1 then some entry.2 else m.lookup u := by
  rw [List.lookup_cons]
  by_cases same : u = entry.1
  · simp [same]
  · simp [same, beq_eq_false_iff_ne.mpr same]

theorem Cwm.lookup_assign [LinearOrder ι] {w u : ι} {sh : Shift} {m : List (ι × Shift)} :
    (Cwm.assign w sh m).lookup u = if u = w then some sh else m.lookup u := by
  induction m with
  | nil => exact lookup_cons_ite (w, sh) []
  | cons entry m ih =>
    unfold Cwm.assign
    split
    · exact lookup_cons_ite (w, sh) (entry :: m)
    · split
      · next same =>
        rw [lookup_cons_ite, lookup_cons_ite, ← same]
        split <;> rfl
      · next differ =>
        rw [lookup_cons_ite, lookup_cons_ite, ih]
        by_cases same : u = entry.1
        · rw [if_pos same, if_neg (same ▸ Ne.symm differ), if_pos same]
        · rw [if_neg same, if_neg same]

namespace Layout

section Land
variable [LinearOrder ι] {l : Layout ι} {u : ι} {sh : Shift}

@[simp] theorem land_cwm (entries : List (ι × Shift)) : (l.land entries).cwm = l.cwm := by
  unfold land
  induction entries generalizing l with
  | nil => rfl
  | cons entry entries ih => exact ih

@[simp] theorem land_cwmmap (entries : List (ι × Shift)) :
    (l.land entries).cwmmap = l.cwmmap := congrArg Cwm.cwmmap (l.land_cwm entries)

theorem land_of_notMem {entries : List (ι × Shift)} (absent : u ∉ entries.map Prod.fst) :
    (l.land entries).frame u = l.frame u := by
  unfold land
  induction entries generalizing l with
  | nil => rfl
  | cons entry entries ih =>
    rw [List.map_cons, List.mem_cons, not_or] at absent
    exact (ih absent.2).trans (l.setFrame_of_ne _ absent.1)

/-- Each window of the map is moved to its place once. -/
theorem land_frame {entries : List (ι × Shift)} (keys : (entries.map Prod.fst).Nodup)
    (found : entries.lookup u = some sh) : (l.land entries).frame u = l.landing (u, sh) := by
  induction entries generalizing l with
  | nil => nomatch found
  | cons entry entries ih =>
    rw [List.map_cons, List.nodup_cons] at keys
    rw [lookup_cons_ite] at found
    have first : l.land (entry :: entries) =
        (l.setFrame entry.1 (l.landing entry)).land entries := rfl
    rw [first]
    split at found
    · next same =>
      subst same
      obtain rfl := Option.some.inj found
      rw [land_of_notMem keys.1, setFrame_self]
    · next other =>
      rw [ih keys.2 found, landing, landing, setFrame_of_ne _ _ other]
      rfl

end Land

end Layout

/-! ### The library -/

/-- The window a widget draws in. -/
def Content.panel : Content → Panel
  | .status _ _ => .status
  | .preedit _ => .preedit
  | .lookupChoice _ => .lookupChoice

theorem Content.height_le (content : Content) (font : Font)
    (other : content.panel ≠ .lookupChoice) :
    content.height font ≤ font.height + 3 := by
  cases content with
  | status imfName imName => exact le_rfl
  | preedit buf =>
    simp only [Content.height]
    split <;> omega
  | lookupChoice bufs => exact absurd rfl other

/-! ### The stack -/

/-- A window that is in its place if it has a size, and that is at most a line and a border
high unless it shows the candidates. -/
structure Panel.Stands (p : Panel) (fontHeight : Nat) (c : Cwm Panel) (F : Frame) : Prop where
  placed : ¬ (F.width = 0 ∧ F.height = 0) →
    (F.posX, F.posY) = (p.shift fontHeight).target c F.width F.height
  nonneg : 0 ≤ F.height
  low : p ≠ .lookupChoice → F.height ≤ fontHeight + 3

/-- A window with a size hangs below the cursor at the distance of its gap, or stands above it
at the same distance. -/
theorem Panel.Stands.side {p : Panel} {fontHeight : Nat} {c : Cwm Panel} {F : Frame}
    (h : p.Stands fontHeight c F) (sized : ¬ (F.width = 0 ∧ F.height = 0)) :
    F.posY = c.cursorY + (p.shift fontHeight).yGap ∨
      F.posY + F.height = c.cursorY - (p.shift fontHeight).yGap := by
  have place := congrArg Prod.snd (h.placed sized)
  rw [Shift.target_eq] at place
  simp only [Cwm.beside] at place
  split at place <;> omega

/-- The gaps leave more than a line and a border between two windows. -/
theorem Panel.gaps_apart {p q : Panel} (other : p ≠ q) (fontHeight : Nat) :
    (p ≠ .lookupChoice ∧
        (p.shift fontHeight).yGap + (fontHeight + 3) < (q.shift fontHeight).yGap) ∨
      (q ≠ .lookupChoice ∧
        (q.shift fontHeight).yGap + (fontHeight + 3) < (p.shift fontHeight).yGap) := by
  cases p <;> cases q <;> simp only [Panel.shift, Shift.yGap, ne_eq, reduceCtorEq,
    not_true_eq_false, not_false_eq_true, true_and, false_and, or_false, false_or] at other ⊢ <;>
    omega

/-- The window nearer to the cursor ends before the other one begins, on either side. -/
theorem Panel.Stands.disjoint_of_nearer {p q : Panel} {fontHeight : Nat} {c : Cwm Panel}
    {F G : Frame} (hp : p.Stands fontHeight c F) (hq : q.Stands fontHeight c G)
    (sizedF : ¬ (F.width = 0 ∧ F.height = 0)) (sizedG : ¬ (G.width = 0 ∧ G.height = 0))
    (nearer : (p.shift fontHeight).yGap + F.height < (q.shift fontHeight).yGap) :
    Disjoint F.rect G.rect := by
  have positive := (p.fromInit_shift fontHeight).positive
  have nonnegF := hp.nonneg
  have nonnegG := hq.nonneg
  have sideF := hp.side sizedF
  have sideG := hq.side sizedG
  rw [Set.disjoint_left]
  intro point inF inG
  simp only [Frame.rect, mem_box] at inF inG
  omega

theorem Panel.Stands.disjoint {p q : Panel} {fontHeight : Nat} {c : Cwm Panel} {F G : Frame}
    (hp : p.Stands fontHeight c F) (hq : q.Stands fontHeight c G) (other : p ≠ q)
    (sizedF : ¬ (F.width = 0 ∧ F.height = 0)) (sizedG : ¬ (G.width = 0 ∧ G.height = 0)) :
    Disjoint F.rect G.rect := by
  rcases Panel.gaps_apart other fontHeight with ⟨first, gap⟩ | ⟨first, gap⟩
  · have low := hp.low first
    exact hp.disjoint_of_nearer hq sizedF sizedG (by omega)
  · have low := hq.low first
    exact (hq.disjoint_of_nearer hp sizedG sizedF (by omega)).symm

section Library
variable [LinearOrder Panel]

/-- `ucimf_init`, on an open device and with nothing attached. -/
def ucimfInit (dev : GraphDev Px) (fontHeight : Nat) : Except Fault (Desk Panel Px) :=
  ((((Desk.start dev).attachWindow .lookupChoice (Panel.lookupChoice.shift fontHeight)).attachWindow
    .preedit (Panel.preedit.shift fontHeight)).attachWindow
    .status (Panel.status.shift fontHeight)).setFocus false

/-- After `ucimf_init` nothing is attached any more, each window draws its own widget, and
only the manager moves windows. -/
def Served (font : Font) : Op Panel Px → Prop
  | .render p content =>
    ∃ (widget : Content) (look : Look Px), widget.panel = p ∧ content = widget.draw font look
  | .attachWindow _ _ | .xy _ _ _ => False
  | .showWindow _ | .hideWindow _ | .cursorPosition _ _ | .setFocus _ | .refreshBegin
  | .refreshEnd | .paint _ => True

def Desk.Serves (font : Font) (s : Desk Panel Px) (op : Op Panel Px) (t : Desk Panel Px) : Prop :=
  Served font op ∧ s.Step op t

structure Layout.Stacked (l : Layout Panel) (fontHeight : Nat) : Prop where
  sound : l.Sound
  shifts : ∀ p : Panel, l.cwmmap.lookup p = some (p.shift fontHeight)
  stands : ∀ p : Panel, p.Stands fontHeight l.cwm (l.frame p)

theorem stacked_init {dev : GraphDev Px} {fontHeight : Nat} {s : Desk Panel Px}
    (init : ucimfInit dev fontHeight = .ok s) : s.layout.Stacked fontHeight := by
  have attached := (Desk.layout_setFocus false).of_ok init
  rw [Desk.layout_attachWindow, Desk.layout_attachWindow, Desk.layout_attachWindow] at attached
  rw [attached]
  have flat : ∀ p, (((((Desk.start dev : Desk Panel Px).layout.after
      (.attachWindow .lookupChoice (Panel.lookupChoice.shift fontHeight) : Op Panel Px)).after
      (.attachWindow .preedit (Panel.preedit.shift fontHeight) : Op Panel Px)).after
      (.attachWindow .status (Panel.status.shift fontHeight) : Op Panel Px)).frame p) =
        ⟨0, 0, 0, 0⟩ := fun _ => rfl
  refine ⟨?_, fun p => ?_, fun p => ?_⟩
  · exact (((Layout.sound_start dev.xres dev.yres).after _).after _).after _
  · cases p <;> simp [Layout.after, Cwm.lookup_assign]
  · rw [flat]
    exact ⟨fun sized => absurd ⟨rfl, rfl⟩ sized, le_rfl, fun _ => by dsimp only; omega⟩

theorem Layout.Stacked.managed {l : Layout Panel} {fontHeight : Nat} (h : l.Stacked fontHeight)
    (p : Panel) : l.wm p = true := by
  have found : (l.cwmmap.lookup p).isSome = true := by rw [h.shifts p, Option.isSome_some]
  obtain ⟨entry, mem, same⟩ := List.lookup_isSome_iff.mp found
  exact (h.sound.managed p).mpr (List.mem_map.mpr ⟨entry, mem, (eq_of_beq same).symm⟩)

/-- A rendered window stands. -/
theorem Layout.Stacked.rendered {l : Layout Panel} {font : Font} (h : l.Stacked font.height)
    (widget : Content) (look : Look Px) :
    widget.panel.Stands font.height l.cwm (l.rendered widget.panel (widget.draw font look)) := by
  obtain ⟨width, height, placed⟩ :=
    h.sound.rendered (h.managed widget.panel) (widget.draw font look)
  have rows : (widget.draw font look).height = widget.height font := by
    rw [← widget.draw_extent font look, Drawing.extent_eq]
  refine ⟨fun sized => ?_, ?_, fun other => ?_⟩
  · rw [width, height] at sized ⊢
    obtain ⟨sh, found, place⟩ := placed sized
    rw [h.shifts] at found
    obtain rfl := Option.some.inj found
    exact place
  · rw [height, rows]
    exact widget.height_nonneg font
  · rw [height, rows]
    exact widget.height_le font other

theorem Layout.Stacked.after {l : Layout Panel} {font : Font} (h : l.Stacked font.height)
    {op : Op Panel Px} (served : Served font op) : (l.after op).Stacked font.height := by
  cases op with
  | attachWindow w sh => exact absurd served id
  | xy w x y => exact absurd served id
  | render p content =>
    obtain ⟨widget, look, rfl, rfl⟩ := served
    refine ⟨h.sound.after _, h.shifts, fun q => ?_⟩
    by_cases same : q = widget.panel
    · subst same
      have own : (l.after (.render widget.panel (widget.draw font look))).frame widget.panel =
          l.rendered widget.panel (widget.draw font look) := l.setFrame_self _ _
      rw [own]
      exact h.rendered widget look
    · have kept : (l.after (.render widget.panel (widget.draw font look))).frame q = l.frame q :=
        l.setFrame_of_ne _ same
      rw [kept]
      exact h.stands q
  | cursorPosition x y =>
    have sound := h.sound.after (.cursorPosition x y : Op Panel Px)
    unfold Layout.after at sound ⊢
    dsimp only at sound ⊢
    split
    · next moved =>
      rw [if_pos moved] at sound
      refine ⟨sound, fun p => ?_, fun p => ?_⟩
      · rw [Layout.land_cwmmap]
        exact h.shifts p
      · have keys : (l.cwmmap.map Prod.fst).Nodup := h.sound.sorted.imp fun less => ne_of_lt less
        rw [Layout.land_cwm, Layout.land_frame keys (h.shifts p)]
        exact ⟨fun _ => rfl, (h.stands p).nonneg, (h.stands p).low⟩
    · exact h
  | showWindow | hideWindow | setFocus | refreshBegin | refreshEnd | paint => exact h

theorem stacked_run {dev : GraphDev Px} {font : Font} {ops : List (Op Panel Px)}
    {start s : Desk Panel Px} (init : ucimfInit dev font.height = .ok start)
    (run : Run (Desk.Serves font) start ops s) : s.layout.Stacked font.height := by
  refine run.invariant (fun s => s.layout.Stacked font.height) ?_ (stacked_init init)
  rintro s op t stacked ⟨served, taken⟩
  rw [(Desk.layout_exec stacked.sound op).of_ok taken]
  exact stacked.after served

/-- In every state that a program reaches after `ucimf_init`, two windows that have a size do
not meet. -/
theorem windows_disjoint {dev : GraphDev Px} {font : Font} {ops : List (Op Panel Px)}
    {start s : Desk Panel Px} (init : ucimfInit dev font.height = .ok start)
    (run : Run (Desk.Serves font) start ops s) {p q : Panel} (other : p ≠ q)
    (sized : ¬ ((s.win p).width = 0 ∧ (s.win p).height = 0))
    (sized' : ¬ ((s.win q).width = 0 ∧ (s.win q).height = 0)) :
    Disjoint (s.win p).rect (s.win q).rect := by
  have stacked := stacked_run init run
  exact (stacked.stands p).disjoint (stacked.stands q) other sized sized'

end Library

def Panel.index : Panel → Nat
  | .status => 0
  | .preedit => 1
  | .lookupChoice => 2

/-- One order of addresses the windows may have. -/
instance : LinearOrder Panel :=
  LinearOrder.lift' Panel.index fun p q same => by
    cases p <;> cases q <;> first | rfl | nomatch same

def blankFont : Font := ⟨1, 1, fun _ => none⟩

/-- A line of status and a line of preedit, the cursor at `(3, 5)`. -/
def twoLines : List (Op Panel Nat) :=
  [.render .status ((Content.status [65] []).draw blankFont ⟨0, 7, 3⟩), .cursorPosition 3 5,
    .render .preedit ((Content.preedit [65]).draw blankFont ⟨0, 7, 3⟩)]

theorem lines_disjoint :
    ∃ s : Desk Panel Nat, Disjoint (s.win .status).rect (s.win .preedit).rect := by
  have ready : ((ucimfInit ⟨60, 60, fun _ => 0⟩ blankFont.height).toOption.any fun start =>
      (replay (fun s op => (s.exec op).toOption) start twoLines).any fun s =>
        decide (¬ ((s.win .status).width = 0 ∧ (s.win .status).height = 0) ∧
          ¬ ((s.win .preedit).width = 0 ∧ (s.win .preedit).height = 0))) = true := by
    decide +kernel
  obtain ⟨start, init, ready⟩ := (Option.any_eq_true _ _).mp ready
  obtain ⟨s, replayed, sizes⟩ := (Option.any_eq_true _ _).mp ready
  obtain ⟨sized, sized'⟩ := of_decide_eq_true sizes
  have served : ∀ op ∈ twoLines, Served blankFont op := by
    simp only [twoLines, List.forall_mem_cons]
    exact ⟨⟨.status [65] [], _, rfl, rfl⟩, trivial, ⟨.preedit [65], _, rfl, rfl⟩, by simp⟩
  have run := (Run.of_replay Desk.step_of_toOption replayed).restrict served
  exact ⟨s, windows_disjoint (ok_of_toOption init) run (by simp) sized sized'⟩

end Ucimf.Display
