import Ucimf.Display.Recorded
import Ucimf.Display.Bracket
import Ucimf.Display.ThreeWindows

/-!
# Which buffer goes back where

The save buffers carry no size. `Kept` notes for each buffer the size it was filled for: while a
window is shown only its background is saved, and while it is hidden only its foreground, each at
the size the window has. The size changes only while `render` measures the hidden window, and then
the background is free and the foreground is filled anew before it is restored.
-/

namespace Ucimf.Display

open Outcome Traced GraphPort Transition

variable {ι Px : Type}

/-- What `SaveRect` filled a buffer with, and the size of the rectangle. -/
structure Fill (Px : Type) where
  width : Int
  height : Int
  content : List Px

/-- What the two buffers of a window were last filled with; `RstrRect` frees a buffer. -/
abbrev Fills (Px : Type) := Buffer → Option (Fill Px)

def RectCall.advance (g : Fills Px) : RectCall Px → Fills Px
  | .saveRect b x1 y1 x2 y2 filled => Function.update g b (some ⟨x2 - x1, y2 - y1, filled⟩)
  | .rstrRect b _ _ _ _ _ => Function.update g b none

/-- `RstrRect` is handed a buffer that is not null and that `SaveRect` filled for a rectangle of
the same width and height. -/
def RectCall.Paired (g : Fills Px) : RectCall Px → Prop
  | .saveRect _ _ _ _ _ _ => True
  | .rstrRect b x1 y1 x2 y2 buffer =>
    ∃ f, g b = some f ∧ buffer = some f.content ∧ f.width = x2 - x1 ∧ f.height = y2 - y1

/-- Every restore gets a buffer of its own size, and what is returned meets the postcondition. -/
abbrev Recorded.Keeps (g : Fills Px) (t : Recorded Px (View Px)) (Q : Fills Px → View Px → Prop) :
    Prop :=
  Traced.Keeps RectCall.advance RectCall.Paired g t Q

def Fill.Of (f : Fill Px) (W : Window Px) : Prop := f.width = W.width ∧ f.height = W.height

/-- The pointers of an open port agree with what was filled. -/
structure Linked (g : Fills Px) (gp : GraphPort Px) : Prop where
  opened : gp.gdev = true
  buf : ∀ b, gp.buf b = (g b).map Fill.content

theorem Linked.setBuf {g : Fills Px} {gp : GraphPort Px} (h : Linked g gp) (b : Buffer)
    (fill : Option (Fill Px)) :
    Linked (Function.update g b fill) (gp.setBuf (fill.map Fill.content) b) where
  opened := (gp.gdev_setBuf _ b).trans h.opened
  buf c := by
    rw [buf_setBuf]
    by_cases same : c = b
    · subst same
      rw [Function.update_self, Function.update_self]
    · rw [Function.update_of_ne same, Function.update_of_ne same]
      exact h.buf c

section Calls
variable {g : Fills Px} {v : View Px}

theorem Linked.push (h : Linked g v.win.gp) (b : Buffer) :
    Recorded.Keeps g (Recorded.port.pushBuf b v) fun g' v' =>
      ∃ content, g' = Function.update g b (some ⟨v.win.width, v.win.height, content⟩) ∧
        v' = ⟨v.dev, { v.win with gp := v.win.gp.setBuf (some content) b }⟩ := by
  let cleared : View Px := { v with win := { v.win with gp := v.win.gp.setBuf none b } }
  have saves : Recorded.port.pushBuf b v = Recorded.port.saveRect b v.win.posX v.win.posY
      (v.win.posX + v.win.width) (v.win.posY + v.win.height) cleared :=
    if_pos ((v.win.gp.gdev_setBuf none b).trans h.opened)
  rw [saves]
  dsimp only [Recorded.port]
  split
  · next saved filled =>
    apply Keeps.call trivial
    intro v' returned
    dsimp only [View.port] at returned
    rw [filled, ok_bind, setBuf_setBuf] at returned
    obtain rfl := Except.ok.inj returned
    refine ⟨saved, ?_, rfl⟩
    simp only [RectCall.advance, add_sub_cancel_left]
  · exact Keeps.error

theorem Linked.pop (h : Linked g v.win.gp) {b : Buffer} (sized : ∀ f, g b = some f → f.Of v.win) :
    Recorded.Keeps g (Recorded.port.popBuf b v) fun g' v' =>
      ∃ dev, g' = Function.update g b none ∧
        v' = ⟨dev, { v.win with gp := v.win.gp.setBuf none b }⟩ := by
  have pointer := h.buf b
  cases held : g b with
  | none =>
    rw [held, Option.map_none] at pointer
    have idle : Recorded.port.popBuf b v = silent (.ok v) :=
      if_pos (Option.isNone_iff_eq_none.mpr pointer)
    rw [idle]
    refine Keeps.ok ⟨v.dev, ?_, ?_⟩
    · rw [← held, Function.update_eq_self]
    · have same := v.win.gp.setBuf_buf b
      rw [pointer] at same
      rw [same]
  | some f =>
    rw [held, Option.map_some] at pointer
    have full : ¬ Recorded.port.null b v = true := by simp [Recorded.port, View.port, pointer]
    have restores : Recorded.port.popBuf b v = Recorded.port.rstrRect b v.win.posX v.win.posY
        (v.win.posX + v.win.width) (v.win.posY + v.win.height) v :=
      (if_neg full).trans (if_pos h.opened)
    rw [restores]
    apply Keeps.call
    · obtain ⟨width, height⟩ := sized f held
      refine ⟨f, held, pointer, ?_, ?_⟩
      · rw [width, add_sub_cancel_left]
      · rw [height, add_sub_cancel_left]
    · intro v' returned
      obtain ⟨dev, -, same⟩ := bind_eq_ok.mp returned
      exact ⟨dev, rfl, (Except.ok.inj same).symm⟩

end Calls

/-! ### One window -/

structure Kept (g : Fills Px) (W : Window Px) : Prop where
  linked : Linked g W.gp
  shown : W.visible = true → (∃ f, g .bg = some f ∧ f.Of W) ∧ g .fg = none
  hid : W.visible = false → g .bg = none ∧ ∀ f, g .fg = some f → f.Of W

theorem Kept.bg_iff {g : Fills Px} {W : Window Px} (h : Kept g W) :
    W.gp.bufBg ≠ none ↔ W.visible = true := by
  have pointer : W.gp.bufBg = (g .bg).map Fill.content := h.linked.buf .bg
  rw [pointer]
  cases visible : W.visible with
  | true =>
    obtain ⟨⟨f, saved, _⟩, _⟩ := h.shown visible
    rw [saved]
    exact iff_of_true (Option.some_ne_none _) rfl
  | false =>
    rw [(h.hid visible).1]
    exact iff_of_false (fun contra => contra rfl) Bool.false_ne_true

section Window
variable {g : Fills Px} {v : View Px}

/-- A hidden window takes its image off the screen. -/
theorem Linked.lower (h : Linked g v.win.gp) (hid : v.win.visible = false)
    (back : ∀ f, g .bg = some f → f.Of v.win) :
    Recorded.Keeps g (Recorded.port.pushBuf .fg v >>= Recorded.port.popBuf .bg) fun g' v' =>
      Kept g' v'.win ∧ v'.win.visible = false := by
  apply (h.push .fg).bind
  rintro g₁ _ ⟨front, rfl, rfl⟩
  have linked := h.setBuf .fg (some ⟨v.win.width, v.win.height, front⟩)
  have popped := Linked.pop
    (v := ⟨v.dev, { v.win with gp := v.win.gp.setBuf (some front) .fg }⟩) (b := .bg) linked back
  apply popped.mono
  rintro g₂ _ ⟨dev, rfl, rfl⟩
  refine ⟨⟨linked.setBuf .bg none, fun shown => ?_, fun _ => ⟨rfl, ?_⟩⟩, hid⟩
  · exact absurd (hid.symm.trans shown) Bool.false_ne_true
  · rintro f ⟨⟩
    exact ⟨rfl, rfl⟩

theorem Kept.hide (h : Kept g v.win) :
    Recorded.Keeps g (Recorded.port.hide v) fun g' v' =>
      Kept g' v'.win ∧ v'.win.visible = false := by
  unfold Port.hide
  split
  · next visible =>
    have ⟨⟨f, saved, size⟩, _⟩ := h.shown visible
    apply Linked.lower (v := { v with win := { v.win with visible := false } }) h.linked rfl
    intro f' same
    obtain rfl := Option.some.inj (saved.symm.trans same)
    exact size
  · next hid =>
    exact Keeps.ok ⟨h, Bool.eq_false_of_not_eq_true hid⟩

theorem Kept.show (h : Kept g v.win) :
    Recorded.Keeps g (Recorded.port.show v) fun g' v' =>
      Kept g' v'.win ∧ v'.win.visible = true := by
  unfold Port.show
  split
  · next hid =>
    have ⟨_, sized⟩ := h.hid hid
    have pushed := Linked.push (v := { v with win := { v.win with visible := true } }) h.linked .bg
    apply pushed.bind
    rintro g₁ _ ⟨back, rfl, rfl⟩
    have linked := h.linked.setBuf .bg (some ⟨v.win.width, v.win.height, back⟩)
    have popped := Linked.pop (v := ⟨v.dev, { v.win with
      visible := true, gp := v.win.gp.setBuf (some back) .bg }⟩) (b := .fg) linked ?_
    · apply popped.mono
      rintro g₂ _ ⟨dev, rfl, rfl⟩
      exact ⟨⟨linked.setBuf .fg none, fun _ => ⟨⟨_, rfl, rfl, rfl⟩, rfl⟩, nofun⟩, rfl⟩
    · exact sized
  · next shown =>
    exact Keeps.ok ⟨h, Bool.eq_true_of_not_eq_false shown⟩

theorem Kept.moved (h : Kept g v.win) (x y : Int) : Kept g (v.moved x y).win :=
  ⟨h.linked, h.shown, h.hid⟩

/-- A window that was shown before is shown again. -/
theorem Kept.shown_again (h : Kept g v.win) (hid : v.win.visible = false) (prevVisible : Bool) :
    Recorded.Keeps g (if prevVisible = true then Recorded.port.show v else silent (.ok v))
      fun g' v' => Kept g' v'.win ∧ v'.win.visible = prevVisible := by
  cases prevVisible with
  | true =>
    rw [if_pos rfl]
    exact h.show
  | false =>
    rw [if_neg Bool.false_ne_true]
    exact Keeps.ok ⟨h, hid⟩

theorem Kept.xy (h : Kept g v.win) (x y : Int) :
    Recorded.Keeps g (Recorded.port.xy x y v) fun g' v' =>
      Kept g' v'.win ∧ v'.win.visible = v.win.visible := by
  apply h.hide.bind
  intro g₁ low lowered
  exact (lowered.1.moved x y).shown_again lowered.2 v.win.visible

/-! ### Measuring -/

/-- Nothing was called, and the window is hidden with the port as given. -/
def Resting (g : Fills Px) (gp : GraphPort Px) (g' : Fills Px) (v' : View Px) : Prop :=
  g' = g ∧ v'.win.visible = false ∧ v'.win.gp = gp

section Measuring
variable [DecidableEq ι] {c : Cwm ι} {w : ι}

theorem resting_self (hid : v.win.visible = false) :
    Recorded.Keeps g (silent (.ok v)) (Resting g v.win.gp) := Keeps.ok ⟨rfl, hid, rfl⟩

theorem resting_hide (hid : v.win.visible = false) :
    Recorded.Keeps g (Recorded.port.hide v) (Resting g v.win.gp) := by
  have idle : Recorded.port.hide v = silent (.ok v) := if_neg (Bool.not_eq_true _ ▸ hid)
  rw [idle]
  exact resting_self hid

theorem resting_again {prevVisible : Bool} (prev : prevVisible = false)
    (hid : v.win.visible = false) :
    Recorded.Keeps g (if prevVisible = true then Recorded.port.show v else pure v)
      (Resting g v.win.gp) := by
  subst prev
  exact resting_self hid

theorem resting_xy (hid : v.win.visible = false) (x y : Int) :
    Recorded.Keeps g (Recorded.port.xy x y v) (Resting g v.win.gp) := by
  apply (resting_hide hid).bind
  rintro g₁ low ⟨rfl, lowered, port⟩
  rw [← port]
  exact resting_again (v := low.moved x y) hid lowered

theorem resting_update (hid : v.win.visible = false) :
    Recorded.Keeps g (Recorded.port.update c w v) (Resting g v.win.gp) := by
  unfold Port.update
  split
  · exact resting_xy hid _ _
  · exact Keeps.error

theorem resting_wh (hid : v.win.visible = false) (width height : Int) :
    Recorded.Keeps g (Recorded.port.wh c w width height v)
      (Resting g v.win.gp) := by
  apply (resting_hide hid).bind
  rintro g₁ low ⟨rfl, lowered, port⟩
  rw [← port]
  let sized : View Px := { low with win := { low.win with width := width, height := height } }
  have placed : Recorded.Keeps g₁ (if (Recorded.port.pane sized).wm = true then
      Recorded.port.update c w sized else pure sized) (Resting g₁ low.win.gp) := by
    split
    · exact resting_update (v := sized) lowered
    · exact resting_self (v := sized) lowered
  apply placed.bind
  rintro g₂ v₂ ⟨rfl, lowered₂, port₂⟩
  rw [← port₂]
  exact resting_again hid lowered₂

theorem resting_measure (hid : v.win.visible = false) (maxX maxY : Int) :
    Recorded.Keeps g (Recorded.port.measure c w maxX maxY v)
      (Resting g v.win.gp) := by
  unfold Port.measure
  dsimp only
  split
  · exact resting_wh hid _ _
  · exact resting_self hid

theorem resting_setPseudo (hid : v.win.visible = false) :
    Recorded.Keeps g (Recorded.port.setPseudo c w true v)
      (Resting g { v.win.gp with pseudo := true }) := by
  have measured : Recorded.Keeps g (if true ≠ (Recorded.port.pane v).pseudo ∧ true = true then
      Recorded.port.wh c w 0 0 v else pure v) (Resting g v.win.gp) := by
    split
    · exact resting_wh hid 0 0
    · exact resting_self hid
  apply measured.bind
  rintro g₁ v₁ ⟨rfl, lowered, port⟩
  rw [← port]
  exact resting_self (v := Recorded.port.markPseudo v₁ true) lowered

/-- The first drawing only measures. -/
theorem resting_draw (content : Drawing Px) (hid : v.win.visible = false)
    (pseudo : v.win.gp.pseudo = true) :
    Recorded.Keeps g (Recorded.port.drawAll c w content v)
      (Resting g v.win.gp) := by
  apply Keeps.foldlM fun _ => Resting g v.win.gp
  · rintro item _ g₁ v₁ ⟨rfl, lowered, port⟩
    have measures : Recorded.port.drawShape c w item.1 item.2.1 item.2.2 v₁ =
        Recorded.port.measure c w (item.1 + item.2.2.xMax) (item.2.1 + item.2.2.yMax) v₁ :=
      if_pos ((congrArg GraphPort.pseudo port).trans pseudo)
    rw [measures, ← port]
    exact resting_measure lowered _ _
  · exact ⟨rfl, hid, rfl⟩

/-- The second drawing only writes pixels. -/
theorem painting_draw (content : Drawing Px) (real : v.win.gp.pseudo = false) :
    Recorded.Keeps g (Recorded.port.drawAll c w content v) fun g' v' =>
      g' = g ∧ ∃ dev, v' = ⟨dev, v.win⟩ := by
  apply Keeps.foldlM fun _ g' v' => g' = g ∧ ∃ dev, v' = (⟨dev, v.win⟩ : View Px)
  · rintro item _ g₁ _ ⟨rfl, dev, rfl⟩
    have paints : Recorded.port.drawShape c w item.1 item.2.1 item.2.2 ⟨dev, v.win⟩ =
        if v.win.gp.gdev = true then Recorded.port.draw item.2.2 (v.win.posX + item.1)
          (v.win.posY + item.2.1) ⟨dev, v.win⟩
        else silent (.ok ⟨dev, v.win⟩) := if_neg (Bool.not_eq_true _ ▸ real)
    rw [paints]
    split
    · apply Keeps.silent
      intro v' returned
      obtain ⟨dev', -, same⟩ := bind_eq_ok.mp returned
      exact ⟨rfl, dev', (Except.ok.inj same).symm⟩
    · exact Keeps.ok ⟨rfl, dev, rfl⟩
  · exact ⟨rfl, v.dev, rfl⟩

/-- The second half of `render`, on a hidden window whose background is free. -/
theorem Linked.paint (h : Linked g v.win.gp) (hid : v.win.visible = false) (content : Drawing Px) :
    Recorded.Keeps g
      (Recorded.port.pushBuf .bg v >>= fun v => Recorded.port.setPseudo c w false v >>= fun v =>
        Recorded.port.drawAll c w content v >>= fun v =>
          Recorded.port.pushBuf .fg v >>= Recorded.port.popBuf .bg)
      fun g' v' => Kept g' v'.win ∧ v'.win.visible = false := by
  apply (h.push .bg).bind
  rintro g₁ _ ⟨back, rfl, rfl⟩
  have saved := h.setBuf .bg (some ⟨v.win.width, v.win.height, back⟩)
  let W : Window Px := { v.win with
    gp := { v.win.gp.setBuf (some back) .bg with pseudo := false } }
  have linked : Linked (Function.update g .bg (some ⟨v.win.width, v.win.height, back⟩)) W.gp :=
    ⟨saved.opened, saved.buf⟩
  have unset : Recorded.port.setPseudo c w false
      ⟨v.dev, { v.win with gp := v.win.gp.setBuf (some back) .bg }⟩ =
        silent (.ok ⟨v.dev, W⟩) := by
    rw [Port.setPseudo, if_neg (fun both => Bool.false_ne_true both.2)]
    rfl
  rw [unset]
  apply (painting_draw (v := ⟨v.dev, W⟩) content rfl).bind
  rintro _ _ ⟨rfl, dev, rfl⟩
  apply Linked.lower (v := ⟨dev, W⟩) linked hid
  rintro f ⟨⟩
  exact ⟨rfl, rfl⟩

theorem Kept.render (h : Kept g v.win) (content : Drawing Px) :
    Recorded.Keeps g (Recorded.port.render c w content v) fun g' v' =>
      Kept g' v'.win ∧ v'.win.visible = v.win.visible := by
  apply h.hide.bind
  rintro g₁ v₁ ⟨kept, hid⟩
  apply (resting_setPseudo hid).bind
  rintro g₂ v₂ ⟨rfl, hid₂, port⟩
  apply (resting_draw content hid₂ (congrArg GraphPort.pseudo port)).bind
  rintro g₃ v₃ ⟨rfl, hid₃, port'⟩
  have linked : Linked g₃ v₃.win.gp := by
    rw [port', port]
    exact ⟨kept.linked.opened, kept.linked.buf⟩
  have painted := linked.paint (c := c) (w := w) hid₃ content
  have whole := painted.bind fun g₄ v₄ h₄ => h₄.1.shown_again h₄.2 v.win.visible
  simp only [Traced.bind_assoc] at whole
  exact whole

end Measuring

end Window

/-! ### All windows -/

section Desk
variable [LinearOrder ι] {g : ι → Fills Px} {s : Desk ι Px}

abbrev Recorded.AllKeep (g : ι → Fills Px)
    (t : Traced (ι × RectCall Px) Fault (Desk ι Px)) (Q : (ι → Fills Px) → Desk ι Px → Prop) :
    Prop :=
  Traced.Keeps (advanceOne RectCall.advance) (fun g l => RectCall.Paired (g l.1) l.2) g t Q

theorem keeps_on {w : ι} {f : View Px → Recorded Px (View Px)} {Q : Fills Px → View Px → Prop}
    (h : Recorded.Keeps (g w) (f (s.view w)) Q) :
    Recorded.AllKeep g (Recorded.on s w f) fun g' s' =>
      ∃ own v, g' = Function.update g w own ∧ s' = s.put w v ∧ Q own v := by
  apply h.named.bind
  rintro g' v ⟨own, moved, hv⟩
  exact Keeps.ok ⟨own, v, moved, rfl, hv⟩

def AllKept (g : ι → Fills Px) (s : Desk ι Px) : Prop := ∀ u, Kept (g u) (s.win u)

theorem AllKept.put (h : AllKept g s) {w : ι} {own : Fills Px} {v : View Px}
    (kept : Kept own v.win) : AllKept (Function.update g w own) (s.put w v) := by
  apply Desk.put_win_cases (P := fun u W => Kept (Function.update g w own u) W)
  · rw [Function.update_self]
    exact kept
  · intro u other
    rw [Function.update_of_ne other]
    exact h u

/-- The attached windows are visible exactly when the manager has the focus, and every buffer
holds what its window needs. -/
structure Booked (g : ι → Fills Px) (s : Desk ι Px) : Prop where
  kept : AllKept g s
  focused : ∀ u ∈ s.attached, (s.win u).visible = s.cwm.focus

theorem Booked.put (h : Booked g s) {w : ι} {own : Fills Px} {v : View Px} (kept : Kept own v.win)
    (same : v.win.visible = (s.win w).visible) :
    Booked (Function.update g w own) (s.put w v) := by
  refine ⟨h.kept.put kept, ?_⟩
  apply Desk.put_win_cases (P := fun u W => u ∈ s.attached → W.visible = s.cwm.focus)
  · intro mem
    exact same.trans (h.focused w mem)
  · intro u _ mem
    exact h.focused u mem

theorem Booked.on (h : Booked g s) {w : ι} {f : View Px → Recorded Px (View Px)}
    (method : Recorded.Keeps (g w) (f (s.view w)) fun g' v' =>
      Kept g' v'.win ∧ v'.win.visible = (s.win w).visible) :
    Recorded.AllKeep g (Recorded.on s w f) Booked := by
  apply (keeps_on method).mono
  rintro g' s' ⟨own, v, rfl, rfl, kept, same⟩
  exact h.put kept same

theorem Booked.setPosition (h : Booked g s) (x y : Int) :
    Recorded.AllKeep g (Recorded.manager.setPosition s x y) Booked := by
  unfold Manager.setPosition
  dsimp only
  split
  · apply Keeps.foldlM fun _ => Booked
    · intro entry _ g₁ s₁ h₁
      exact h₁.on ((h₁.kept entry.1).xy _ _)
    · exact ⟨h.kept, h.focused⟩
  · exact Keeps.ok h

/-- While `set_focus` goes through the map, the windows it has passed have the new focus. -/
structure Turning (newFocus : Bool) (left : List (ι × Shift)) (g : ι → Fills Px)
    (s : Desk ι Px) : Prop where
  kept : AllKept g s
  focus : s.cwm.focus = newFocus
  passed : ∀ u ∈ s.attached, u ∉ left.map Prod.fst → (s.win u).visible = newFocus

theorem Turning.loop {newFocus : Bool} {entries : List (ι × Shift)}
    {f : View Px → Recorded Px (View Px)} (h : Turning newFocus entries g s)
    (method : ∀ (g : Fills Px) v, Kept g v.win → Recorded.Keeps g (f v) fun g' v' =>
      Kept g' v'.win ∧ v'.win.visible = newFocus) :
    Recorded.AllKeep g (entries.foldlM (fun s entry => Recorded.on s entry.1 f) s) Booked := by
  have whole : Recorded.AllKeep g (entries.foldlM (fun s entry => Recorded.on s entry.1 f) s)
      (Turning newFocus []) := by
    apply Keeps.foldlM (Turning newFocus) ?_ h
    intro entry left g₁ s₁ h₁
    apply (keeps_on (method _ (s₁.view entry.1) (h₁.kept entry.1))).mono
    rintro g' s' ⟨own, v, rfl, rfl, kept, turned⟩
    refine ⟨h₁.kept.put kept, h₁.focus, ?_⟩
    apply Desk.put_win_cases (P := fun u W =>
      u ∈ s₁.attached → u ∉ left.map Prod.fst → W.visible = newFocus)
    · intro _ _
      exact turned
    · intro u other mem before
      apply h₁.passed u mem
      rw [List.map_cons, List.mem_cons]
      exact not_or.mpr ⟨other, before⟩
  apply whole.mono
  intro g' s' turned
  refine ⟨turned.kept, fun u mem => ?_⟩
  rw [turned.focus]
  exact turned.passed u mem List.not_mem_nil

theorem Booked.setFocus (h : Booked g s) (newFocus : Bool) :
    Recorded.AllKeep g (Recorded.manager.setFocus s newFocus) Booked := by
  have turning : Turning newFocus s.cwm.cwmmap g (s.withFocus newFocus) :=
    ⟨h.kept, rfl, fun u mem missing => absurd mem missing⟩
  unfold Manager.setFocus
  dsimp only
  split
  · cases newFocus with
    | true => exact turning.loop fun _ _ kept => kept.show
    | false => exact turning.loop fun _ _ kept => kept.hide
  · exact Keeps.ok h

theorem Booked.exec (h : Booked g s) {op : Op ι Px} (listed : Listed op) :
    Recorded.AllKeep g (Recorded.manager.exec s op) Booked := by
  cases op with
  | attachWindow | showWindow | hideWindow | xy => exact absurd listed id
  | render w content => exact h.on ((h.kept w).render content)
  | cursorPosition x y => exact h.setPosition x y
  | setFocus newFocus => exact h.setFocus newFocus
  | refreshBegin =>
    have noted : Booked g { s with prevFocus := s.cwm.focus } := ⟨h.kept, h.focused⟩
    exact noted.setFocus false
  | refreshEnd => exact h.setFocus s.prevFocus
  | paint picture =>
    exact Keeps.ok ⟨h.kept, h.focused⟩

/-- What one call keeps, a session keeps. -/
theorem Booked.run (h : Booked g s) {ops : List (Op ι Px)} (listed : ∀ op ∈ ops, Listed op) :
    Recorded.AllKeep g (Recorded.run s ops) Booked := by
  have whole := Keeps.foldlM (F := Fault)
    (fun (left : List (Op ι Px)) g s => (∀ op ∈ left, Listed op) ∧ Booked g s)
    (fun op left g₁ s₁ h₁ => (h₁.2.exec (h₁.1 op List.mem_cons_self)).mono fun g' s' booked =>
      ⟨fun op' mem => h₁.1 op' (List.mem_cons_of_mem op mem), booked⟩)
    ⟨listed, h⟩
  exact whole.mono fun g' s' h' => h'.2

/-- Before the first focus every window is hidden and has nothing saved. -/
structure Fresh (s : Desk ι Px) : Prop where
  unfocused : s.cwm.focus = false
  hid : ∀ u, (s.win u).visible = false
  port : ∀ u, (s.win u).gp = (Window.new true : Window Px).gp

theorem Fresh.attachWindow (h : Fresh s) (w : ι) (sh : Shift) : Fresh (s.attachWindow w sh) := by
  have same : ∀ u, ((s.attachWindow w sh).win u).visible = (s.win u).visible ∧
      ((s.attachWindow w sh).win u).gp = (s.win u).gp := by
    intro u
    rw [Desk.attachWindow_def]
    by_cases own : u = w
    · subst own
      dsimp only
      rw [Function.update_self]
      exact ⟨rfl, rfl⟩
    · dsimp only
      rw [Function.update_of_ne own]
      exact ⟨rfl, rfl⟩
  exact ⟨h.unfocused, fun u => (same u).1.trans (h.hid u), fun u => (same u).2.trans (h.port u)⟩

omit [LinearOrder ι] in
theorem Fresh.booked (h : Fresh s) : Booked (fun _ _ => none) s := by
  refine ⟨fun u => ⟨?_, fun shown => ?_, fun _ => ⟨rfl, nofun⟩⟩, fun u _ => ?_⟩
  · rw [h.port u]
    refine ⟨rfl, fun b => ?_⟩
    cases b with
    | bg => rfl
    | fg => rfl
  · exact absurd ((h.hid u).symm.trans shown) Bool.false_ne_true
  · exact (h.hid u).trans h.unfocused.symm

end Desk

/-! ### The library -/

section Library
variable [LinearOrder Panel]

def Recorded.ucimfInit (dev : GraphDev Px) (fontHeight : Nat) :
    Traced (Panel × RectCall Px) Fault (Desk Panel Px) :=
  Recorded.manager.setFocus ((((Desk.start dev).attachWindow .lookupChoice
    (Panel.lookupChoice.shift fontHeight)).attachWindow
    .preedit (Panel.preedit.shift fontHeight)).attachWindow
    .status (Panel.status.shift fontHeight)) false

/-- Everything from `ucimf_init` on. -/
def Recorded.session (dev : GraphDev Px) (fontHeight : Nat) (ops : List (Op Panel Px)) :
    Traced (Panel × RectCall Px) Fault (Desk Panel Px) := do
  let s ← Recorded.ucimfInit dev fontHeight
  Recorded.run s ops

theorem result_session (dev : GraphDev Px) (fontHeight : Nat) (ops : List (Op Panel Px)) :
    (Recorded.session dev fontHeight ops).result =
      (ucimfInit dev fontHeight >>= fun s => ops.foldlM Desk.exec s) := by
  simp only [Recorded.session, Recorded.ucimfInit, ucimfInit, result_bind,
    Recorded.result_setFocus, Recorded.result_run]

theorem booked_session (dev : GraphDev Px) (fontHeight : Nat) {ops : List (Op Panel Px)}
    (listed : ∀ op ∈ ops, Listed op) :
    Recorded.AllKeep (fun _ _ => none) (Recorded.session dev fontHeight ops) Booked := by
  have start : Fresh (Desk.start dev : Desk Panel Px) := ⟨rfl, fun _ => rfl, fun _ => rfl⟩
  have attached := ((start.attachWindow .lookupChoice
    (Panel.lookupChoice.shift fontHeight)).attachWindow
    .preedit (Panel.preedit.shift fontHeight)).attachWindow
    .status (Panel.status.shift fontHeight)
  apply (attached.booked.setFocus false).bind
  intro g s booked
  exact booked.run listed

/-- In every state that a client reaches from `ucimf_init`, the attached windows are visible
exactly when the manager has the focus, and hold a background exactly when they are visible; on
the way there every `RstrRect` is handed a buffer that `SaveRect` filled for a rectangle of the
same size. -/
theorem bookkeeping (dev : GraphDev Px) (fontHeight : Nat) {ops : List (Op Panel Px)}
    (listed : ∀ op ∈ ops, Listed op) :
    (Recorded.session dev fontHeight ops).result =
        (ucimfInit dev fontHeight >>= fun s => ops.foldlM Desk.exec s) ∧
      Along (advanceOne RectCall.advance) (fun g l => RectCall.Paired (g l.1) l.2)
        (fun _ _ => none) (Recorded.session dev fontHeight ops).log ∧
      ∀ s, (Recorded.session dev fontHeight ops).result = .ok s → ∀ u ∈ s.attached,
        (s.win u).visible = s.cwm.focus ∧
          ((s.win u).gp.bufBg ≠ none ↔ (s.win u).visible = true) := by
  obtain ⟨paired, ends⟩ := booked_session dev fontHeight listed
  refine ⟨result_session dev fontHeight ops, paired, fun s returned u mem => ?_⟩
  have booked := ends s returned
  exact ⟨booked.focused u mem, (booked.kept u).bg_iff⟩

end Library

/-- A line of status and a line of preedit, shown, and then rewritten under a bracket. -/
def bracketed : List (Op Panel Nat) :=
  twoLines ++ [.setFocus true, .refreshBegin,
    .render .preedit ((Content.preedit [65, 66]).draw blankFont ⟨0, 7, 3⟩), .refreshEnd]

theorem bookkeeping_bracketed : ∃ s : Desk Panel Nat,
    (Recorded.session ⟨60, 60, fun _ => 0⟩ blankFont.height bracketed).result = .ok s ∧
      ∀ u ∈ s.attached, (s.win u).visible = s.cwm.focus ∧
        ((s.win u).gp.bufBg ≠ none ↔ (s.win u).visible = true) := by
  have returned : ((Recorded.session ⟨60, 60, fun _ => 0⟩ blankFont.height
      bracketed).result.toOption.isSome) = true := by decide +kernel
  obtain ⟨s, found⟩ := Option.isSome_iff_exists.mp returned
  have result := ok_of_toOption found
  have listed : ∀ op ∈ bracketed, Listed op := by
    simp [bracketed, twoLines, Listed]
  exact ⟨s, result, (bookkeeping ⟨60, 60, fun _ => 0⟩ blankFont.height listed).2.2 s result⟩

end Ucimf.Display
