import Ucimf.Display.Bookkeeping

/-!
# No restore reads behind its buffer

A save buffer carries no size. `SaveRect` fills it with the pixels of its rectangle, the library
restores it on a rectangle of the same size, and so no session of a client reads behind it.
-/

namespace Ucimf.Display

open Outcome Traced GraphPort Transition

variable {ι Px A : Type}

/-- `SaveRect` fills the buffer with the pixels of its rectangle. -/
def RectCall.Filled : RectCall Px → Prop
  | .saveRect _ x1 y1 x2 y2 filled =>
    filled.length = (x2 - x1 + 1).toNat * (y2 - y1 + 1).toNat
  | .rstrRect _ _ _ _ _ _ => True

/-- `RstrRect` is handed fewer pixels than its rectangle has. -/
def RectCall.Short : RectCall Px → Prop
  | .saveRect _ _ _ _ _ _ => False
  | .rstrRect _ x1 y1 x2 y2 buffer => ∃ held, buffer = some held ∧
    held.length < (x2 - x1 + 1).toNat * (y2 - y1 + 1).toNat

/-- Only a short restore reads behind a buffer. -/
abbrev Recorded.Blames (t : Recorded Px A) : Prop :=
  Traced.Blames RectCall.Filled RectCall.Short .overrun t

namespace Recorded

variable {v : View Px}

theorem blames_saveRect (b : Buffer) (x1 y1 x2 y2 : Int) :
    Blames (port.saveRect b x1 y1 x2 y2 v) := by
  dsimp only [port, View.port]
  cases returned : v.dev.saveRect x1 y1 x2 y2 with
  | ok saved =>
    apply Traced.Blames.call
    · rw [GraphDev.saveRect] at returned
      split at returned
      · obtain rfl := Except.ok.inj returned
        exact length_tile _ _ _
      · cases returned
    · nofun
  | error e =>
    apply Traced.Blames.silent
    rintro ⟨⟩
    rw [GraphDev.saveRect] at returned
    split at returned <;> cases returned

theorem blames_rstrRect (b : Buffer) (x1 y1 x2 y2 : Int) :
    Blames (port.rstrRect b x1 y1 x2 y2 v) := by
  apply Traced.Blames.call trivial
  intro stopped
  dsimp only [View.port] at stopped
  cases held : v.win.gp.buf b with
  | none =>
    rw [held, GraphDev.rstrRect] at stopped
    split at stopped <;> cases stopped
  | some saved =>
    refine ⟨saved, rfl, ?_⟩
    rw [held, GraphDev.rstrRect] at stopped
    split at stopped
    · split at stopped
      · cases stopped
      · next short => exact not_le.mp short
    · cases stopped

theorem blames_draw (sp : Shape Px) (x y : Int) : Blames (port.draw sp x y v) := by
  apply Traced.Blames.silent
  intro stopped
  dsimp only [View.port] at stopped
  have drawn := Shape.draw_ends sp x y v.dev
  cases result : sp.draw x y v.dev with
  | ok dev =>
    rw [result] at stopped
    cases stopped
  | error e =>
    rw [result] at stopped drawn
    obtain rfl : e = .range := drawn
    cases stopped

theorem port_blames : (port : Port (Recorded Px) (View Px) (Shape Px)).Relates port id Eq
    fun t _ => Blames t where
  toLifting := Traced.Blames.lifting
  pane same := congrArg _ same
  setVisible same _ := congrArg (port.setVisible · _) same
  setPos same _ _ := congrArg (port.setPos · _ _) same
  setSize same _ _ := congrArg (port.setSize · _ _) same
  markPseudo same _ := congrArg (port.markPseudo · _) same
  null same b := congrArg (port.null b) same
  forget _ _ := .ok _
  saveRect _ := blames_saveRect
  rstrRect _ := blames_rstrRect
  xMax _ := rfl
  yMax _ := rfl
  draw _ := blames_draw
  nullShift := .silent nofun

section Desk
variable [LinearOrder ι]

/-- The same of the calls of all windows. -/
abbrev AllBlame (t : Traced (ι × RectCall Px) Fault A) : Prop :=
  Traced.Blames (fun l => l.2.Filled) (fun l => l.2.Short) .overrun t

theorem manager_blames : (manager : Manager (Recorded Px) _ (Desk ι Px) _ ι _ _).Relates manager
    id id Eq fun t _ => AllBlame t where
  toLifting := Traced.Blames.lifting
  on := by
    rintro s _ rfl w f f' uniform
    exact (uniform port_blames _ _ rfl).named.bind fun _ => .ok _
  cwm same := congrArg _ same
  setCwm same _ := congrArg (manager.setCwm · _) same
  prevFocus same := congrArg _ same
  setPrevFocus same _ := congrArg (manager.setPrevFocus · _) same
  setWm same _ := congrArg (manager.setWm · _) same
  painted same _ := congrArg (manager.painted · _) same

theorem blames_run (s : Desk ι Px) (ops : List (Op ι Px)) : AllBlame (run s ops) :=
  manager_blames.foldlM (g := manager.exec) (fun _ _ op same => manager_blames.exec same op)
    (rfl : s = s) ops

end Desk

end Recorded

/-! ### Sessions -/

/-- What a buffer was filled with is as large as the rectangle. -/
def Fill.Whole (f : Fill Px) : Prop :=
  f.content.length = (f.width + 1).toNat * (f.height + 1).toNat

theorem whole_advance {g : Fills Px} (whole : ∀ b f, g b = some f → f.Whole) {call : RectCall Px}
    (filled : call.Filled) {b : Buffer} {f : Fill Px} (held : call.advance g b = some f) :
    f.Whole := by
  cases call with
  | saveRect c x1 y1 x2 y2 content =>
    by_cases same : b = c
    · subst same
      rw [RectCall.advance, Function.update_self] at held
      obtain rfl := Option.some.inj held
      exact filled
    · rw [RectCall.advance, Function.update_of_ne same] at held
      exact whole b f held
  | rstrRect c x1 y1 x2 y2 buffer =>
    by_cases same : b = c
    · subst same
      rw [RectCall.advance, Function.update_self] at held
      cases held
    · rw [RectCall.advance, Function.update_of_ne same] at held
      exact whole b f held

/-- A restore of a buffer of its own size is not short. -/
theorem not_short_of_paired [DecidableEq ι] {g : ι → Fills Px}
    (whole : ∀ u b f, g u b = some f → f.Whole) {log : List (ι × RectCall Px)}
    (paired : Along (advanceOne RectCall.advance) (fun g l => RectCall.Paired (g l.1) l.2) g log)
    (filled : ∀ l ∈ log, l.2.Filled) : ∀ l ∈ log, ¬ l.2.Short := by
  induction log generalizing g with
  | nil => exact fun l member => absurd member List.not_mem_nil
  | cons first log ih =>
    obtain ⟨u, call⟩ := first
    have next : ∀ u' b f, advanceOne RectCall.advance g (u, call) u' b = some f → f.Whole := by
      intro u' b f held
      by_cases same : u' = u
      · subst same
        rw [advanceOne, Function.update_self] at held
        exact whole_advance (whole u') (filled _ List.mem_cons_self) held
      · rw [advanceOne, Function.update_of_ne same] at held
        exact whole u' b f held
    rintro l member short
    rcases List.mem_cons.mp member with rfl | later
    · cases call with
      | saveRect b x1 y1 x2 y2 content => exact short
      | rstrRect b x1 y1 x2 y2 buffer =>
        obtain ⟨f, held, rfl, width, height⟩ := paired.1
        obtain ⟨content, same, less⟩ := short
        obtain rfl := Option.some.inj same
        have size := whole u b f held
        rw [Fill.Whole, width, height] at size
        exact less.ne size
    · exact ih next paired.2 (fun l there => filled l (List.mem_cons_of_mem _ there)) l later short

section Library
variable [LinearOrder Panel]

/-- No session of a client restores more pixels than it has saved. -/
theorem session_no_overrun (dev : GraphDev Px) (fontHeight : Nat) {ops : List (Op Panel Px)}
    (listed : ∀ op ∈ ops, Listed op) :
    (ucimfInit dev fontHeight >>= fun s => ops.foldlM Desk.exec s) ≠ .error .overrun := by
  have paired := (booked_session dev fontHeight listed).1
  have blames : Recorded.AllBlame (Recorded.session dev fontHeight ops) :=
    Traced.Blames.bind (Recorded.manager_blames.setFocus rfl false)
      fun s => Recorded.blames_run s ops
  intro stopped
  rw [← result_session] at stopped
  obtain ⟨l, member, short⟩ := blames.2 stopped
  exact not_short_of_paired nofun paired blames.1 l member short

end Library

end Ucimf.Display
