import Ucimf.Keyboard.Keysym
import Mathlib.Logic.Function.Basic

/-!
# The state of the keyboard

`keycode_to_keysym` looks a key up in the table of the modifiers held and keeps three
records of them: the down flag of each key, a counter for each modifier and the mask
`shift_state`, which numbers the table of the next lookup.
-/

namespace Ucimf.Keyboard

open KeyType

structure Event where
  keycode : Nat
  down : Bool
  deriving DecidableEq, Repr

structure KeyState where
  keyDown : Nat → Bool
  shiftDown : Nat → UInt8
  shiftState : BitVec 16
  lockState : BitVec 8
  /-- The keyboard's LED flags, as `KDGKBLED` and `KDSKBLED` see them. -/
  led : BitVec 8
  crWithLf : Bool
  applicKeypad : Bool
  cursorEsco : Bool
  npadch : BitVec 32

namespace KeyState

def initKeycodeState (s : KeyState) : KeyState :=
  { s with npadch := -1, shiftState := 0, keyDown := fun _ => false, shiftDown := fun _ => 0,
           lockState := s.led }

def capsLock (s : KeyState) : Prop := s.lockState &&& kCapslock ≠ 0

def numLock (s : KeyState) : Prop := s.lockState &&& kNumlock ≠ 0

instance (s : KeyState) : Decidable s.capsLock :=
  inferInstanceAs (Decidable (s.lockState &&& kCapslock ≠ 0))

instance (s : KeyState) : Decidable s.numLock :=
  inferInstanceAs (Decidable (s.lockState &&& kNumlock ≠ 0))

/-- `lock_state = state; ioctl( KDSKBLED, lock_state )`. -/
def setLock (s : KeyState) (state : BitVec 8) : KeyState :=
  { s with lockState := state, led := state }

/-- The `KT_SPEC` case: the lock keys act on a fresh press. -/
def lockKey (s : KeyState) (sym : Keysym) (down rep : Bool) : KeyState :=
  let locks := sym = kNum ∧ s.applicKeypad = false ∨ sym = kBarenumlock ∨ sym = kCaps ∨
    sym = kCapson
  if locks ∧ down = true ∧ rep = false then
    if sym.val = kNum.val ∨ sym.val = kBarenumlock.val then s.setLock (s.lockState ^^^ kNumlock)
    else if sym.val = kCaps.val then s.setLock (s.lockState ^^^ kCapslock)
    else s.setLock (s.lockState ||| kCapslock)
  else s

def counted (count : UInt8) (down : Bool) : UInt8 :=
  if down then count + 1 else if count ≠ 0 then count - 1 else count

theorem counted_press_le (count : UInt8) : (counted count true).toNat ≤ count.toNat + 1 := by
  rw [counted, if_pos rfl, UInt8.toNat_add]
  exact Nat.mod_le _ _

theorem counted_press {count : UInt8} (room : count.toNat < 255) :
    (counted count true).toNat = count.toNat + 1 := by
  rw [counted, if_pos rfl, UInt8.toNat_add]
  exact Nat.mod_eq_of_lt (Nat.succ_lt_succ room)

theorem counted_release (count : UInt8) : (counted count false).toNat = count.toNat - 1 := by
  rw [counted, if_neg Bool.false_ne_true]
  split
  · next used =>
    have positive : 0 < count.toNat := UInt8.pos_iff_ne_zero.mpr used
    rw [UInt8.toNat_sub_of_le _ _ positive]
    rfl
  · next zero =>
    rw [not_not.mp zero]
    rfl

/-- `shift_down[value]` is stored and its bit of `shift_state` follows it. -/
def setShift (s : KeyState) (value : Nat) (count : UInt8) : KeyState :=
  { s with
    shiftDown := Function.update s.shiftDown value count
    shiftState :=
      if count ≠ 0 then s.shiftState ||| (1#16 <<< value)
      else s.shiftState &&& ~~~(1#16 <<< value) }

@[simp] theorem shiftDown_setShift (s : KeyState) (value : Nat) (count : UInt8) :
    (s.setShift value count).shiftDown = Function.update s.shiftDown value count := rfl

/-- The `KT_SHIFT` case. `K_CAPSSHIFT` counts as `K_SHIFT` and takes the caps lock off. -/
def shiftKey (s : KeyState) (value : Nat) (down rep : Bool) : KeyState :=
  if nrShift ≤ value ∨ rep = true then s
  else if value = kgCapsshift then
    let s := if down = true ∧ s.capsLock then s.setLock (s.lockState &&& ~~~kCapslock) else s
    s.setShift kgShift (counted (s.shiftDown kgShift) down)
  else s.setShift value (counted (s.shiftDown value) down)

/-- The entry for a key under the modifiers held; a letter is looked up again with the
shift reversed while caps lock is on. -/
def lookup (k : Kernel) (s : KeyState) (keycode : Nat) : Keysym :=
  let table := s.shiftState.setWidth 8
  let sym := k.kdgkbent table keycode
  if sym.type = ktLetter ∧ s.capsLock then
    k.kdgkbent ((s.shiftState ^^^ (1#16 <<< kgShift)).setWidth 8) keycode
  else sym

def keycodeToKeysym (k : Kernel) (s : KeyState) (keycode : Nat) (down : Bool) :
    Keysym × KeyState :=
  if nrKeys ≤ keycode then (kHole, s)
  else
    let rep := down && s.keyDown keycode
    let s := { s with keyDown := Function.update s.keyDown keycode down }
    let sym := lookup k s keycode
    if sym = kHole ∨ sym = kNosuchmap then (kHole, s)
    else match sym.type with
      | .ktSpec => (sym, s.lockKey sym down rep)
      | .ktShift => (sym, s.shiftKey sym.val.toNat down rep)
      | _ => (sym, s)

/-- The keysym a key gives: a missing entry counts as a hole. -/
def entry (k : Kernel) (s : KeyState) (keycode : Nat) : Keysym :=
  if nrKeys ≤ keycode ∨ lookup k s keycode = kNosuchmap then kHole else lookup k s keycode

theorem keycodeToKeysym_entry (k : Kernel) (s : KeyState) (keycode : Nat) (down : Bool) :
    (keycodeToKeysym k s keycode down).1 = entry k s keycode := by
  have looked : lookup k { s with keyDown := Function.update s.keyDown keycode down } keycode =
      lookup k s keycode := rfl
  unfold keycodeToKeysym entry
  by_cases large : nrKeys ≤ keycode
  · rw [if_pos large, if_pos (.inl large)]
  · simp only [large, if_false, false_or, looked]
    by_cases absent : lookup k s keycode = kNosuchmap
    · rw [if_pos absent, if_pos (.inr absent)]
    · rw [if_neg absent]
      split
      · next hole => exact (hole.resolve_right absent).symm
      · split <;> rfl

/-- A lock key moves the lock state or nothing. -/
theorem lockKey_cases (s : KeyState) (sym : Keysym) (down rep : Bool) :
    s.lockKey sym down rep = s ∨ ∃ locks, s.lockKey sym down rep = s.setLock locks := by
  unfold lockKey
  dsimp only
  split
  · split
    · exact .inr ⟨_, rfl⟩
    · split
      · exact .inr ⟨_, rfl⟩
      · exact .inr ⟨_, rfl⟩
  · exact .inl rfl

theorem npadch_lockKey (s : KeyState) (sym : Keysym) (down rep : Bool) :
    (s.lockKey sym down rep).npadch = s.npadch := by
  rcases s.lockKey_cases sym down rep with same | ⟨locks, moved⟩
  · rw [same]
  · rw [moved]
    rfl

theorem npadch_shiftKey (s : KeyState) (value : Nat) (down rep : Bool) :
    (s.shiftKey value down rep).npadch = s.npadch := by
  unfold shiftKey
  repeat' split
  all_goals rfl

@[simp] theorem npadch_keycodeToKeysym (k : Kernel) (s : KeyState) (keycode : Nat)
    (down : Bool) : (keycodeToKeysym k s keycode down).2.npadch = s.npadch := by
  unfold keycodeToKeysym
  dsimp only
  repeat' split
  all_goals first
    | rfl
    | exact npadch_lockKey _ _ _ _
    | exact npadch_shiftKey _ _ _ _

/-- An event of a key that is neither a modifier nor special moves its down flag only. -/
theorem keycodeToKeysym_plain {k : Kernel} {s : KeyState} {keycode : Nat}
    (spec : (entry k s keycode).type ≠ ktSpec) (shift : (entry k s keycode).type ≠ ktShift)
    (down : Bool) : (keycodeToKeysym k s keycode down).2 =
      { s with keyDown := Function.update s.keyDown keycode down } := by
  have looked : lookup k { s with keyDown := Function.update s.keyDown keycode down } keycode =
      lookup k s keycode := rfl
  unfold entry at spec shift
  split at spec
  · exact absurd rfl spec
  · next found =>
    obtain ⟨small, present⟩ := not_or.mp found
    rw [if_neg found] at shift
    unfold keycodeToKeysym
    rw [if_neg small]
    dsimp only
    split
    · rfl
    · split
      · next special => exact absurd special spec
      · next modifier => exact absurd modifier shift
      · rfl

theorem keycodeToKeysym_large {k : Kernel} {s : KeyState} {keycode : Nat}
    (large : nrKeys ≤ keycode) (down : Bool) : keycodeToKeysym k s keycode down = (kHole, s) :=
  if_pos large

end KeyState

end Ucimf.Keyboard
