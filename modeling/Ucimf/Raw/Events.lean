import Ucimf.Raw.Session
import Ucimf.Support.Outcome

/-!
# Calls on encoded key events

The medium-raw encoding of a key event, the calls made on one encoding and on many, and
what a call does to the keyboard whatever else it does.
-/

namespace Ucimf.Raw

open Keyboard

/-- The kernel's medium-raw encoding of an event. -/
def encode (e : Event) : List UInt8 :=
  let up : UInt8 := if e.down then 0 else 0x80
  if e.keycode < 128 then [up ||| e.keycode.toUInt8]
  else [up, 0x80 ||| (e.keycode / 128).toUInt8, 0x80 ||| (e.keycode % 128).toUInt8]

/-- The keycodes that have an encoding. -/
def Encodes (e : Event) : Prop := 1 ≤ e.keycode ∧ e.keycode ≤ 16383

theorem single_low : ∀ x < 128, ∀ down : Bool,
    single ((if down then 0 else 0x80) ||| x.toUInt8) = (x, down) := by
  decide

theorem high_byte : ∀ x < 128, (0x80 ||| x.toUInt8) &&& 0x80 ≠ 0 ∧
    ((0x80 ||| x.toUInt8) &&& 0x7f).toNat = x := by
  decide

theorem decode_single {b : UInt8} (used : b &&& 0x7f ≠ 0) (rest : List UInt8)
    (last : Option (Nat × Bool)) : decode (b :: rest) last = decode rest (some (single b)) := by
  match rest with
  | [] => rfl
  | [_] => rfl
  | _ :: _ :: _ => rw [decode, if_neg fun all => used all.1]

theorem decode_encode {e : Event} (encodes : Encodes e) (rest : List UInt8)
    (last : Option (Nat × Bool)) :
    decode (encode e ++ rest) last = decode rest (some (e.keycode, e.down)) := by
  obtain ⟨positive, bound⟩ := encodes
  unfold encode
  dsimp only
  split
  · next low =>
    have read := single_low e.keycode low e.down
    rw [List.singleton_append, decode_single, read]
    intro zero
    have code : (single _).1 = e.keycode := congrArg Prod.fst read
    rw [single, zero] at code
    exact absurd code.symm (Nat.ne_of_gt positive)
  · next wide =>
    obtain ⟨highSet, high⟩ := high_byte (e.keycode / 128) (by omega)
    obtain ⟨lowSet, low⟩ := high_byte (e.keycode % 128) (by omega)
    have code : (e.keycode / 128) <<< 7 ||| e.keycode % 128 = e.keycode := by
      rw [← Nat.shiftLeft_add_eq_or_of_lt (by omega), Nat.shiftLeft_eq]
      omega
    simp only [List.cons_append, List.nil_append, decode, high, low, code]
    cases e.down
    · rw [if_pos ⟨rfl, highSet, lowSet⟩]
      rfl
    · rw [if_pos ⟨rfl, highSet, lowSet⟩]
      rfl

theorem decode_one {e : Event} (bound : e.keycode ≤ 16383) :
    decode (encode e) none = some (e.keycode, e.down) := by
  rcases Nat.eq_zero_or_pos e.keycode with zero | positive
  · have low : e.keycode < 128 := by omega
    have read := single_low e.keycode low e.down
    simp only [encode, low, if_true, decode, read]
  · simpa [decode] using decode_encode ⟨positive, bound⟩ [] none

theorem decode_encodings {es : List Event} {e : Event} (encodes : ∀ e' ∈ es ++ [e], Encodes e')
    (last : Option (Nat × Bool)) :
    decode ((es ++ [e]).flatMap encode) last = some (e.keycode, e.down) := by
  induction es generalizing last with
  | nil =>
    have one := decode_encode (encodes e (by simp)) [] last
    simpa [decode] using one
  | cons e' es ih =>
    rw [List.cons_append, List.flatMap_cons, decode_encode (encodes e' (by simp))]
    exact ih (fun e'' member => encodes e'' (by simp_all)) _

def Reply.output : Reply → List UInt8
  | .cleared => []
  | .text output => output

section Calls

variable (k : Kernel) (answer : Answer) (spare : List UInt8)

/-- One call on a buffer with spare memory behind its bytes. -/
def call (s : Session) (bytes : List UInt8) : Except Fault (Session × List UInt8) := do
  let (s, mem, n) ← ucimfProcessRaw k answer s (bytes ++ spare) bytes.length
  .ok (s, mem.take n)

/-- One call on the encodings of all events. -/
def batch (s : Session) (es : List Event) : Except Fault (Session × List UInt8) :=
  call k answer spare s (es.flatMap encode)

/-- A call on one event after others have returned some text. -/
def next (r : Session × List UInt8) (e : Event) : Except Fault (Session × List UInt8) := do
  let t ← call k answer spare r.1 (encode e)
  .ok (t.1, r.2 ++ t.2)

/-- One call for each event, in order. -/
def sequential (s : Session) (es : List Event) : Except Fault (Session × List UInt8) :=
  es.foldlM (next k answer spare) (s, [])

end Calls

/-- Every answer fits the spare memory. -/
def Roomy (answer : Answer) (spare : List UInt8) : Prop :=
  ∀ calls, (answer calls).length ≤ spare.length

variable {k : Kernel} {answer : Answer} {spare : List UInt8} {s t : Session}

/-- A reply is empty or an answer of the input method. -/
def Answered (answer : Answer) (reply : Reply) : Prop :=
  reply.output = [] ∨ ∃ calls, reply.output = answer calls

@[simp] theorem kb_deliver (input : List UInt8) : (s.deliver answer input).1.kb = s.kb := by
  unfold Session.deliver
  repeat' split
  all_goals rfl

theorem answered_deliver (input : List UInt8) : Answered answer (s.deliver answer input).2 := by
  unfold Session.deliver
  split
  · split
    · exact .inl rfl
    · exact .inr ⟨_, rfl⟩
  · exact .inl rfl

@[simp] theorem kb_dispatch (str : List UInt8) (kc : Nat) (down : Bool) :
    (dispatch answer s str kc down).1.kb = s.kb := by
  unfold dispatch
  dsimp only
  repeat' split
  all_goals simp

theorem answered_dispatch (str : List UInt8) (kc : Nat) (down : Bool) :
    Answered answer (dispatch answer s str kc down).2 := by
  unfold dispatch
  dsimp only
  repeat' split
  all_goals first
    | exact answered_deliver str
    | exact .inl rfl

theorem writeBack_of_fits {mem : List UInt8} {reply : Reply} (n : Nat)
    (fits : reply.output.length ≤ mem.length) :
    ∃ mem' n', writeBack mem n reply = .ok (mem', n') ∧ mem'.take n' = reply.output := by
  cases reply with
  | cleared => exact ⟨_, _, rfl, List.take_zero⟩
  | text output => exact ⟨_, _, if_neg (not_lt.mpr fits), List.take_left⟩

theorem Roomy.fits (roomy : Roomy answer spare) {reply : Reply} (answered : Answered answer reply)
    (bytes : List UInt8) : reply.output.length ≤ (bytes ++ spare).length := by
  rcases answered with empty | ⟨calls, given⟩
  · rw [empty]
    exact Nat.zero_le _
  · rw [given, List.length_append]
    exact (roomy calls).trans (Nat.le_add_left _ _)

theorem call_inv {bytes : List UInt8} {kc : Nat} {down : Bool} {r : Session × List UInt8}
    (decoded : decode bytes none = some (kc, down))
    (returned : call k answer spare s bytes = .ok r) :
    ∃ reply, processKey k answer s kc down = .ok (r.1, reply) := by
  unfold call ucimfProcessRaw at returned
  rw [if_neg (by simp), List.take_left, rawReply, decoded] at returned
  obtain ⟨⟨_, _, _⟩, raw, taken⟩ := Outcome.bind_eq_ok.mp returned
  obtain ⟨⟨t, reply⟩, handled, wrote⟩ := Outcome.bind_eq_ok.mp raw
  obtain ⟨⟨_, _⟩, _, done⟩ := Outcome.bind_eq_ok.mp wrote
  cases taken
  cases done
  exact ⟨reply, handled⟩

theorem call_of_fits {bytes : List UInt8} {kc : Nat} {down : Bool} {reply : Reply}
    (decoded : decode bytes none = some (kc, down))
    (handled : processKey k answer s kc down = .ok (t, reply))
    (fits : reply.output.length ≤ (bytes ++ spare).length) :
    call k answer spare s bytes = .ok (t, reply.output) := by
  obtain ⟨mem, n, written, taken⟩ := writeBack_of_fits bytes.length fits
  unfold call ucimfProcessRaw
  rw [if_neg (by simp), List.take_left, rawReply, decoded]
  simp only [handled, written, taken, Outcome.ok_bind]

theorem call_eq (roomy : Roomy answer spare) {bytes : List UInt8} {kc : Nat} {down : Bool}
    (decoded : decode bytes none = some (kc, down)) :
    call k answer spare s bytes =
      (processKey k answer s kc down).map fun r => (r.1, r.2.output) := by
  cases handled : processKey k answer s kc down with
  | error fault =>
    unfold call ucimfProcessRaw
    rw [if_neg (by simp), List.take_left, rawReply, decoded]
    simp only [handled, Outcome.error_bind]
    rfl
  | ok r =>
    refine call_of_fits decoded handled (roomy.fits ?_ bytes)
    unfold processKey at handled
    dsimp only at handled
    split at handled
    · cases handled
    · obtain rfl := Except.ok.inj handled
      exact answered_dispatch _ kc down

theorem call_encode (roomy : Roomy answer spare) {e : Event} (encodes : Encodes e) :
    call k answer spare s (encode e) =
      (processKey k answer s e.keycode e.down).map fun r => (r.1, r.2.output) :=
  call_eq roomy (decode_one encodes.2)

/-- One call on many events is a call on the last. -/
theorem batch_snoc (roomy : Roomy answer spare) {es : List Event} {e : Event}
    (encodes : ∀ e' ∈ es ++ [e], Encodes e') :
    batch k answer spare s (es ++ [e]) = call k answer spare s (encode e) := by
  rw [call_encode roomy (encodes e (by simp)), batch, call_eq roomy (decode_encodings encodes none)]

/-- What an event does to the keyboard in a call. -/
def typed (k : Kernel) (kb : KeyState) (e : Event) : KeyState :=
  (translate k kb e.keycode e.down).2

/-- The strings of the function keys fit `char str[128]`. -/
def Short (k : Kernel) : Prop := ∀ v, (cString (k.funcString v)).length < 128

theorem translate_short (short : Short k) (kb : KeyState) (kc : Nat) (down : Bool) :
    ¬ 128 ≤ (translate k kb kc down).1.length :=
  not_le.mpr (KeyState.length_keysymToTermString.mpr fun _ _ => short _)

theorem next_kb (roomy : Roomy answer spare) (short : Short k) (r : Session × List UInt8)
    {e : Event} (encodes : Encodes e) :
    ∃ r', next k answer spare r e = .ok r' ∧ r'.1.kb = typed k r.1.kb e := by
  rw [next, call_encode roomy encodes, processKey]
  simp only [translate_short short, if_false]
  exact ⟨_, rfl, kb_dispatch _ _ _⟩

/-- Over a run of calls the keyboard takes one event after the other. -/
theorem sequential_kb (roomy : Roomy answer spare) (short : Short k) {es : List Event}
    (encodes : ∀ e ∈ es, Encodes e) :
    ∃ r, sequential k answer spare s es = .ok r ∧ r.1.kb = es.foldl (typed k) s.kb := by
  unfold sequential
  generalize hr : (s, ([] : List UInt8)) = r
  rw [show s.kb = r.1.kb by rw [← hr]]
  clear hr
  induction es generalizing r with
  | nil => exact ⟨r, rfl, rfl⟩
  | cons e es ih =>
    obtain ⟨r', called, kb⟩ := next_kb roomy short r (encodes e List.mem_cons_self)
    obtain ⟨last, ended, final⟩ := ih (fun e' member => encodes e' (.tail _ member)) r'
    rw [List.foldlM_cons, called, List.foldl_cons, ← kb]
    exact ⟨last, ended, final⟩

theorem translate_large {kb : KeyState} {kc : Nat} (large : nrKeys ≤ kc) (down : Bool) :
    translate k kb kc down = ([], kb) := by
  rw [translate, KeyState.keycodeToKeysym_large large, KeyState.keysymToTermString_hole]

theorem deliver_nil : (s.deliver answer []) = (s, .text []) := by
  unfold Session.deliver
  split
  · exact if_pos (.inr rfl)
  · rfl

theorem dispatch_large (answer : Answer) (s : Session) {kc : Nat} (large : nrKeys ≤ kc)
    (down : Bool) :
    (dispatch answer s [] kc down).1 = s ∧ (dispatch answer s [] kc down).2.output = [] := by
  have other : ∀ key, key < nrKeys → kc ≠ key := fun key small same => by omega
  have space : kc ≠ keySpace := other _ (by decide)
  have left : kc ≠ keyLeftshift := other _ (by decide)
  have right : kc ≠ keyRightshift := other _ (by decide)
  have f9 : kc ≠ keyF9 := other _ (by decide)
  have ctrls : ¬ (kc = keyLeftctrl ∨ kc = keyRightctrl) :=
    not_or.mpr ⟨other _ (by decide), other _ (by decide)⟩
  simp only [dispatch, space, left, right, f9, ctrls, false_and, if_false, deliver_nil]
  split <;> exact ⟨rfl, rfl⟩

theorem next_large (roomy : Roomy answer spare) (r : Session × List UInt8) {e : Event}
    (encodes : Encodes e) (large : nrKeys ≤ e.keycode) : next k answer spare r e = .ok r := by
  obtain ⟨same, nothing⟩ := dispatch_large answer { r.1 with kb := r.1.kb } large e.down
  rw [next, call_encode roomy encodes, processKey, translate_large large]
  simp [Except.map, same, nothing]

end Ucimf.Raw
