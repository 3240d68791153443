import Ucimf.FbTerm.Message
import Ucimf.Raw.Batching

/-!
# Text written over queued messages

A buffer of well-framed messages is compared with the same messages handled one by one,
each in a buffer of its own. A reply longer than the keys of its message spills over the
messages behind it.
-/

namespace Ucimf.FbTerm

open Keyboard Raw

/-- A message holds its header, and the header its length. -/
def WellFramed (m : List UInt8) : Prop := keysOffset ≤ m.length ∧ word m 2 = some m.length

/-- The memory behind `n` bytes over which `out` was written. -/
def spill (out : List UInt8) (n : Nat) (later : List UInt8) : List UInt8 :=
  out.drop n ++ later.drop (out.length - n)

@[simp] theorem spill_nil (n : Nat) (later : List UInt8) : spill [] n later = later := by
  simp [spill]

theorem length_spill {out later : List UInt8} {n : Nat} (fits : out.length ≤ n + later.length) :
    (spill out n later).length = later.length := by
  rw [spill, List.length_append, List.length_drop, List.length_drop]
  omega

theorem take_spill_eq_iff {out a b : List UInt8} {n : Nat} :
    (spill out n (a ++ b)).take a.length = a ↔ (out.drop n).take a.length <+: a := by
  have length : (out.drop n).length = out.length - n := List.length_drop
  rw [spill, ← length]
  generalize out.drop n = d
  rcases le_total d.length a.length with short | long
  · rw [List.take_append, List.take_of_length_le short, List.drop_append_of_le_length short,
      List.take_append_of_le_length (by rw [List.length_drop]), List.take_of_length_le
      (by rw [List.length_drop])]
    constructor
    · exact fun same => ⟨_, same⟩
    · rintro ⟨tail, rfl⟩
      rw [List.drop_left]
  · rw [List.take_append_of_le_length long]
    constructor
    · exact fun same => ⟨[], (List.append_nil _).trans same⟩
    · exact fun start => start.eq_of_length (by rw [List.length_take]; omega)

/-- A text written over the keys spills over what is behind them. -/
theorem append_drop_eq_spill (out keys later : List UInt8) :
    ∃ keys' : List UInt8, keys'.length = keys.length ∧
      out ++ (keys ++ later).drop out.length = keys' ++ spill out keys.length later := by
  rcases le_total out.length keys.length with short | long
  · refine ⟨out ++ keys.drop out.length, ?_, ?_⟩
    · rw [List.length_append, List.length_drop]
      omega
    · rw [List.drop_append_of_le_length short, spill, List.drop_of_length_le short,
        Nat.sub_eq_zero_of_le short, List.append_assoc]
      rfl
  · refine ⟨out.take keys.length, List.length_take_of_le long, ?_⟩
    rw [spill, ← List.append_assoc, List.take_append_drop, List.drop_append,
      List.drop_of_length_le long, List.nil_append]

theorem writeBack_keys {keys : List UInt8} (used : keys ≠ []) {later : List UInt8} {reply : Reply}
    (fits : reply.output.length ≤ keys.length + later.length) :
    ∃ keys', keys'.length = keys.length ∧
      (keys' ++ spill reply.output keys.length later).take reply.output.length = reply.output ∧
      writeBack (keys ++ later) keys.length reply =
        .ok (keys' ++ spill reply.output keys.length later, reply.output.length) := by
  cases reply with
  | cleared =>
    refine ⟨List.replicate keys.length 0, List.length_replicate, List.take_zero, ?_⟩
    rw [writeBack, List.drop_left, Reply.output, spill_nil]
    rfl
  | text output =>
    have first : (keys ++ later).set 0 0 = keys.set 0 0 ++ later :=
      List.set_append_left _ _ (List.length_pos_iff.mpr used)
    obtain ⟨keys', length, written⟩ := append_drop_eq_spill output (keys.set 0 0) later
    rw [List.length_set] at length written
    refine ⟨keys', length, ?_, ?_⟩
    · rw [Reply.output, ← written, List.take_left]
    · rw [writeBack, if_neg (by rw [List.length_append]; exact not_lt.mpr fits), first, written]
      rfl

theorem writeBack_overrun {keys later : List UInt8} {reply : Reply}
    (long : keys.length + later.length < reply.output.length) :
    writeBack (keys ++ later) keys.length reply = .error .overrun := by
  cases reply with
  | cleared => exact absurd long (Nat.not_lt_zero _)
  | text output => exact if_pos (by rw [List.length_append]; exact long)

/-! ## Messages one by one -/

/-- A message handled in a buffer of its own: the server and what is written over the keys. -/
def handle (k : Kernel) (answer : Answer) (v : Server) (m : List UInt8) :
    Except Fault (Server × List UInt8) :=
  let v := { v with dispatched := v.dispatched ++ [m] }
  let type := (word m 0).bind fun code => messageTypes[code]?
  if type = some .sendKey then
    if v.imActive = false ∨ m.drop keysOffset = [] then .ok (v, [])
    else do
      let (session, reply) ← rawReply k answer v.session (m.drop keysOffset)
      .ok (({ v with session := session }).putImText reply.output (reply.output.length % 65536),
        reply.output)
  else .ok (v.notify type, [])

variable {k : Kernel} {answer : Answer} {v : Server} {m pre later : List UInt8}

theorem word_append_left {i : Nat} (inside : i + 1 < m.length) (later : List UInt8) :
    word (m ++ later) i = word m i := by
  rw [word, word, List.getElem?_append_left (by omega), List.getElem?_append_left inside]

theorem word_append_right (pre m : List UInt8) (i : Nat) :
    word (pre ++ m) (pre.length + i) = word m i := by
  rw [word, word, List.getElem?_append_right (by omega), List.getElem?_append_right (by omega),
    Nat.add_sub_cancel_left, Nat.add_assoc, Nat.add_sub_cancel_left]

theorem WellFramed.word_isSome (framed : WellFramed m) : ∃ code, word m 0 = some code := by
  obtain ⟨header, _⟩ := framed
  rw [keysOffset] at header
  rw [word, List.getElem?_eq_getElem (by omega : 0 < m.length),
    List.getElem?_eq_getElem (by omega : 0 + 1 < m.length)]
  exact ⟨_, rfl⟩

theorem processRawKey_of_fits {keys : List UInt8} (used : keys ≠ []) {session : Session}
    {reply : Reply} (replied : rawReply k answer v.session keys = .ok (session, reply))
    (fits : reply.output.length ≤ keys.length + later.length) :
    ∃ keys', keys'.length = keys.length ∧
      processRawKey k answer v (keys ++ later) keys.length =
        .ok (({ v with session := session }).putImText reply.output
          (reply.output.length % 65536), keys' ++ spill reply.output keys.length later) := by
  obtain ⟨keys', length, taken, written⟩ := writeBack_keys used fits
  refine ⟨keys', length, ?_⟩
  rw [processRawKey, if_neg fun none => used (List.length_eq_zero_iff.mp none), ucimfProcessRaw,
    if_neg (by simp), List.take_left, replied]
  simp only [Outcome.ok_bind, written, taken]

theorem processRawKey_of_long {keys : List UInt8} (used : keys ≠ []) {session : Session}
    {reply : Reply} (replied : rawReply k answer v.session keys = .ok (session, reply))
    (long : keys.length + later.length < reply.output.length) :
    processRawKey k answer v (keys ++ later) keys.length = .error .overrun := by
  rw [processRawKey, if_neg fun none => used (List.length_eq_zero_iff.mp none), ucimfProcessRaw,
    if_neg (by simp), List.take_left, replied]
  simp only [Outcome.ok_bind, writeBack_overrun long, Outcome.error_bind]

theorem processRawKey_of_error {keys : List UInt8} (used : keys ≠ []) {fault : Fault}
    (failed : rawReply k answer v.session keys = .error fault) :
    processRawKey k answer v (keys ++ later) keys.length = .error fault := by
  rw [processRawKey, if_neg fun none => used (List.length_eq_zero_iff.mp none), ucimfProcessRaw,
    if_neg (by simp), List.take_left, failed]
  rfl

/-- What a message does in the buffer, by what it does alone: it fails in the same way, or
writes past the end of the array, or spills its reply over what is behind it. -/
inductive Placed (k : Kernel) (answer : Answer) (v : Server) (pre m later : List UInt8) :
    Except Fault (Server × List UInt8) → Prop
  | failed {fault} :
      processMessage k answer v (pre ++ (m ++ later)) pre.length = .error fault →
      Placed k answer v pre m later (.error fault)
  | overrun {v' out} : m.length - keysOffset + later.length < out.length →
      processMessage k answer v (pre ++ (m ++ later)) pre.length = .error .overrun →
      Placed k answer v pre m later (.ok (v', out))
  | spilt {v' out m'} : out.length ≤ m.length - keysOffset + later.length →
      m'.length = m.length → word m' 2 = word m 2 →
      processMessage k answer v (pre ++ (m ++ later)) pre.length =
        .ok (v', pre ++ (m' ++ spill out (m.length - keysOffset) later)) →
      Placed k answer v pre m later (.ok (v', out))

theorem placed_of_quiet {v' : Server}
    (done : processMessage k answer v (pre ++ (m ++ later)) pre.length =
      .ok (v', pre ++ (m ++ later))) : Placed k answer v pre m later (.ok (v', [])) :=
  .spilt (Nat.zero_le _) rfl rfl (by rw [spill_nil]; exact done)

theorem word_header (header : keysOffset ≤ m.length) (keys' : List UInt8) :
    word (m.take keysOffset ++ keys') 2 = word m 2 := by
  rw [keysOffset] at header ⊢
  have inside : 2 + 1 < (m.take 4).length := by
    rw [List.length_take]
    omega
  rw [word_append_left inside, ← word_append_left inside (m.drop 4), List.take_append_drop]

theorem WellFramed.length_at (framed : WellFramed m) (pre later : List UInt8) :
    word (pre ++ (m ++ later)) (pre.length + 2) = some m.length :=
  (word_append_right pre _ 2).trans ((word_append_left framed.1 later).trans framed.2)

theorem processMessage_at (k : Kernel) (answer : Answer) (v : Server) (framed : WellFramed m)
    {code : Nat} (type : word m 0 = some code)
    (pre later : List UInt8) :
    processMessage k answer v (pre ++ (m ++ later)) pre.length =
      let v := { v with dispatched := v.dispatched ++ [m] }
      if messageTypes[code]? = some .sendKey then
        if v.imActive = false then .ok (v, pre ++ (m ++ later))
        else do
          let (v, mem) ← processRawKey k answer v (m.drop keysOffset ++ later)
            (m.drop keysOffset).length
          .ok (v, pre ++ (m.take keysOffset ++ mem))
      else .ok (v.notify messageTypes[code]?, pre ++ (m ++ later)) := by
  have header := framed.1
  have inside : 2 + 1 < m.length := header
  have code_here : word (pre ++ (m ++ later)) pre.length = some code :=
    (word_append_right pre _ 0).trans ((word_append_left (by omega) later).trans type)
  have keys : (pre ++ (m ++ later)).drop (pre.length + keysOffset) =
      m.drop keysOffset ++ later := by
    rw [← List.drop_drop, List.drop_left, List.drop_append_of_le_length header]
  have front : (pre ++ (m ++ later)).take (pre.length + keysOffset) =
      pre ++ m.take keysOffset := by
    rw [List.take_length_add_append, List.take_append_of_le_length header]
  have long : ¬ m.length < keysOffset := not_lt.mpr header
  rw [processMessage, code_here, framed.length_at]
  simp only [List.drop_left, List.take_left, keys, front, long, if_false, List.length_drop,
    List.append_assoc]

theorem placed_handle (k : Kernel) (answer : Answer) (v : Server) (framed : WellFramed m)
    (pre later : List UInt8) : Placed k answer v pre m later (handle k answer v m) := by
  obtain ⟨code, type⟩ := framed.word_isSome
  have header := framed.1
  have here := processMessage_at k answer v framed type pre later
  have alone : (word m 0).bind (fun code => messageTypes[code]?) = messageTypes[code]? := by
    rw [type, Option.bind_some]
  unfold handle
  rw [alone]
  dsimp only at here ⊢
  split
  · next send =>
    rw [if_pos send] at here
    split
    · next idle =>
      apply placed_of_quiet
      rw [here]
      rcases idle with inactive | empty
      · rw [if_pos inactive]
      · split
        · rfl
        · rw [empty, List.nil_append, List.length_nil, processRawKey, if_pos rfl,
            Outcome.ok_bind, List.take_of_length_le (List.drop_eq_nil_iff.mp empty)]
    · next busy =>
      obtain ⟨active, used⟩ := not_or.mp busy
      rw [if_neg active] at here
      have keys : (m.drop keysOffset).length = m.length - keysOffset := List.length_drop
      cases replied : rawReply k answer v.session (m.drop keysOffset) with
      | error fault =>
        refine .failed ?_
        rw [here, processRawKey_of_error (v := { v with dispatched := v.dispatched ++ [m] })
          used replied]
        rfl
      | ok r =>
        obtain ⟨session, reply⟩ := r
        rw [Outcome.ok_bind]
        rcases Nat.lt_or_ge ((m.drop keysOffset).length + later.length) reply.output.length with
          long | fits
        · refine .overrun (keys ▸ long) ?_
          rw [here, processRawKey_of_long (v := { v with dispatched := v.dispatched ++ [m] })
            used replied long]
          rfl
        · obtain ⟨keys', length, done⟩ := processRawKey_of_fits
            (v := { v with dispatched := v.dispatched ++ [m] }) used replied fits
          rw [done, keys] at here
          refine .spilt (keys ▸ fits) ?_ (word_header header keys')
            (by rw [here, List.append_assoc]; rfl)
          rw [List.length_append, List.length_take_of_le header, length, keys]
          omega
  · next other =>
    rw [if_neg other] at here
    exact placed_of_quiet here

/-! ## The loop -/

/-- Along the run of the loop no message that is handled changes the bytes of the messages
behind it. -/
def Undisturbed (k : Kernel) (answer : Answer) :
    Nat → Server → List UInt8 → Nat → Nat → Prop
  | 0, _, _, _, _ => True
  | fuel + 1, v, buf, cur, stop => ∀ len v' buf', cur < stop → word buf (cur + 2) = some len →
      len ≤ stop - cur → processMessage k answer v buf cur = .ok (v', buf') →
      (buf'.drop (cur + len)).take (stop - (cur + len)) =
          (buf.drop (cur + len)).take (stop - (cur + len)) ∧
        Undisturbed k answer fuel v' buf' (cur + len) stop

/-- Handled one by one, each message returns a reply that stays in the array, and what a
reply writes beyond the keys of its message repeats the bytes of the messages behind it. -/
def Harmless (k : Kernel) (answer : Answer) : Server → List (List UInt8) → Nat → Prop
  | _, [], _ => True
  | v, m :: ms, room =>
    match handle k answer v m with
    | .error _ => False
    | .ok (v', out) =>
      out.length ≤ m.length - keysOffset + (ms.flatten.length + room) ∧
        (out.drop (m.length - keysOffset)).take ms.flatten.length <+: ms.flatten ∧
        Harmless k answer v' ms room

instance decidableHarmless (k : Kernel) (answer : Answer) :
    ∀ v msgs room, Decidable (Harmless k answer v msgs room)
  | _, [], _ => isTrue trivial
  | v, m :: ms, room =>
    match handled : handle k answer v m with
    | .error _ => isFalse (by rw [Harmless, handled]; exact id)
    | .ok (v', out) =>
      have := decidableHarmless k answer v' ms room
      decidable_of_iff (out.length ≤ m.length - keysOffset + (ms.flatten.length + room) ∧
        (out.drop (m.length - keysOffset)).take ms.flatten.length <+: ms.flatten ∧
        Harmless k answer v' ms room) (by rw [Harmless, handled])

theorem dispatched_handle {v' : Server} {out : List UInt8}
    (handled : handle k answer v m = .ok (v', out)) : v'.dispatched = v.dispatched ++ [m] := by
  unfold handle at handled
  dsimp only at handled
  split at handled
  · split at handled
    · cases handled
      rfl
    · obtain ⟨⟨session, reply⟩, _, done⟩ := Outcome.bind_eq_ok.mp handled
      cases done
      exact Server.dispatched_putImText _ _ _
  · cases handled
    exact Server.dispatched_notify _ _

theorem processMessages_cons (framed : WellFramed m) {fuel stop : Nat}
    (room : pre.length + m.length ≤ stop) {v' : Server} {m' later' : List UInt8}
    (length : m'.length = m.length) (kept : word m' 2 = word m 2)
    (done : processMessage k answer v (pre ++ (m ++ later)) pre.length =
      .ok (v', pre ++ (m' ++ later'))) :
    processMessages k answer (fuel + 1) v (pre ++ (m ++ later)) pre.length stop =
      processMessages k answer fuel v' (pre ++ m' ++ later') (pre ++ m').length stop := by
  have header := framed.1
  rw [keysOffset] at header
  have framed' : WellFramed m' := ⟨length.symm ▸ framed.1, by rw [kept, framed.2, length]⟩
  rw [processMessages, if_pos (by omega), framed.length_at]
  dsimp only
  rw [if_pos (by omega), done, Outcome.ok_bind]
  dsimp only
  rw [framed'.length_at]
  dsimp only
  rw [if_neg (by omega), List.append_assoc, List.length_append]

theorem processMessages_error (framed : WellFramed m) {fuel stop : Nat}
    (room : pre.length + m.length ≤ stop) {fault : Fault}
    (failed : processMessage k answer v (pre ++ (m ++ later)) pre.length = .error fault) :
    processMessages k answer (fuel + 1) v (pre ++ (m ++ later)) pre.length stop =
      .error fault := by
  have header := framed.1
  rw [keysOffset] at header
  rw [processMessages, if_pos (by omega), framed.length_at]
  dsimp only
  rw [if_pos (by omega), failed]
  rfl

/-- The next message handled leaves the rest of the messages alone, and the loop goes on so. -/
theorem undisturbed_cons (framed : WellFramed m) {fuel stop : Nat}
    (room : pre.length + m.length ≤ stop) {v' : Server} {m' later' : List UInt8}
    (length : m'.length = m.length)
    (done : processMessage k answer v (pre ++ (m ++ later)) pre.length =
      .ok (v', pre ++ (m' ++ later'))) :
    Undisturbed k answer (fuel + 1) v (pre ++ (m ++ later)) pre.length stop ↔
      later'.take (stop - (pre ++ m').length) = later.take (stop - (pre ++ m').length) ∧
        Undisturbed k answer fuel v' (pre ++ m' ++ later') (pre ++ m').length stop := by
  have header := framed.1
  rw [keysOffset] at header
  have behind : ∀ a b : List UInt8, a.length = m.length →
      (pre ++ (a ++ b)).drop (pre.length + m.length) = b := by
    intro a b same
    rw [← List.append_assoc, ← same, ← List.length_append, List.drop_left]
  have next : (pre ++ m').length = pre.length + m.length := by
    rw [List.length_append, length]
  rw [next, List.append_assoc]
  constructor
  · intro undisturbed
    have step := undisturbed m.length v' _ (by omega) (framed.length_at pre later) (by omega) done
    rw [behind m' later' length, behind m later rfl] at step
    exact step
  · rintro ⟨same, rest⟩ len v'' buf' _ read _ ran
    obtain rfl : m.length = len := Option.some.inj ((framed.length_at pre later).symm.trans read)
    rw [done] at ran
    cases ran
    rw [behind m' later' length, behind m later rfl]
    exact ⟨same, rest⟩

/-- The loop returns after handling the messages received, and none disturbs those behind. -/
def Received (k : Kernel) (answer : Answer) (fuel : Nat) (v : Server) (buf : List UInt8)
    (cur stop : Nat) (msgs : List (List UInt8)) : Prop :=
  (∃ v' buf', processMessages k answer fuel v buf cur stop = .ok (v', buf') ∧
      v'.dispatched = v.dispatched ++ msgs) ∧
    Undisturbed k answer fuel v buf cur stop

theorem received_nil (fuel : Nat) (rest : List UInt8) :
    Received k answer (fuel + 1) v (pre ++ rest) pre.length pre.length [] := by
  refine ⟨⟨v, pre ++ rest, ?_, (List.append_nil _).symm⟩, ?_⟩
  · rw [processMessages, if_neg (lt_irrefl _)]
  · intro _ _ _ inside
    exact absurd inside (lt_irrefl _)

/-- The spill of one reply decides whether the loop goes on with the messages received. -/
theorem received_cons (framed : WellFramed m) {fuel : Nat} {ms : List (List UInt8)}
    {rest out m' : List UInt8} {v' : Server} (handled : handle k answer v m = .ok (v', out))
    (fits : out.length ≤ m.length - keysOffset + (ms.flatten ++ rest).length)
    (length : m'.length = m.length) (kept : word m' 2 = word m 2)
    (done : processMessage k answer v (pre ++ (m ++ (ms.flatten ++ rest))) pre.length =
      .ok (v', pre ++ (m' ++ spill out (m.length - keysOffset) (ms.flatten ++ rest)))) :
    ∃ rest' : List UInt8, rest'.length = rest.length ∧
      (Received k answer (fuel + 1) v (pre ++ (m ++ (ms.flatten ++ rest))) pre.length
          (pre.length + (m.length + ms.flatten.length)) (m :: ms) ↔
        (out.drop (m.length - keysOffset)).take ms.flatten.length <+: ms.flatten ∧
          Received k answer fuel v' (pre ++ m' ++ (ms.flatten ++ rest')) (pre ++ m').length
            ((pre ++ m').length + ms.flatten.length) ms) := by
  have stop : pre.length + (m.length + ms.flatten.length) =
      (pre ++ m').length + ms.flatten.length := by
    rw [List.length_append, length, Nat.add_assoc]
  have whole := length_spill fits
  refine ⟨(spill out (m.length - keysOffset) (ms.flatten ++ rest)).drop ms.flatten.length, ?_, ?_⟩
  · rw [List.length_drop, whole, List.length_append, Nat.add_sub_cancel_left]
  have same : v'.dispatched ++ ms = v.dispatched ++ m :: ms := by
    rw [dispatched_handle handled, List.append_assoc, List.singleton_append]
  rw [Received, processMessages_cons framed (by omega) length kept done,
    undisturbed_cons framed (by omega) length done, stop, Nat.add_sub_cancel_left, List.take_left,
    take_spill_eq_iff, Received, same, and_left_comm]
  refine and_congr_right fun repeated => ?_
  rw [← take_spill_eq_iff (b := rest)] at repeated
  have split := List.take_append_drop ms.flatten.length
    (spill out (m.length - keysOffset) (ms.flatten ++ rest))
  rw [repeated] at split
  rw [split]

/-- The loop handles the messages received, and none disturbs those behind it, exactly when
they are harmless. -/
theorem received_iff_harmless {msgs : List (List UInt8)} (framed : ∀ m ∈ msgs, WellFramed m)
    {fuel : Nat} (enough : msgs.length < fuel) (rest : List UInt8) :
    Received k answer fuel v (pre ++ (msgs.flatten ++ rest)) pre.length
      (pre.length + msgs.flatten.length) msgs ↔ Harmless k answer v msgs rest.length := by
  induction msgs generalizing v pre rest fuel with
  | nil =>
    obtain ⟨fuel, rfl⟩ := Nat.exists_eq_add_one.mpr enough
    exact iff_of_true (received_nil fuel rest) trivial
  | cons m ms ih =>
    obtain ⟨fuel, rfl⟩ := Nat.exists_eq_add_one.mpr (Nat.zero_lt_of_lt enough)
    have first := framed m List.mem_cons_self
    have room : pre.length + m.length ≤ pre.length + (m.length + ms.flatten.length) := by omega
    have placed := placed_handle k answer v first pre (ms.flatten ++ rest)
    rw [List.flatten_cons, List.append_assoc, List.length_append]
    have lost : ∀ fault, processMessage k answer v (pre ++ (m ++ (ms.flatten ++ rest))) pre.length =
        .error fault → ¬ Received k answer (fuel + 1) v (pre ++ (m ++ (ms.flatten ++ rest)))
          pre.length (pre.length + (m.length + ms.flatten.length)) (m :: ms) := by
      rintro fault failed ⟨⟨v', buf', ran, _⟩, _⟩
      rw [processMessages_error first room failed] at ran
      cases ran
    cases handled : handle k answer v m with
    | error fault =>
      rw [handled] at placed
      cases placed with
      | failed failed =>
        rw [Harmless, handled]
        exact iff_of_false (lost fault failed) id
    | ok r =>
      obtain ⟨v', out⟩ := r
      have harmless : Harmless k answer v (m :: ms) rest.length ↔
          out.length ≤ m.length - keysOffset + (ms.flatten ++ rest).length ∧
            (out.drop (m.length - keysOffset)).take ms.flatten.length <+: ms.flatten ∧
            Harmless k answer v' ms rest.length := by
        rw [Harmless, handled, List.length_append]
      rw [handled] at placed
      rw [harmless]
      cases placed with
      | overrun long failed =>
        exact iff_of_false (lost _ failed) fun conditions => not_lt.mpr conditions.1 long
      | spilt fits length kept done =>
        obtain ⟨rest', room', step⟩ := received_cons first handled fits length kept done
        rw [step, and_iff_right fits, ← room',
          ih (fun m' member => framed m' (.tail _ member)) (Nat.lt_of_succ_lt_succ enough)]

theorem length_le_flatten {msgs : List (List UInt8)} (framed : ∀ m ∈ msgs, WellFramed m) :
    msgs.length ≤ msgs.flatten.length := by
  induction msgs with
  | nil => exact le_rfl
  | cons m ms ih =>
    have header := (framed m List.mem_cons_self).1
    have others := ih fun m' member => framed m' (.tail _ member)
    rw [keysOffset] at header
    rw [List.flatten_cons, List.length_append, List.length_cons]
    omega

/-- A buffer of well-framed messages is received as it was sent exactly when its messages are
harmless: handled one by one, no reply leaves the array, and what a reply writes beyond the
keys of its message repeats the bytes that are there. -/
theorem checkImMessage_iff (k : Kernel) (answer : Answer) (v : Server)
    {msgs : List (List UInt8)} (framed : ∀ m ∈ msgs, WellFramed m) (rest : List UInt8) :
    ((∃ v' buf', checkImMessage k answer v msgs.flatten rest = .ok (v', buf') ∧
        v'.dispatched = v.dispatched ++ msgs) ∧
      Undisturbed k answer (msgs.flatten.length + 1) v (msgs.flatten ++ rest) 0
        msgs.flatten.length) ↔ Harmless k answer v msgs rest.length := by
  have received : Received k answer (msgs.flatten.length + 1) v ([] ++ (msgs.flatten ++ rest))
      ([] : List UInt8).length (([] : List UInt8).length + msgs.flatten.length) msgs ↔ _ :=
    received_iff_harmless framed (Nat.lt_succ_of_le (length_le_flatten framed)) rest
  rw [List.length_nil, Nat.zero_add] at received
  exact received

instance (m : List UInt8) : Decidable (WellFramed m) :=
  inferInstanceAs (Decidable (_ ∧ _))

def activeServer : Server where
  session := focusedSession
  connected := true
  imActive := true
  exit := false
  dispatched := []
  sent := []

/-- A letter is typed, then FbTerm asks to hide the windows. -/
def typedThenHidden : List (List UInt8) := [[4, 0, 5, 0, 30], [12, 0, 4, 0]]

/-- An input method that returns a letter for a letter. -/
theorem checkImMessage_letter :
    (∃ v' buf', checkImMessage letterKeymap (fun _ => [97]) activeServer
        typedThenHidden.flatten [0, 0] = .ok (v', buf') ∧
      v'.dispatched = activeServer.dispatched ++ typedThenHidden) ∧
    Undisturbed letterKeymap (fun _ => [97]) (typedThenHidden.flatten.length + 1) activeServer
      (typedThenHidden.flatten ++ [0, 0]) 0 typedThenHidden.flatten.length :=
  (checkImMessage_iff letterKeymap (fun _ => [97]) activeServer (by decide) [0, 0]).mpr
    (by decide)

/-- An input method that returns a Chinese character, three bytes for one key: the request to
hide the windows is overwritten and never answered. -/
theorem hide_request_lost :
    (∀ m ∈ typedThenHidden, WellFramed m) ∧
      (checkImMessage letterKeymap (fun _ => [0xe4, 0xb8, 0xad]) activeServer
        typedThenHidden.flatten (List.replicate 10231 0)).map
          (fun r => (r.1.dispatched, r.1.sent)) =
        .ok ([[4, 0, 5, 0, 30], [0xb8, 0xad, 4, 0]], [.putText [0xe4, 0xb8, 0xad]]) :=
  ⟨by decide, by decide +kernel⟩

end Ucimf.FbTerm
