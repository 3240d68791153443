import Ucimf.FbTerm.Receive

/-!
# Messages that wait

Behind `SetWin` the server waits for FbTerm's acknowledgement. What arrives before it is kept
for `check_im_message`, and the acknowledgement is taken out from between. The length of the
buffer is then lessened by the length found where the acknowledgement stood, which is the one
of the message behind it.
-/

namespace Ucimf.FbTerm

open Raw

/-- `sizeof(pending_msg_buf)`. -/
def pendingSize : Nat := 10240

/-- `pending_msg_buf` and `pending_msg_buf_len`. -/
structure Pending where
  mem : List UInt8
  len : Nat

/-- The bytes that are kept for later. -/
def Pending.kept (p : Pending) : List UInt8 := p.mem.take p.len

/-- What `read` returns: nothing for now, the end of the connection or an error, or bytes, of
which it takes as many as there is room for. -/
inductive Arrival
  | again
  | closed
  | data (bytes : List UInt8)

/-- How far the server has come: it still waits, the connection was closed, or it was
acknowledged, and sent a `Ping` or not. -/
inductive Waited
  | waiting (p : Pending)
  | closed (p : Pending)
  | acked (p : Pending) (ping : Bool)

def store (mem : List UInt8) (start : Nat) (bytes : List UInt8) : List UInt8 :=
  mem.take start ++ (bytes ++ mem.drop (start + bytes.length))

/-- `memcpy(cur, cur + len, end - cur - len)`, from the first byte to the last. -/
def takeOut (mem : List UInt8) (cur len stop : Nat) : List UInt8 :=
  mem.take cur ++ ((mem.drop (cur + len)).take (stop - (cur + len)) ++ mem.drop (stop - len))

/-- The loop over the bytes that were read, up to the acknowledgement: the memory behind it and
what is subtracted from the length. -/
def ackLoop (type : MessageType) : Nat → List UInt8 → Nat → Nat →
    Except Fault (Option (List UInt8 × Nat))
  | 0, _, _, _ => .error .hang
  | fuel + 1, mem, cur, stop =>
    if cur < stop then
      match word mem cur, word mem (cur + 2) with
      | some code, some len =>
        if len ≤ stop - cur then
          if messageTypes[code]? = some type then
            let mem := takeOut mem cur len stop
            match word mem (cur + 2) with
            | none => .error .overrun
            | some len => .ok (some (mem, len))
          else if len = 0 then .error .hang
          else ackLoop type fuel mem (cur + len) stop
        else .ok none
      | _, _ => .error .overrun
    else .ok none

/-- `wait_message`, for what the calls of `read` return. -/
def waitMessage (type : MessageType) : List Arrival → Pending → Except Fault Waited
  | [], p => .ok (.waiting p)
  | .again :: reads, p => waitMessage type reads p
  | .closed :: _, p => .ok (.closed p)
  | .data bytes :: reads, p =>
    if pendingSize < p.len then .error .overrun
    else
      let received := bytes.take (pendingSize - p.len)
      if received = [] then .ok (.closed p)
      else do
        let stop := p.len + received.length
        let mem := store p.mem p.len received
        match ← ackLoop type (received.length + 1) mem p.len stop with
        | none => waitMessage type reads ⟨mem, stop⟩
        | some (mem, len) =>
          let left := (stop + 2 ^ 32 - len) % 2 ^ 32
          .ok (.acked ⟨mem, left⟩ (left ≠ 0))

/-! ### The loop -/

/-- The type of a message. -/
def typeOf (m : List UInt8) : Option MessageType :=
  (word m 0).bind fun code => messageTypes[code]?

section Loop
variable {type : MessageType} {m pre later rest : List UInt8} {ms : List (List UInt8)}

theorem WellFramed.code_at (framed : WellFramed m) (pre later : List UInt8) :
    ∃ code, word (pre ++ (m ++ later)) pre.length = some code ∧
      messageTypes[code]? = typeOf m := by
  obtain ⟨code, here⟩ := framed.word_isSome
  have header : 4 ≤ m.length := framed.1
  refine ⟨code, ?_, ?_⟩
  · have inside : 0 + 1 < m.length := by omega
    exact (word_append_right pre _ 0).trans ((word_append_left inside later).trans here)
  · rw [typeOf, here, Option.bind_some]

theorem WellFramed.positive (framed : WellFramed m) : 0 < m.length :=
  Nat.zero_lt_of_lt framed.1

/-- Any other message is passed over. -/
theorem ackLoop_other (framed : WellFramed m) (other : typeOf m ≠ some type) (fuel : Nat)
    {stop : Nat} (inside : pre.length + m.length ≤ stop) :
    ackLoop type (fuel + 1) (pre ++ (m ++ later)) pre.length stop =
      ackLoop type fuel (pre ++ (m ++ later)) (pre.length + m.length) stop := by
  obtain ⟨code, here, typed⟩ := framed.code_at pre later
  have positive := framed.positive
  conv_lhs => rw [ackLoop]
  rw [if_pos (by omega), here, framed.length_at pre later]
  dsimp only
  rw [if_pos (by omega), if_neg (typed ▸ other), if_neg (by omega)]

/-- The messages before the acknowledgement are passed over. -/
theorem ackLoop_others (framed : ∀ m ∈ ms, WellFramed m) (other : ∀ m ∈ ms, typeOf m ≠ some type)
    (fuel : Nat) {stop : Nat} (inside : pre.length + ms.flatten.length ≤ stop) :
    ackLoop type (ms.length + fuel) (pre ++ (ms.flatten ++ later)) pre.length stop =
      ackLoop type fuel (pre ++ ms.flatten ++ later) (pre ++ ms.flatten).length stop := by
  induction ms generalizing pre with
  | nil => rw [List.length_nil, Nat.zero_add, List.flatten_nil, List.append_nil, List.nil_append]
  | cons m ms ih =>
    rw [List.flatten_cons, List.length_append] at inside
    have behind := @ih (pre ++ m) (fun m' member => framed m' (.tail _ member))
      (fun m' member => other m' (.tail _ member)) (by rw [List.length_append]; omega)
    have fuels : (m :: ms).length + fuel = ms.length + fuel + 1 := by
      rw [List.length_cons]
      omega
    rw [fuels, List.flatten_cons, List.append_assoc, ackLoop_other (framed m List.mem_cons_self)
      (other m List.mem_cons_self) _ (by omega), ← List.append_assoc pre m,
      ← List.length_append, behind, List.append_assoc pre m]

/-- Without the acknowledgement the loop leaves the bytes as they are. -/
theorem ackLoop_none (framed : ∀ m ∈ ms, WellFramed m) (other : ∀ m ∈ ms, typeOf m ≠ some type)
    {fuel : Nat} (enough : ms.length < fuel) (pre later : List UInt8) :
    ackLoop type fuel (pre ++ (ms.flatten ++ later)) pre.length
      (pre.length + ms.flatten.length) = .ok none := by
  obtain ⟨more, rfl⟩ := Nat.exists_eq_add_of_lt enough
  rw [Nat.add_assoc, ackLoop_others framed other _ le_rfl, ackLoop, if_neg]
  rw [List.length_append]
  exact lt_irrefl _

theorem takeOut_between (pre m later rest : List UInt8) :
    takeOut (pre ++ (m ++ (later ++ rest))) pre.length m.length
        (pre.length + (m.length + later.length)) =
      pre ++ (later ++ (m ++ (later ++ rest)).drop later.length) := by
  have behind : pre.length + (m.length + later.length) - (pre.length + m.length) =
      later.length := by omega
  have kept : pre.length + (m.length + later.length) - m.length =
      pre.length + later.length := by omega
  rw [takeOut, List.take_left, behind, kept, ← List.drop_drop, List.drop_left, List.drop_left,
    List.take_left, ← List.drop_drop, List.drop_left]

/-- What stands where the acknowledgement stood: the message behind it, or itself. -/
def successor (ack : List UInt8) (after : List (List UInt8)) : List UInt8 :=
  after.head?.getD ack

variable {ack : List UInt8} {before after : List (List UInt8)}

theorem word_successor (framed : WellFramed ack) (others : ∀ m ∈ after, WellFramed m)
    (pre rest : List UInt8) :
    word (pre ++ (after.flatten ++ (ack ++ (after.flatten ++ rest)).drop after.flatten.length))
      (pre.length + 2) = some (successor ack after).length := by
  cases after with
  | nil => exact framed.length_at pre rest
  | cons m ms =>
    rw [List.flatten_cons, List.append_assoc]
    exact (others m List.mem_cons_self).length_at pre _

theorem length_successor_le (ack : List UInt8) (after : List (List UInt8)) :
    (successor ack after).length ≤ ack.length + after.flatten.length := by
  cases after with
  | nil => exact le_rfl
  | cons m ms =>
    change m.length ≤ ack.length + (m :: ms).flatten.length
    rw [List.flatten_cons, List.length_append]
    omega

/-- The acknowledgement is taken out from between. -/
theorem ackLoop_ack (framed : WellFramed ack) (acks : typeOf ack = some type)
    (others : ∀ m ∈ after, WellFramed m) (fuel : Nat) (pre rest : List UInt8) :
    ackLoop type (fuel + 1) (pre ++ (ack ++ (after.flatten ++ rest))) pre.length
        (pre.length + (ack.length + after.flatten.length)) =
      .ok (some (pre ++ (after.flatten ++
          (ack ++ (after.flatten ++ rest)).drop after.flatten.length),
        (successor ack after).length)) := by
  obtain ⟨code, here, typed⟩ := framed.code_at pre (after.flatten ++ rest)
  have positive := framed.positive
  rw [ackLoop, if_pos (by omega), here, framed.length_at pre]
  dsimp only
  rw [if_pos (by omega), if_pos (typed.trans acks), takeOut_between,
    word_successor framed others]

/-- The loop over bytes that bring the acknowledgement. -/
theorem ackLoop_found (framed : ∀ m ∈ before ++ ack :: after, WellFramed m)
    (other : ∀ m ∈ before, typeOf m ≠ some type) (acks : typeOf ack = some type)
    (pre rest : List UInt8) :
    ∃ tail : List UInt8, tail.length = ack.length + rest.length ∧
      ackLoop type ((before ++ ack :: after).flatten.length + 1)
          (pre ++ ((before ++ ack :: after).flatten ++ rest)) pre.length
          (pre.length + (before ++ ack :: after).flatten.length) =
        .ok (some (pre ++ ((before ++ after).flatten ++ tail), (successor ack after).length)) := by
  have enough := length_le_flatten framed
  have bytes : (before ++ ack :: after).flatten = before.flatten ++ (ack ++ after.flatten) := by
    rw [List.flatten_append, List.flatten_cons]
  have found : ∃ fuel, (before ++ ack :: after).flatten.length + 1 =
      before.length + (fuel + 1) := by
    rw [List.length_append, List.length_cons] at enough
    exact ⟨(before ++ ack :: after).flatten.length - before.length, by omega⟩
  obtain ⟨fuel, fuels⟩ := found
  have stop : pre.length + (before ++ ack :: after).flatten.length =
      (pre ++ before.flatten).length + (ack.length + after.flatten.length) := by
    rw [bytes, List.length_append, List.length_append, List.length_append, Nat.add_assoc]
  have inside : pre.length + before.flatten.length ≤
      pre.length + (before ++ ack :: after).flatten.length := by
    rw [stop, List.length_append]
    exact Nat.le_add_right _ _
  have shape : (before ++ ack :: after).flatten ++ rest =
      before.flatten ++ (ack ++ (after.flatten ++ rest)) := by
    rw [bytes, List.append_assoc, List.append_assoc]
  have front : ∀ m ∈ before, WellFramed m := fun m member =>
    framed m (List.mem_append_left _ member)
  have behind : ∀ m ∈ after, WellFramed m := fun m member =>
    framed m (List.mem_append_right _ (.tail _ member))
  refine ⟨(ack ++ (after.flatten ++ rest)).drop after.flatten.length, ?_, ?_⟩
  · rw [List.length_drop, List.length_append, List.length_append]
    omega
  · rw [fuels, shape, ackLoop_others front other _ inside, stop,
      ackLoop_ack (framed ack (List.mem_append_right _ List.mem_cons_self)) acks behind fuel,
      List.flatten_append, List.append_assoc, List.append_assoc]

end Loop

/-! ### The reads -/

/-- A read that returns nothing, or whole messages. -/
def arrival : Option (List (List UInt8)) → Arrival
  | none => .again
  | some ms => .data ms.flatten

/-- The messages that arrive. -/
def arrived (reads : List (Option (List (List UInt8)))) : List (List UInt8) :=
  reads.reduceOption.flatten

section Reads
variable {type : MessageType} {kept room : List UInt8} {ms before after : List (List UInt8)}
  {ack : List UInt8} {reads : List (Option (List (List UInt8)))}

theorem store_append (kept bytes room : List UInt8) :
    store (kept ++ room) kept.length bytes = kept ++ (bytes ++ room.drop bytes.length) := by
  rw [store, List.take_left, ← List.drop_drop, List.drop_left]

/-- Bytes that fit are stored behind the kept ones before the loop. -/
theorem waitMessage_data {bytes : List UInt8} (used : bytes ≠ [])
    (size : kept.length + room.length = pendingSize) (fits : bytes.length ≤ room.length)
    (later : List Arrival) :
    waitMessage type (.data bytes :: later) ⟨kept ++ room, kept.length⟩ = (do
      match ← ackLoop type (bytes.length + 1) (kept ++ (bytes ++ room.drop bytes.length))
          kept.length (kept.length + bytes.length) with
      | none => waitMessage type later ⟨kept ++ (bytes ++ room.drop bytes.length),
          kept.length + bytes.length⟩
      | some (mem, len) =>
        let left := (kept.length + bytes.length + 2 ^ 32 - len) % 2 ^ 32
        .ok (.acked ⟨mem, left⟩ (left ≠ 0))) := by
  have whole : bytes.take (pendingSize - kept.length) = bytes := by
    apply List.take_of_length_le
    omega
  rw [waitMessage, if_neg (by dsimp only; omega)]
  dsimp only
  rw [whole, if_neg used, store_append]

/-- Messages without the acknowledgement are kept, and the server waits on. -/
theorem waitMessage_quiet (framed : ∀ m ∈ ms, WellFramed m)
    (other : ∀ m ∈ ms, typeOf m ≠ some type) (used : ms ≠ [])
    (size : kept.length + room.length = pendingSize) (fits : ms.flatten.length ≤ room.length)
    (later : List Arrival) :
    waitMessage type (.data ms.flatten :: later) ⟨kept ++ room, kept.length⟩ =
      waitMessage type later ⟨kept ++ ms.flatten ++ room.drop ms.flatten.length,
        (kept ++ ms.flatten).length⟩ := by
  have enough := length_le_flatten framed
  have bytes : ms.flatten ≠ [] := by
    intro none
    rw [none, List.length_nil] at enough
    exact used (List.length_eq_zero_iff.mp (Nat.le_zero.mp enough))
  rw [waitMessage_data bytes size fits,
    ackLoop_none framed other (Nat.lt_succ_of_le enough) kept _, List.append_assoc,
    List.length_append]
  rfl

/-- The reads before the acknowledgement keep what they return. -/
theorem waitMessage_arrived (framed : ∀ m ∈ arrived reads, WellFramed m)
    (other : ∀ m ∈ arrived reads, typeOf m ≠ some type) (used : some [] ∉ reads)
    (size : kept.length + room.length = pendingSize)
    (fits : (arrived reads).flatten.length ≤ room.length) (later : List Arrival) :
    ∃ room' : List UInt8, room'.length + (arrived reads).flatten.length = room.length ∧
      waitMessage type (reads.map arrival ++ later) ⟨kept ++ room, kept.length⟩ =
        waitMessage type later ⟨kept ++ (arrived reads).flatten ++ room',
          (kept ++ (arrived reads).flatten).length⟩ := by
  induction reads generalizing kept room with
  | nil =>
    have none : (arrived []).flatten = [] := rfl
    refine ⟨room, rfl, ?_⟩
    rw [none, List.append_nil]
    rfl
  | cons read reads ih =>
    have rest : some [] ∉ reads := fun member => used (.tail _ member)
    cases read with
    | none => exact ih framed other rest size fits
    | some ms =>
      have split : arrived (some ms :: reads) = ms ++ arrived reads := rfl
      rw [split, List.flatten_append, List.length_append] at fits
      rw [split] at framed other ⊢
      have more : ms ≠ [] := by
        rintro rfl
        exact used List.mem_cons_self
      obtain ⟨room', length, waits⟩ := @ih (kept ++ ms.flatten)
        (room.drop ms.flatten.length)
        (fun m member => framed m (List.mem_append_right _ member))
        (fun m member => other m (List.mem_append_right _ member)) rest
        (by rw [List.length_append, List.length_drop]; omega)
        (by rw [List.length_drop]; omega)
      rw [List.length_drop] at length
      refine ⟨room', ?_, ?_⟩
      · rw [List.flatten_append, List.length_append]
        omega
      · rw [List.map_cons, List.cons_append, arrival, waitMessage_quiet
          (fun m member => framed m (List.mem_append_left _ member))
          (fun m member => other m (List.mem_append_left _ member)) more size (by omega), waits,
          List.flatten_append, List.append_assoc kept]

/-- The acknowledgement arrives: what stays is the other messages, and the length is lessened
by the one of its successor. -/
theorem waitMessage_ack (framed : ∀ m ∈ before ++ ack :: after, WellFramed m)
    (other : ∀ m ∈ before, typeOf m ≠ some type) (acks : typeOf ack = some type)
    (size : kept.length + room.length = pendingSize)
    (fits : (before ++ ack :: after).flatten.length ≤ room.length) (later : List Arrival) :
    ∃ (tail : List UInt8) (left : Nat),
      tail.length + (before ++ after).flatten.length = room.length ∧ ack.length ≤ tail.length ∧
      left + (successor ack after).length =
        kept.length + ((before ++ after).flatten.length + ack.length) ∧
      waitMessage type (.data (before ++ ack :: after).flatten :: later)
          ⟨kept ++ room, kept.length⟩ =
        .ok (.acked ⟨kept ++ ((before ++ after).flatten ++ tail), left⟩ (left ≠ 0)) := by
  obtain ⟨tail, length, loop⟩ := ackLoop_found framed other acks kept
    (room.drop (before ++ ack :: after).flatten.length)
  have total : (before ++ ack :: after).flatten.length =
      (before ++ after).flatten.length + ack.length := by
    simp only [List.flatten_append, List.flatten_cons, List.length_append]
    omega
  have positive := (framed ack (List.mem_append_right _ List.mem_cons_self)).positive
  have used : (before ++ ack :: after).flatten ≠ [] := by
    intro none
    rw [none, List.length_nil] at total
    omega
  have shorter : (successor ack after).length ≤ (before ++ ack :: after).flatten.length := by
    have most := length_successor_le ack after
    rw [List.flatten_append, List.flatten_cons, List.length_append, List.length_append]
    omega
  rw [List.length_drop] at length
  refine ⟨tail, kept.length + (before ++ ack :: after).flatten.length -
    (successor ack after).length, ?_, ?_, ?_, ?_⟩
  · omega
  · omega
  · omega
  · have wraps : (kept.length + (before ++ ack :: after).flatten.length + 2 ^ 32 -
        (successor ack after).length) % 2 ^ 32 =
        kept.length + (before ++ ack :: after).flatten.length -
          (successor ack after).length := by
      rw [pendingSize] at size
      omega
    rw [waitMessage_data used size fits, loop, Outcome.ok_bind]
    dsimp only
    rw [wraps]

theorem take_append_eq_left_iff {whole tail : List UInt8} {n : Nat}
    (enough : n ≤ (whole ++ tail).length) : (whole ++ tail).take n = whole ↔ n = whole.length := by
  constructor
  · intro same
    rw [← List.length_take_of_le enough, same]
  · rintro rfl
    exact List.take_left

/-- What the server keeps behind `SetWin`, when whole messages arrive and fit in the array: all
the messages but the acknowledgement, in their order, exactly when the message behind the
acknowledgement is as long as that. -/
theorem Pending.kept_iff (type : MessageType) (p : Pending)
    (reads : List (Option (List (List UInt8)))) (before : List (List UInt8)) (ack : List UInt8)
    (after : List (List UInt8)) (size : p.mem.length = pendingSize)
    (framed : ∀ m ∈ arrived reads ++ (before ++ ack :: after), WellFramed m)
    (other : ∀ m ∈ arrived reads ++ before, typeOf m ≠ some type) (acks : typeOf ack = some type)
    (used : some [] ∉ reads)
    (fits : p.len + (arrived reads ++ (before ++ ack :: after)).flatten.length ≤ pendingSize)
    (later : List Arrival) :
    ∃ p' : Pending, p'.mem.length = pendingSize ∧ p'.len ≤ pendingSize ∧
      waitMessage type (reads.map arrival ++ .data (before ++ ack :: after).flatten :: later) p =
        .ok (.acked p' (p'.len ≠ 0)) ∧
      (p'.kept = p.kept ++ (arrived reads ++ (before ++ after)).flatten ↔
        (successor ack after).length = ack.length) := by
  have inside : p.len ≤ p.mem.length := by omega
  have keep : p.kept.length = p.len := List.length_take_of_le inside
  have memory : p = ⟨p.kept ++ p.mem.drop p.len, p.kept.length⟩ := by
    rw [keep, Pending.kept, List.take_append_drop]
  rw [List.flatten_append, List.length_append] at fits
  obtain ⟨room, length, waits⟩ := @waitMessage_arrived type p.kept
    (p.mem.drop p.len) reads (fun m member => framed m (List.mem_append_left _ member))
    (fun m member => other m (List.mem_append_left _ member)) used
    (by rw [List.length_drop]; omega) (by rw [List.length_drop]; omega)
    (.data (before ++ ack :: after).flatten :: later)
  rw [List.length_drop] at length
  obtain ⟨tail, left, tails, spare, lefts, acked⟩ := @waitMessage_ack type
    (p.kept ++ (arrived reads).flatten) room before after ack
    (fun m member => framed m (List.mem_append_right _ member))
    (fun m member => other m (List.mem_append_right _ member)) acks
    (by rw [List.length_append]; omega) (by omega) later
  rw [← memory] at waits
  have messages : p.kept ++ (arrived reads ++ (before ++ after)).flatten =
      p.kept ++ (arrived reads).flatten ++ (before ++ after).flatten := by
    rw [List.flatten_append, List.append_assoc]
  have count : (p.kept ++ (arrived reads ++ (before ++ after)).flatten).length =
      p.kept.length + (arrived reads).flatten.length + (before ++ after).flatten.length := by
    rw [messages, List.length_append, List.length_append]
  have total : (before ++ ack :: after).flatten.length =
      (before ++ after).flatten.length + ack.length := by
    simp only [List.flatten_append, List.flatten_cons, List.length_append]
    omega
  rw [List.length_append] at lefts
  rw [← List.append_assoc, ← messages] at acked
  refine ⟨_, ?_, ?_, waits.trans acked, ?_⟩
  · dsimp only
    rw [List.length_append, count]
    omega
  · dsimp only
    omega
  · have enough : left ≤
        (p.kept ++ (arrived reads ++ (before ++ after)).flatten ++ tail).length := by
      rw [List.length_append, count]
      omega
    rw [Pending.kept, take_append_eq_left_iff enough, count]
    omega

end Reads

/-- A message with nothing but a header, in the room of any message. -/
def plainMessage (code : UInt8) : List UInt8 := [code, 0, 24, 0] ++ List.replicate 20 0

/-- A key arrives first; then the acknowledgement, with a request to hide the windows. -/
theorem kept_iff_ackWin :
    ∃ p' : Pending, p'.mem.length = pendingSize ∧ p'.len ≤ pendingSize ∧
      waitMessage .ackWin [.data [4, 0, 5, 0, 30], .again,
          .data (plainMessage 7 ++ plainMessage 12)] ⟨List.replicate pendingSize 0, 0⟩ =
        .ok (.acked p' (p'.len ≠ 0)) ∧
      p'.kept = [4, 0, 5, 0, 30] ++ plainMessage 12 := by
  obtain ⟨p', size, inside, acked, kept⟩ := Pending.kept_iff .ackWin
    ⟨List.replicate pendingSize 0, 0⟩ [some [[4, 0, 5, 0, 30]], none] [] (plainMessage 7)
    [plainMessage 12] List.length_replicate (by decide) (by decide) (by decide) (by decide)
    (by decide) []
  exact ⟨p', size, inside, acked, kept.mpr rfl⟩

/-- A key behind the acknowledgement instead: nineteen bytes too many are kept. -/
example : (successor (plainMessage 7) [[4, 0, 5, 0, 30]]).length ≠ (plainMessage 7).length := by
  decide

end Ucimf.FbTerm
