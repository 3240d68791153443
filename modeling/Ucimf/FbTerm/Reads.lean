import Ucimf.FbTerm.Receive
import Ucimf.Support.Run

/-!
# Reads of the connection

A read brings messages that stand one behind the other in a buffer. As long as no reply harms
the messages behind it, the server takes them one by one, as they were sent.
-/

namespace Ucimf.FbTerm

open Keyboard Raw Transition

def messageType (m : List UInt8) : Option MessageType :=
  (word m 0).bind fun code => messageTypes[code]?

/-- A message that was received, and how the input methods answer meanwhile. -/
structure Delivered where
  answer : Answer
  bytes : List UInt8

/-- The server takes one message as it was sent. -/
def Server.Takes (k : Kernel) (v : Server) (m : Delivered) (v' : Server) : Prop :=
  ∃ out, handle k m.answer v m.bytes = .ok (v', out)

/-- A read of the connection: the messages received, what the buffer holds behind them, and the
input methods' answers meanwhile. -/
structure Reading where
  answer : Answer
  messages : List (List UInt8)
  rest : List UInt8

/-- The messages received, in the order in which they were sent. -/
def received (rs : List Reading) : List (List UInt8) := rs.flatMap Reading.messages

/-- The messages are whole, and no reply leaves the array or changes the messages behind. -/
def Reading.Harmless (k : Kernel) (v : Server) (r : Reading) : Prop :=
  (∀ m ∈ r.messages, WellFramed m) ∧ FbTerm.Harmless k r.answer v r.messages r.rest.length

instance (k : Kernel) (v : Server) (r : Reading) : Decidable (r.Harmless k v) :=
  inferInstanceAs (Decidable (_ ∧ _))

namespace Server

/-- `check_im_message` on an open connection. -/
def Reads (k : Kernel) (v : Server) (r : Reading) (v' : Server) : Prop :=
  v.connected = true ∧
    ∃ buf', checkImMessage k r.answer v r.messages.flatten r.rest = .ok (v', buf')

/-- The read carried out. -/
def read (k : Kernel) (v : Server) (r : Reading) : Option Server :=
  if v.connected then
    (checkImMessage k r.answer v r.messages.flatten r.rest).toOption.map Prod.fst
  else none

theorem reads_of_read {k : Kernel} (v : Server) (r : Reading) (v' : Server)
    (done : v.read k r = some v') : Reads k v r v' := by
  unfold read at done
  split at done
  · next connected =>
    obtain ⟨⟨w, buf'⟩, returned, rfl⟩ := Option.map_eq_some_iff.mp done
    cases checked : checkImMessage k r.answer v r.messages.flatten r.rest with
    | error fault =>
      rw [checked] at returned
      cases returned
    | ok result =>
      rw [checked] at returned
      exact ⟨connected, buf', checked.trans (congrArg Except.ok (Option.some.inj returned))⟩
  · cases done

/-- A read whose messages are harmless. -/
def ReadsHarmless (k : Kernel) (v : Server) (r : Reading) (v' : Server) : Prop :=
  r.Harmless k v ∧ Reads k v r v'

variable {k : Kernel} {answer : Answer} {v v' : Server}

/-- The loop over harmless messages takes one after the other. -/
theorem takes_of_harmless {msgs : List (List UInt8)} (framed : ∀ m ∈ msgs, WellFramed m)
    {fuel : Nat} (enough : msgs.length < fuel) {rest : List UInt8} (pre : List UInt8)
    (harmless : Harmless k answer v msgs rest.length) :
    ∃ v' buf', processMessages k answer fuel v (pre ++ (msgs.flatten ++ rest)) pre.length
        (pre.length + msgs.flatten.length) = .ok (v', buf') ∧
      Run (Takes k) v (msgs.map (Delivered.mk answer)) v' := by
  induction msgs generalizing v pre rest fuel with
  | nil =>
    obtain ⟨fuel, rfl⟩ := Nat.exists_eq_add_one.mpr enough
    refine ⟨v, pre ++ rest, ?_, .nil⟩
    rw [processMessages]
    exact if_neg (lt_irrefl _)
  | cons m ms ih =>
    obtain ⟨fuel, rfl⟩ := Nat.exists_eq_add_one.mpr (Nat.zero_lt_of_lt enough)
    have first := framed m List.mem_cons_self
    have placed := placed_handle k answer v first pre (ms.flatten ++ rest)
    cases handled : handle k answer v m with
    | error fault =>
      rw [Harmless, handled] at harmless
      exact harmless.elim
    | ok taken =>
      obtain ⟨w, out⟩ := taken
      rw [Harmless, handled] at harmless
      obtain ⟨inside, repeated, others⟩ := harmless
      rw [handled] at placed
      cases placed with
      | overrun long _ =>
        rw [List.length_append] at long
        omega
      | @spilt _ _ m' fits length kept done =>
        have same := (take_spill_eq_iff (b := rest)).mpr repeated
        have whole := length_spill fits
        obtain ⟨rest', room, behind⟩ : ∃ rest' : List UInt8, rest'.length = rest.length ∧
            spill out (m.length - keysOffset) (ms.flatten ++ rest) = ms.flatten ++ rest' := by
          refine ⟨_, ?_, (same ▸ List.take_append_drop ms.flatten.length _).symm⟩
          rw [List.length_drop, whole, List.length_append, Nat.add_sub_cancel_left]
        rw [behind] at done
        rw [← room] at others
        obtain ⟨v', buf', ran, run⟩ := ih (fun m' member => framed m' (.tail _ member))
          (Nat.lt_of_succ_lt_succ enough) (pre ++ m') others
        refine ⟨v', buf', ?_, ?_⟩
        · rw [List.flatten_cons, List.append_assoc, List.length_append,
            processMessages_cons first (by omega) length kept done, ← ran, List.length_append,
            length, Nat.add_assoc]
        · have start : Run (Takes k) v ([] ++ [⟨answer, m⟩]) w := Run.nil.snoc ⟨out, handled⟩
          exact start.append run

/-- A harmless read is the run of its messages. -/
theorem ReadsHarmless.takes {r : Reading} (read : ReadsHarmless k v r v') :
    Run (Takes k) v (r.messages.map (Delivered.mk r.answer)) v' := by
  obtain ⟨⟨framed, harmless⟩, -, buf', done⟩ := read
  obtain ⟨w, mem, ran, run⟩ := takes_of_harmless framed
    (Nat.lt_succ_of_le (length_le_flatten framed)) [] harmless
  rw [List.length_nil, Nat.zero_add, List.nil_append] at ran
  rw [checkImMessage, ran] at done
  cases done
  exact run

/-- Whatever is read in whatever pieces, the server takes the messages that were received. -/
theorem takes_of_reads {rs : List Reading} (run : Run (ReadsHarmless k) v rs v') :
    ∃ ms : List Delivered, ms.map Delivered.bytes = received rs ∧ Run (Takes k) v ms v' := by
  induction run with
  | nil => exact ⟨[], rfl, .nil⟩
  | @snoc rs r w w' _ read ih =>
    obtain ⟨ms, sent, before⟩ := ih
    refine ⟨_, ?_, before.append read.takes⟩
    rw [List.map_append, sent, List.map_map, received, received, List.flatMap_append,
      List.flatMap_singleton]
    exact congrArg _ (List.map_id _)

end Server

end Ucimf.FbTerm
