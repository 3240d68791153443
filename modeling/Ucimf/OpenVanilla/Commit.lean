import Ucimf.OpenVanilla.Imf

/-!
# Text committed in one key event

`commitBuffer` stores the text of a send in place of the one before it, so that a key event
returns the last text sent.
-/

namespace Ucimf.OpenVanilla

/-- The contents of the buffer at each send, for the calls issued on it. -/
def sends : Text → List BufferCall → List Text
  | _, [] => []
  | buf, .append s :: calls => sends (buf ++ s) calls
  | _, .clear :: calls => sends [] calls
  | buf, .update :: calls => sends buf calls
  | buf, .send :: calls => buf :: sends [] calls

theorem getLastD_eq_flatten_iff (texts : List Text) :
    texts.getLastD [] = texts.flatten ↔ ∀ text ∈ texts.dropLast, text = [] := by
  rcases List.eq_nil_or_concat texts with rfl | ⟨before, last, rfl⟩
  · simp
  · rw [List.concat_eq_append, List.getLastD_concat, List.dropLast_concat, List.flatten_append,
      List.flatten_singleton, ← List.flatten_eq_nil_iff]
    exact List.self_eq_append_left

namespace OVImf

variable {o : OVImf} {im : OVInputMethod} {stack : Key} {input : Text}

/-- After the calls of a key event `commit_buf` holds the last text sent. -/
theorem commitBuf_foldl_issue (o : OVImf) (calls : List BufferCall) :
    (calls.foldl issue o).commitBuf = (sends o.preedit.buf calls).getLastD o.commitBuf := by
  induction calls generalizing o with
  | nil => rfl
  | cons call calls ih =>
    rw [List.foldl_cons, ih]
    cases call with
    | append s => rfl
    | clear => rfl
    | update => rfl
    | send => exact (List.getLastD_cons ..).symm

theorem takeCommit_fst (o : OVImf) : o.takeCommit.1 = o.commitBuf := by
  unfold takeCommit
  split
  · rfl
  · next empty => exact (List.length_eq_zero_iff.mp (Nat.eq_zero_of_not_pos empty)).symm

theorem takeCommit_snd (o : OVImf) : o.takeCommit.2.commitBuf = [] := by
  unfold takeCommit
  split
  · rfl
  · next empty => exact List.length_eq_zero_iff.mp (Nat.eq_zero_of_not_pos empty)

def asked (stack : Key) (input : Text) : OVImfKeyCode := keyEventOf (decodeKey stack input)

theorem processInput_of_asked (loaded : o.im = some im)
    (asks : passThrough o.preedit (asked stack input) = none) :
    (o.processInput stack input).1 =
      (sends o.preedit.buf (im (asked stack input))).getLastD o.commitBuf := by
  rw [processInput, loaded]
  dsimp only
  rw [← asked, asks]
  dsimp only
  rw [takeCommit_fst, commitBuf_foldl_issue]

/-- When a module is asked, `process_input` returns all the texts it sends exactly when every
send but the last finds the buffer empty. -/
theorem processInput_eq_sends_iff (empty : o.commitBuf = []) (loaded : o.im = some im)
    (asks : passThrough o.preedit (asked stack input) = none) :
    (o.processInput stack input).1 = (sends o.preedit.buf (im (asked stack input))).flatten ↔
      ∀ text ∈ (sends o.preedit.buf (im (asked stack input))).dropLast, text = [] := by
  rw [processInput_of_asked loaded asks, empty, getLastD_eq_flatten_iff]

/-- The space bar sends what is composed; any other key does so and then sends itself. -/
def sendTwice : OVInputMethod := fun event =>
  if event.chr = ovkSpace then [.update, .send]
  else [.send, .append [event.chr.toNat.toUInt8], .send]

def loadedImf : OVImf where
  im := some sendTwice
  commitBuf := []
  preedit := ⟨[0xe4, 0xb8, 0xad], []⟩

theorem processInput_eq_sends_space :
    (loadedImf.processInput ⟨0, 0, 0⟩ [32]).1 =
      (sends loadedImf.preedit.buf (sendTwice (asked ⟨0, 0, 0⟩ [32]))).flatten :=
  (processInput_eq_sends_iff rfl rfl (by decide)).mpr (by decide)

/-- Of two texts sent for one key the first is lost. -/
theorem first_send_lost :
    loadedImf.commitBuf = [] ∧
      passThrough loadedImf.preedit (asked ⟨0, 0, 0⟩ [46]) = none ∧
      (loadedImf.processInput ⟨0, 0, 0⟩ [46]).1 = [46] ∧
      (sends loadedImf.preedit.buf (sendTwice (asked ⟨0, 0, 0⟩ [46]))).flatten =
        [0xe4, 0xb8, 0xad, 46] :=
  ⟨rfl, by decide, by decide, by decide⟩

end OVImf

end Ucimf.OpenVanilla
