import Mathlib.Data.List.Infix
import Ucimf.OpenVanilla.Commit
import Ucimf.Support.Round
import Ucimf.Support.Run

/-!
# The modules of the OpenVanilla bridge

`OVImf` goes forward and backward through the input-method modules it has loaded. Each switch
deletes the context of the module before and makes and starts one of the next, to which the
key events go from then on.
-/

namespace Ucimf.OpenVanilla

open Round Transition Outcome

/-- A module of a library: the type and the name it gives, and the number it is known by. -/
structure OVModule where
  id : Nat
  moduleType : String
  localizedName : Text
  deriving DecidableEq, Repr

/-- An entry of the module directory: what `lt_dlopen` and `lt_dlsym` find, and the modules of
the library up to the first null. -/
structure LibraryEntry where
  dName : String
  handle : Bool
  getModule : Bool
  getLibVersion : Bool
  initLibrary : Bool
  libVersion : Nat
  modules : List OVModule
  deriving DecidableEq, Repr

/-- The input methods of an entry, if its library is compatible. -/
def LibraryEntry.inputMethods (ovVersion : Nat) (e : LibraryEntry) : List OVModule :=
  if ".so".toList <:+: e.dName.toList ∧ e.handle ∧ e.getModule ∧ e.getLibVersion ∧
      e.initLibrary ∧ ovVersion ≤ e.libVersion then
    e.modules.filter fun m => m.moduleType = "OVInputMethod"
  else []

/-- `mod_vector` behind the loop `while (n--)`, which takes the sorted entries from the last
to the first. -/
def scanModules (ovVersion : Nat) (namelist : List LibraryEntry) : List OVModule :=
  namelist.foldr (fun e modVector => modVector ++ e.inputMethods ovVersion) []

theorem moduleType_of_mem_inputMethods {ovVersion : Nat} {e : LibraryEntry} {m : OVModule}
    (member : m ∈ e.inputMethods ovVersion) : m.moduleType = "OVInputMethod" := by
  unfold LibraryEntry.inputMethods at member
  split at member
  · exact of_decide_eq_true (List.mem_filter.mp member).2
  · cases member

theorem moduleType_of_mem_scanModules {ovVersion : Nat} {namelist : List LibraryEntry}
    {m : OVModule} (member : m ∈ scanModules ovVersion namelist) :
    m.moduleType = "OVInputMethod" := by
  induction namelist with
  | nil => cases member
  | cons e namelist ih =>
    rcases List.mem_append.mp member with before | here
    · exact ih before
    · exact moduleType_of_mem_inputMethods here

/-- What the modules, the status window and the lookup choice get to see. -/
inductive ModuleEvent
  | initModule (im : OVModule)
  | newContext (im : OVModule) (cxt : Nat)
  | start (cxt : Nat)
  | keyEvent (cxt : Nat) (key : OVImfKeyCode)
  | delete (cxt : Nat)
  | setImfStatus (imName : Text)
  | clearLookup
  deriving DecidableEq, Repr

/-- An index outside of `mod_vector`, or a use of a context that is null or deleted. -/
inductive ModuleFault
  | range
  | nullContext
  | deletedContext
  deriving DecidableEq, Repr

/-- The members of `OVImf` that have to do with the modules; `created` counts the contexts. -/
structure Bridge where
  modVector : List OVModule
  currentModule : Int
  currentImName : Text
  im : Option OVModule
  cxt : Option Nat
  created : Nat
  commitBuf : Text
  preedit : OVImfBuffer
  log : List ModuleEvent

/-- What the modules do, by all that happened so far, their own call last: what they issue on
the buffer when they are started or get a key, whether the call returns, and whether
`newContext` gives a context. A call that throws or faults ends the call of the framework, which
`_TRAP` lets it survive. -/
structure Behaviour where
  issues : List ModuleEvent → List BufferCall
  returns : List ModuleEvent → Bool
  gives : List ModuleEvent → Bool

namespace Bridge

def note (o : Bridge) (e : ModuleEvent) : Bridge := { o with log := o.log ++ [e] }

/-- The bridge's buffer and its `commit_buf`, for the calls issued on them. -/
def buffer (o : Bridge) : OVImf := ⟨none, o.commitBuf, o.preedit⟩

def issued (b : Behaviour) (o : Bridge) : Bridge :=
  let after := (b.issues o.log).foldl OVImf.issue o.buffer
  { o with commitBuf := after.commitBuf, preedit := after.preedit }

def refresh (o : Bridge) : Bridge := o.note (.setImfStatus o.currentImName)

/-- `cxt = im->newContext()` with a context, and `cxt->start`. -/
def attach (b : Behaviour) (o : Bridge) (im : OVModule) : Bridge :=
  let cxt := o.created
  let o : Bridge := { o with
    cxt := some cxt
    created := cxt + 1
    log := o.log ++ [.newContext im cxt, .start cxt] }
  o.issued b

/-- The lines behind `cxt->start`. -/
def introduce (o : Bridge) (im : OVModule) : Bridge :=
  let o := { o with currentImName := im.localizedName }.refresh
  { o with preedit := o.preedit.clear }.note .clearLookup

/-- `OVImf::OVImf` behind the scan. Nothing traps the calls of the module here: they return and
give a context, or there is no bridge. -/
def construct (b : Behaviour) (modVector : List OVModule) : Bridge :=
  let o : Bridge := ⟨modVector, 0, [], none, none, 0, [], ⟨[], []⟩, []⟩
  match modVector with
  | [] => o
  | im :: _ => (({ o with im := some im }.note (.initModule im)).attach b im).introduce im

/-- The bridge over the libraries of a directory. -/
def load (b : Behaviour) (ovVersion : Nat) (namelist : List LibraryEntry) : Bridge :=
  construct b (scanModules ovVersion namelist)

/-- The lines behind `if( im !=0 )` of both switches, as far as the module lets them come. -/
def activate (b : Behaviour) (o : Bridge) (im : OVModule) : Except ModuleFault Bridge :=
  let called := o.note (.initModule im)
  let asked := called.note (.newContext im o.created)
  if !b.returns called.log then .ok called
  else if !b.returns asked.log then .ok asked
  else if !b.gives asked.log then .error .nullContext
  else
    let started := called.attach b im
    .ok (if b.returns started.log then started.introduce im else started)

/-- The pointer is to a deleted context. -/
def dangles (o : Bridge) (cxt : Nat) : Bool := ModuleEvent.delete cxt ∈ o.log

/-- `delete cxt`. -/
def deleteCxt (o : Bridge) : Except ModuleFault Bridge :=
  match o.cxt with
  | none => .ok o
  | some cxt => if o.dangles cxt then .error .deletedContext else .ok (o.note (.delete cxt))

/-- The lines behind the new value of `current_module`. -/
def switchTo (b : Behaviour) (o : Bridge) (module : Int) : Except ModuleFault Bridge :=
  if module < 0 then .error .range
  else
    match o.modVector[module.toNat]? with
    | none => .error .range
    | some im => do
      let o ← { o with currentModule := module, im := some im }.deleteCxt
      o.activate b im

def switchIm (b : Behaviour) (o : Bridge) : Except ModuleFault Bridge :=
  match o.im with
  | none => .ok o
  | some _ =>
    let module := o.currentModule + 1
    o.switchTo b (if o.modVector.length ≤ module then 0 else module)

def switchImReverse (b : Behaviour) (o : Bridge) : Except ModuleFault Bridge :=
  match o.im with
  | none => .ok o
  | some _ =>
    let module := o.currentModule - 1
    o.switchTo b (if module < 0 then o.modVector.length - 1 else module)

/-- `OVImf::process_input` with the context that the key event goes to. When that does not return,
`commit_buf` stays and there is no result. -/
def processInput (b : Behaviour) (o : Bridge) (stack : OVImf.Key) (buf : Text) :
    Except ModuleFault (Text × Bridge) :=
  match o.im with
  | none => .ok ([], o)
  | some _ =>
    let event := OVImf.keyEventOf (OVImf.decodeKey stack buf)
    match OVImf.passThrough o.preedit event with
    | some result => .ok (result, o)
    | none =>
      match o.cxt with
      | none => .error .nullContext
      | some cxt =>
        if o.dangles cxt then .error .deletedContext
        else
          let o := (o.note (.keyEvent cxt event)).issued b
          if b.returns o.log then
            let taken := o.buffer.takeCommit
            .ok (taken.1, { o with commitBuf := taken.2.commitBuf })
          else .ok ([], o)

end Bridge

/-- A call of the framework. -/
inductive ModuleCall
  | processInput (stack : OVImf.Key) (buf : Text)
  | switchIm
  | switchImReverse
  | refresh

namespace Bridge

def exec (b : Behaviour) (o : Bridge) : ModuleCall → Except ModuleFault Bridge
  | .processInput stack buf => Prod.snd <$> o.processInput b stack buf
  | .switchIm => o.switchIm b
  | .switchImReverse => o.switchImReverse b
  | .refresh => .ok o.refresh

end Bridge

/-! ### The life of a context -/

/-- What has become of the contexts: none is alive, a module is about to make one, it is made,
or it runs. -/
inductive Phase
  | idle
  | ready (im : OVModule)
  | made (im : OVModule) (cxt : Nat)
  | running (im : OVModule) (cxt : Nat)
  deriving DecidableEq, Repr

/-- The context that is alive. -/
def Phase.cxt : Phase → Option Nat
  | .idle => none
  | .ready _ => none
  | .made _ cxt => some cxt
  | .running _ cxt => some cxt

/-- The contexts made so far and the phase. One context is alive at a time; it is new, it is
started before it gets keys, and it is deleted before the next module is initialized. -/
inductive Life : Nat × Phase → ModuleEvent → Nat × Phase → Prop
  | initModule {n : Nat} {im : OVModule} : Life (n, .idle) (.initModule im) (n, .ready im)
  | newContext {n : Nat} {im : OVModule} :
      Life (n, .ready im) (.newContext im n) (n + 1, .made im n)
  | start {n cxt : Nat} {im : OVModule} :
      Life (n, .made im cxt) (.start cxt) (n, .running im cxt)
  | keyEvent {n cxt : Nat} {im : OVModule} {key : OVImfKeyCode} :
      Life (n, .running im cxt) (.keyEvent cxt key) (n, .running im cxt)
  | status {n cxt : Nat} {im : OVModule} {name : Text} :
      Life (n, .running im cxt) (.setImfStatus name) (n, .running im cxt)
  | clearLookup {n cxt : Nat} {im : OVModule} :
      Life (n, .running im cxt) .clearLookup (n, .running im cxt)
  | delete {n cxt : Nat} {im : OVModule} : Life (n, .running im cxt) (.delete cxt) (n, .idle)

/-- The numbers of the contexts tell them apart: the one that is alive is not deleted. -/
theorem contexts_of_life {log : List ModuleEvent} {s : Nat × Phase}
    (life : Run Life (0, .idle) log s) :
    (∀ cxt, s.2.cxt = some cxt → cxt < s.1 ∧ .delete cxt ∉ log) ∧
      ∀ cxt, .delete cxt ∈ log → cxt < s.1 := by
  induction life with
  | nil => exact ⟨nofun, nofun⟩
  | @snoc log e s t _ event ih =>
    obtain ⟨alive, deleted⟩ := ih
    cases event with
    | initModule => exact ⟨nofun, by simpa using deleted⟩
    | @newContext n im =>
      have past : ∀ cxt, ModuleEvent.delete cxt ∈ log → cxt < n + 1 := fun cxt member =>
        Nat.lt_succ_of_lt (deleted cxt member)
      refine ⟨fun cxt same => ?_, by simpa using past⟩
      obtain rfl : n = cxt := Option.some.inj same
      refine ⟨Nat.lt_succ_self n, fun member => ?_⟩
      exact absurd (deleted n (by simpa using member)) (lt_irrefl n)
    | start => exact ⟨by simpa [Phase.cxt] using alive, by simpa using deleted⟩
    | keyEvent => exact ⟨by simpa [Phase.cxt] using alive, by simpa using deleted⟩
    | status => exact ⟨by simpa [Phase.cxt] using alive, by simpa using deleted⟩
    | clearLookup => exact ⟨by simpa [Phase.cxt] using alive, by simpa using deleted⟩
    | @delete n cxt im =>
      refine ⟨nofun, fun other member => ?_⟩
      rcases List.mem_append.mp member with before | last
      · exact deleted other before
      · have same : other = cxt := by simpa using last
        rw [same]
        exact (alive cxt rfl).1

/-- How far the calls have gone forward. -/
def ModuleCall.turn : ModuleCall → Int
  | .switchIm => 1
  | .switchImReverse => -1
  | _ => 0

def turns (calls : List ModuleCall) : Int := (calls.map ModuleCall.turn).sum

namespace Bridge

variable {b : Behaviour} {modVector : List OVModule} {o o' : Bridge} {d : Int} {im next : OVModule}
  {cxt : Nat} {call : ModuleCall} {calls : List ModuleCall}

/-- The module `d` steps on is held. -/
structure Placed (modVector : List OVModule) (d : Int) (o : Bridge) (im : OVModule) : Prop where
  list : o.modVector = modVector
  current : o.currentModule = place modVector.length d
  member : modVector[place modVector.length d]? = some im
  held : o.im = some im

/-- The module `d` steps on is held, and its context is the one that is alive. -/
structure Serves (modVector : List OVModule) (d : Int) (o : Bridge) (im : OVModule) (cxt : Nat) :
    Prop extends Placed modVector d o im where
  alive : o.cxt = some cxt
  life : Run Life (0, .idle) o.log (o.created, .running im cxt)

theorem Placed.used (h : o.Placed modVector d im) : 0 < modVector.length :=
  Nat.zero_lt_of_lt (List.getElem?_eq_some_iff.mp h.member).1

theorem Serves.not_dangles (h : o.Serves modVector d im cxt) : o.dangles cxt = false :=
  decide_eq_false ((contexts_of_life h.life).1 cxt rfl).2

/-! ### Switches -/

/-- A switch goes on to the next place in its direction. -/
theorem Placed.exec_eq (h : o.Placed modVector d im) (b : Behaviour) (moves : call.turn ≠ 0) :
    o.exec b call = o.switchTo b (place modVector.length (d + call.turn) : Nat) := by
  have inside := place_lt h.used d
  cases call with
  | processInput stack buf => exact absurd rfl moves
  | refresh => exact absurd rfl moves
  | switchIm =>
    have turned : (if (o.modVector.length : Int) ≤ o.currentModule + 1 then 0
        else o.currentModule + 1) = (place modVector.length (d + 1) : Nat) := by
      rw [← forward_place h.used, forward, h.list, h.current]
      split <;> split <;> omega
    change o.switchIm b = _
    unfold switchIm
    rw [h.held]
    dsimp only
    rw [turned]
    rfl
  | switchImReverse =>
    have turned : (if o.currentModule - 1 < 0 then (o.modVector.length : Int) - 1
        else o.currentModule - 1) = (place modVector.length (d - 1) : Nat) := by
      rw [← backward_place h.used, backward, h.list, h.current]
      split <;> split <;> omega
    change o.switchImReverse b = _
    unfold switchImReverse
    rw [h.held]
    dsimp only
    rw [turned]
    rfl

/-- The place of a switch is in the list. -/
theorem Placed.switchTo_eq (h : o.Placed modVector d im) (b : Behaviour) (e : Int) :
    ∃ next, let moved : Bridge :=
        { o with currentModule := (place modVector.length e : Nat), im := some next }
      modVector[place modVector.length e]? = some next ∧ moved.Placed modVector e next ∧
        o.switchTo b (place modVector.length e : Nat) =
          moved.deleteCxt >>= fun o => o.activate b next := by
  have inside := place_lt h.used e
  have member : modVector[place modVector.length e]? = some modVector[place modVector.length e] :=
    List.getElem?_eq_getElem inside
  refine ⟨_, member, ⟨h.list, rfl, member, rfl⟩, ?_⟩
  have found : o.modVector[place modVector.length e]? =
      some modVector[place modVector.length e] := by
    rw [h.list]
    exact member
  unfold Bridge.switchTo
  rw [if_neg (Int.not_lt.mpr (Int.natCast_nonneg _)), Int.toNat_natCast, found]

/-- Whether or not the module lets it come to its end, an activation leaves the place. -/
theorem Placed.activate (h : o.Placed modVector d im) (b : Behaviour) (next : OVModule) :
    Ends (· ≠ ModuleFault.range) (o.activate b next) (·.Placed modVector d im) := by
  unfold Bridge.activate
  dsimp only
  split
  · exact { h with }
  · split
    · exact { h with }
    · split
      · exact nofun
      · rw [ends_ok]
        split
        · exact { h with }
        · exact { h with }

theorem Placed.deleteCxt (h : o.Placed modVector d im) :
    Ends (· ≠ ModuleFault.range) o.deleteCxt (·.Placed modVector d im) := by
  unfold Bridge.deleteCxt
  split
  · exact h
  · split
    · exact nofun
    · exact { h with }

theorem Placed.processInput (h : o.Placed modVector d im) (b : Behaviour) (stack : OVImf.Key)
    (buf : Text) :
    Ends (· ≠ ModuleFault.range) (o.processInput b stack buf) (·.2.Placed modVector d im) := by
  unfold Bridge.processInput
  rw [h.held]
  dsimp only
  split
  · exact h
  · split
    · exact nofun
    · split
      · exact nofun
      · split
        · exact { h with }
        · exact { h with }

/-- No call leaves the list, whatever the modules do. -/
theorem Placed.exec (h : o.Placed modVector d im) (b : Behaviour) (call : ModuleCall) :
    Ends (· ≠ ModuleFault.range) (o.exec b call)
      (fun o' => ∃ next, o'.Placed modVector (d + call.turn) next) := by
  by_cases moves : call.turn = 0
  · rw [moves, Int.add_zero]
    cases call with
    | processInput stack buf => exact (h.processInput b stack buf).map fun r placed => ⟨im, placed⟩
    | refresh => exact ⟨im, { h with }⟩
    | switchIm => cases moves
    | switchImReverse => cases moves
  · obtain ⟨next, -, placed, switched⟩ := h.switchTo_eq b (d + call.turn)
    rw [h.exec_eq b moves, switched]
    exact placed.deleteCxt.bind fun o there => (there.activate b next).mono fun o' still =>
      ⟨next, still⟩

/-! ### Contexts -/

/-- `initialize` and `newContext` of a module return, with a context. -/
structure Granted (b : Behaviour) (log : List ModuleEvent) (created : Nat) (im : OVModule) :
    Prop where
  initialized : b.returns (log ++ [.initModule im]) = true
  returned : b.returns (log ++ [.initModule im] ++ [.newContext im created]) = true
  given : b.gives (log ++ [.initModule im] ++ [.newContext im created]) = true

/-- A module that is granted a context while none is alive has it running, even when `start` does
not return. -/
theorem serves_activate (placed : o.Placed modVector d im)
    (idle : Run Life (0, .idle) o.log (o.created, .idle)) (granted : Granted b o.log o.created im) :
    ∃ o', o.activate b im = .ok o' ∧ o'.Serves modVector d im o.created := by
  let started := (o.note (.initModule im)).attach b im
  have running : Run Life (0, .idle) started.log (o.created + 1, .running im o.created) := by
    have made := (idle.snoc (@Life.initModule o.created im)).snoc .newContext
    have begun := made.snoc .start
    rw [List.append_assoc (o.log ++ _)] at begun
    exact begun
  have serves : started.Serves modVector d im o.created := { placed with
    alive := rfl
    life := running }
  refine ⟨if b.returns started.log then started.introduce im else started, ?_, ?_⟩
  · unfold activate
    dsimp only
    have initialized : b.returns (o.note (.initModule im)).log = true := granted.initialized
    have returned : b.returns
        ((o.note (.initModule im)).note (.newContext im o.created)).log = true := granted.returned
    have given : b.gives
        ((o.note (.initModule im)).note (.newContext im o.created)).log = true := granted.given
    rw [initialized, returned, given]
    rfl
  · split
    · exact { serves with life := (serves.life.snoc .status).snoc .clearLookup }
    · exact serves

/-- An activation leaves a context running only if it was granted. -/
theorem granted_of_activate (done : o.activate b im = .ok o') {s t : Nat × Phase}
    (life : Run Life s o'.log t) (runs : t.2 = .running next cxt) :
    Granted b o.log o.created im := by
  unfold activate at done
  dsimp only at done
  split at done
  · cases done
    obtain ⟨_, _, event⟩ := life.last
    cases event
    cases runs
  · next initialized =>
    split at done
    · cases done
      obtain ⟨_, _, event⟩ := life.last
      cases event
      cases runs
    · next returned =>
      split at done
      · cases done
      · next given =>
        rw [Bool.not_eq_true, Bool.not_eq_false'] at initialized returned given
        exact ⟨initialized, returned, given⟩

theorem deleteCxt_eq (alive : o.cxt = some cxt) (kept : o.dangles cxt = false) :
    o.deleteCxt = .ok (o.note (.delete cxt)) := by
  unfold Bridge.deleteCxt
  rw [alive]
  dsimp only
  rw [kept]
  rfl

/-- A switch deletes the context that runs before the next module is activated. -/
theorem Serves.exec_switch (h : o.Serves modVector d im cxt) (b : Behaviour)
    (moves : call.turn ≠ 0) :
    ∃ next, let deleted : Bridge := { o with
          currentModule := (place modVector.length (d + call.turn) : Nat)
          im := some next
          log := o.log ++ [.delete cxt] }
      modVector[place modVector.length (d + call.turn)]? = some next ∧
        deleted.Placed modVector (d + call.turn) next ∧
          o.exec b call = deleted.activate b next := by
  obtain ⟨next, member, placed, switched⟩ := h.switchTo_eq b (d + call.turn)
  have deleted := deleteCxt_eq (o := { o with
    currentModule := (place modVector.length (d + call.turn) : Nat)
    im := some next }) h.alive h.not_dangles
  refine ⟨next, member, { placed with }, ?_⟩
  rw [h.exec_eq b moves, switched, deleted]
  rfl

/-- A key event goes to the context that runs, and the event may fail. -/
theorem Serves.processInput (h : o.Serves modVector d im cxt) (b : Behaviour) (stack : OVImf.Key)
    (buf : Text) : ∃ r, o.processInput b stack buf = .ok r ∧ r.2.Serves modVector d im cxt := by
  unfold Bridge.processInput
  rw [h.held]
  dsimp only
  split
  · exact ⟨_, rfl, h⟩
  · rw [h.alive]
    dsimp only
    rw [h.not_dangles, if_neg Bool.false_ne_true]
    split
    · exact ⟨_, rfl, { h with life := h.life.snoc .keyEvent }⟩
    · exact ⟨_, rfl, { h with life := h.life.snoc .keyEvent }⟩

/-- A call is served when a module that it switches to is granted a context. -/
theorem Serves.exec (h : o.Serves modVector d im cxt) (b : Behaviour) (call : ModuleCall)
    (granted : call.turn ≠ 0 → ∀ next,
      modVector[place modVector.length (d + call.turn)]? = some next →
        Granted b (o.log ++ [.delete cxt]) o.created next) :
    ∃ o' next cxt', o.exec b call = .ok o' ∧ o'.Serves modVector (d + call.turn) next cxt' := by
  by_cases moves : call.turn = 0
  · rw [moves, Int.add_zero]
    cases call with
    | switchIm => cases moves
    | switchImReverse => cases moves
    | refresh => exact ⟨o.refresh, im, cxt, rfl, { h with life := h.life.snoc .status }⟩
    | processInput stack buf =>
      obtain ⟨r, ran, serves⟩ := h.processInput b stack buf
      exact ⟨r.2, im, cxt, map_eq_ok.mpr ⟨r, ran, rfl⟩, serves⟩
  · obtain ⟨next, member, placed, switched⟩ := h.exec_switch b moves
    obtain ⟨o', done, serves⟩ :=
      serves_activate placed (h.life.snoc .delete) (granted moves next member)
    exact ⟨o', next, o.created, switched.trans done, serves⟩

/-- Behind a switch a context runs only if the module was granted it. -/
theorem Serves.granted (h : o.Serves modVector d im cxt) (moves : call.turn ≠ 0) {cxt' : Nat}
    {im' : OVModule} (done : o.exec b call = .ok o')
    (serves : o'.Serves modVector (d + call.turn) im' cxt')
    (member : modVector[place modVector.length (d + call.turn)]? = some next) :
    Granted b (o.log ++ [.delete cxt]) o.created next := by
  obtain ⟨next', member', -, switched⟩ := h.exec_switch b moves
  obtain rfl : next' = next := Option.some.inj (member'.symm.trans member)
  exact granted_of_activate (switched.symm.trans done) serves.life rfl

/-! ### Runs -/

theorem turns_snoc (calls : List ModuleCall) (call : ModuleCall) :
    turns (calls ++ [call]) = turns calls + call.turn := by
  rw [turns, List.map_append, List.sum_append, List.map_singleton, List.sum_singleton, turns]

theorem foldlM_snoc (b : Behaviour) (calls : List ModuleCall) (call : ModuleCall) (o : Bridge) :
    (calls ++ [call]).foldlM (Bridge.exec b) o =
      calls.foldlM (Bridge.exec b) o >>= fun o' => o'.exec b call := by
  rw [List.foldlM_append]
  refine bind_congr fun o' => ?_
  rw [List.foldlM_cons]
  exact bind_pure _

/-- Every module that the calls switch to is granted a context. -/
def Grants (b : Behaviour) (start : Bridge) (calls : List ModuleCall) : Prop :=
  ∀ before call o cxt next, before ++ [call] <+: calls → call.turn ≠ 0 →
    before.foldlM (Bridge.exec b) start = .ok o → o.cxt = some cxt →
    start.modVector[place start.modVector.length (turns (before ++ [call]))]? = some next →
    Granted b (o.log ++ [.delete cxt]) o.created next

theorem Grants.initial {start : Bridge} {before : List ModuleCall} (grants : Grants b start calls)
    (initial : before <+: calls) : Grants b start before :=
  fun first call o cxt next inside => grants first call o cxt next (inside.trans initial)

theorem placed_run (h : o.Placed modVector 0 im) (b : Behaviour) (calls : List ModuleCall) :
    Ends (· ≠ ModuleFault.range) (calls.foldlM (Bridge.exec b) o)
      (fun o' => ∃ next, o'.Placed modVector (turns calls) next) := by
  induction calls using List.reverseRecOn with
  | nil => exact ⟨im, h⟩
  | append_singleton calls call ih =>
    rw [foldlM_snoc, turns_snoc]
    exact ih.bind fun o' ⟨next, there⟩ => there.exec b call

theorem serves_run (h : o.Serves modVector 0 im cxt) (grants : Grants b o calls) :
    ∃ o' next cxt', calls.foldlM (Bridge.exec b) o = .ok o' ∧
      o'.Serves modVector (turns calls) next cxt' := by
  induction calls using List.reverseRecOn with
  | nil => exact ⟨o, im, cxt, rfl, h⟩
  | append_singleton calls call ih =>
    obtain ⟨mid, im₁, cxt₁, ran, there⟩ := ih (grants.initial (List.prefix_append _ _))
    have granted := grants calls call mid cxt₁
    rw [h.list, turns_snoc] at granted
    obtain ⟨o', next, cxt', done, serves⟩ := there.exec b call fun moves next member =>
      granted next List.prefix_rfl moves ran there.alive member
    refine ⟨o', next, cxt', ?_, ?_⟩
    · rw [foldlM_snoc, ran]
      exact done
    · rw [turns_snoc]
      exact serves

theorem serves_construct (b : Behaviour) (first : OVModule) (others : List OVModule) :
    (construct b (first :: others)).Serves (first :: others) 0 first 0 where
  list := rfl
  current := rfl
  member := rfl
  held := rfl
  alive := rfl
  life := by
    have made := (Run.nil.snoc (@Life.initModule 0 first)).snoc .newContext
    exact ((made.snoc .start).snoc .status).snoc .clearLookup

/-- Whatever the modules do, no call leaves their list. In every state of a run the module as far
on as the switches have gone is held, with a context that is new, started and the only one alive,
exactly when every module that was switched to was granted one: otherwise the bridge keeps a
context that is deleted, or starts one that is null. -/
theorem lives (b : Behaviour) (first : OVModule) (others : List OVModule)
    (calls : List ModuleCall) :
    calls.foldlM (Bridge.exec b) (construct b (first :: others)) ≠ .error .range ∧
      ((∀ before, before <+: calls → ∃ o im cxt,
        before.foldlM (Bridge.exec b) (construct b (first :: others)) = .ok o ∧
          o.Serves (first :: others) (turns before) im cxt) ↔
        Grants b (construct b (first :: others)) calls) := by
  have start := serves_construct b first others
  refine ⟨fun left => ?_, fun served => ?_, fun grants before inside => ?_⟩
  · have ends := placed_run start.toPlaced b calls
    rw [left] at ends
    exact ends rfl
  · intro before call o cxt next inside moves ran alive member
    rw [turns_snoc] at member
    obtain ⟨o₁, im₁, cxt₁, ran₁, there⟩ := served before ((List.prefix_append _ _).trans inside)
    obtain rfl : o₁ = o := Except.ok.inj (ran₁.symm.trans ran)
    obtain rfl : cxt₁ = cxt := Option.some.inj (there.alive.symm.trans alive)
    obtain ⟨o', im', cxt', done, behind⟩ := served (before ++ [call]) inside
    rw [foldlM_snoc, ran] at done
    rw [turns_snoc] at behind
    exact there.granted moves done behind member
  · exact serves_run start (grants.initial inside)

/-- Without a module the bridge does nothing. -/
theorem exec_none (b : Behaviour) (empty : o.im = none) (call : ModuleCall) :
    ∃ o', o.exec b call = .ok o' ∧ o'.im = none := by
  cases call with
  | processInput stack buf =>
    refine ⟨o, map_eq_ok.mpr ⟨([], o), ?_, rfl⟩, empty⟩
    unfold Bridge.processInput
    rw [empty]
  | switchIm =>
    refine ⟨o, ?_, empty⟩
    change o.switchIm b = _
    unfold switchIm
    rw [empty]
  | switchImReverse =>
    refine ⟨o, ?_, empty⟩
    change o.switchImReverse b = _
    unfold switchImReverse
    rw [empty]
  | refresh => exact ⟨o.refresh, rfl, empty⟩

theorem none_run (b : Behaviour) (empty : o.im = none) (calls : List ModuleCall) :
    Ends (· ≠ ModuleFault.range) (calls.foldlM (Bridge.exec b) o) (·.im = none) :=
  Ends.foldlM (fun _ (o : Bridge) => o.im = none)
    (fun call _ _ none => .of_exists (exec_none b none call)) empty

/-- Every module held is an input method, as the cast of the bridge has it. -/
theorem inputMethod_of_load (b : Behaviour) (ovVersion : Nat) (namelist : List LibraryEntry)
    (done : calls.foldlM (Bridge.exec b) (load b ovVersion namelist) = .ok o)
    (held : o.im = some im) : im.moduleType = "OVInputMethod" := by
  have scanned : ∀ m ∈ scanModules ovVersion namelist, m.moduleType = "OVInputMethod" :=
    fun m member => moduleType_of_mem_scanModules member
  unfold load at done
  cases list : scanModules ovVersion namelist with
  | nil =>
    rw [list] at done
    have idle : (construct b []).im = none := rfl
    rw [(none_run b idle calls).of_ok done] at held
    cases held
  | cons first others =>
    rw [list] at done scanned
    have ends := placed_run (serves_construct b first others).toPlaced b calls
    obtain ⟨next, placed⟩ := ends.of_ok done
    rw [placed.held] at held
    cases held
    exact scanned im (List.mem_of_getElem? placed.member)

/-! ### The buffer -/

/-- The bridge as its buffer sees it: the module is the context that runs. -/
def toOVImf (b : Behaviour) (o : Bridge) (cxt : Nat) : OVImf where
  im := o.im.map fun _ event => b.issues (o.log ++ [.keyEvent cxt event])
  commitBuf := o.commitBuf
  preedit := o.preedit

/-- The buffer does not ask which module issues the calls. -/
theorem foldl_issue_same (o o' : OVImf) (commitBuf : o.commitBuf = o'.commitBuf)
    (preedit : o.preedit = o'.preedit) (calls : List BufferCall) :
    (calls.foldl OVImf.issue o).commitBuf = (calls.foldl OVImf.issue o').commitBuf ∧
      (calls.foldl OVImf.issue o).preedit = (calls.foldl OVImf.issue o').preedit := by
  induction calls generalizing o o' with
  | nil => exact ⟨commitBuf, preedit⟩
  | cons call calls ih =>
    rw [List.foldl_cons, List.foldl_cons]
    apply ih
    · cases call with
      | append s => exact commitBuf
      | clear => exact commitBuf
      | update => exact commitBuf
      | send => exact congrArg OVImfBuffer.buf preedit
    · cases call with
      | append s => exact congrArg (OVImfBuffer.append · s) preedit
      | clear => exact congrArg OVImfBuffer.clear preedit
      | update => exact congrArg OVImfBuffer.update preedit
      | send => exact congrArg OVImfBuffer.clear preedit

theorem preedit_takeCommit (o : OVImf) : o.takeCommit.2.preedit = o.preedit := by
  unfold OVImf.takeCommit
  split <;> rfl

/-- Seen from the buffer, a key is processed as by a single module. -/
theorem Serves.processInput_toOVImf (h : o.Serves modVector d im cxt)
    (returns : ∀ event, b.returns (o.log ++ [.keyEvent cxt event]) = true) (stack : OVImf.Key)
    (buf : Text) :
    ∃ o', o.processInput b stack buf = .ok (((o.toOVImf b cxt).processInput stack buf).1, o') ∧
      o'.commitBuf = ((o.toOVImf b cxt).processInput stack buf).2.commitBuf ∧
      o'.preedit = ((o.toOVImf b cxt).processInput stack buf).2.preedit := by
  have loaded : (o.toOVImf b cxt).im =
      some fun event => b.issues (o.log ++ [.keyEvent cxt event]) := by
    rw [toOVImf, h.held]
    rfl
  unfold Bridge.processInput OVImf.processInput
  rw [h.held, loaded]
  dsimp only
  have same : (o.toOVImf b cxt).preedit = o.preedit := rfl
  rw [same]
  generalize OVImf.keyEventOf (OVImf.decodeKey stack buf) = event
  cases OVImf.passThrough o.preedit event with
  | some result => exact ⟨o, rfl, rfl, rfl⟩
  | none =>
    rw [h.alive]
    dsimp only
    rw [h.not_dangles, if_neg Bool.false_ne_true]
    let next := (o.note (.keyEvent cxt event)).issued b
    have returned : b.returns next.log = true := returns event
    rw [if_pos returned]
    have same := foldl_issue_same (o.toOVImf b cxt) o.buffer rfl rfl
      (b.issues (o.log ++ [.keyEvent cxt event]))
    have text : _ = next.commitBuf := same.1
    have buffer : _ = next.preedit := same.2
    refine ⟨{ next with commitBuf := next.buffer.takeCommit.2.commitBuf }, ?_, ?_, ?_⟩
    · rw [OVImf.takeCommit_fst, OVImf.takeCommit_fst, text]
      rfl
    · dsimp only
      rw [OVImf.takeCommit_snd, OVImf.takeCommit_snd]
    · dsimp only
      rw [preedit_takeCommit, buffer]

end Bridge

end Ucimf.OpenVanilla
