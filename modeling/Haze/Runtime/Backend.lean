import Haze.Lib.DoubleChecked
import Haze.Runtime.Calls

/-!
# Initializing the backend from several threads

`ensure_initialized` and `reset` of `core/backend.cpp`, cut where other threads may come in between:
the flag is read without the mutex and again with it, and every getter of the configuration takes the
configuration's own mutex. Other threads may set the configuration meanwhile.

`World.ensureInitialized` does all of this at once. `ensureInitialized_atomic` says that the callers
see nothing else, as long as no thread sets what the initialization reads while it runs.
-/

namespace Haze

open DoubleChecked

variable {T P M : Type}

/-! ## The setters of the configuration -/

/-- The method of the configuration that a call runs. -/
def ConfigCall.method : ConfigCall → Config.Method Unit
  | .setCiphertextModulus index modulus => Config.setModulus index modulus
  | .setTwiddleFactors index generator => Config.setTwiddleGenerator index generator
  | .configureDevice => Config.configureDevice
  | .setProgramInfo name version description => Config.setProgramInfo name version description
  | .setTarget target => Config.setTarget target
  | .setProgramDirectory dir => Config.setProgramDirectory dir
  | .setMontgomery enable => Expected.modify fun c => { c with montgomery := enable != 0 }
  | .setBitReversal enable => Expected.modify fun c => { c with bitReversal := enable != 0 }
  | .setReducedNoise enable => Expected.modify fun c => { c with reducedNoise := enable != 0 }

/-- A configuration call changes the configuration alone. -/
theorem ConfigCall.run_state (call : ConfigCall) (w : World P M) :
    (call.run w).2 = { w with config := (call.method w.config).2 } := by
  cases call <;> exact Shim.replyWith_state _ (World.onConfig _) w

/-- The setters of what the initialization does not read. -/
def ConfigCall.Unread : ConfigCall → Prop
  | .setCiphertextModulus _ _ => True
  | .setTwiddleFactors _ _ => True
  | .configureDevice => True
  | .setReducedNoise _ => True
  | _ => False

/-- Two configurations are the same to the initialization. -/
structure Config.ReadsAs (c d : Config) : Prop where
  montgomery : d.montgomery = c.montgomery
  bitReversal : d.bitReversal = c.bitReversal
  target : d.target = c.target
  program : d.program = c.program
  programDir : d.programDir = c.programDir

/-- Such a setter leaves all that the initialization reads. -/
theorem ConfigCall.Unread.readsAs {call : ConfigCall} (h : call.Unread) (c : Config) :
    c.ReadsAs (call.method c).2 := by
  cases call with
  | setCiphertextModulus index modulus =>
    unfold method Config.setModulus
    dsimp only
    split_ifs <;> exact ⟨rfl, rfl, rfl, rfl, rfl⟩
  | setTwiddleFactors index generator =>
    unfold method Config.setTwiddleGenerator
    dsimp only
    split_ifs <;> exact ⟨rfl, rfl, rfl, rfl, rfl⟩
  | configureDevice =>
    unfold method Config.configureDevice
    dsimp only
    split_ifs <;> exact ⟨rfl, rfl, rfl, rfl, rfl⟩
  | setReducedNoise enable => exact ⟨rfl, rfl, rfl, rfl, rfl⟩
  | _ => exact h.elim

/-! ## The steps of an initialization -/

/-- What the initialization does next, with what it has read so far. -/
inductive Reading where
  | montgomery
  | bitReversal (montgomery : Bool)
  /-- The target is read for the check of the data format. -/
  | format (montgomery bitReversal : Bool)
  | programName (montgomery bitReversal : Bool)
  | programVersion (montgomery bitReversal : Bool) (name : String)
  | programDescription (montgomery bitReversal : Bool) (name version : String)
  | target (montgomery bitReversal : Bool) (name version description : String)
  | init (montgomery bitReversal : Bool) (name version description target : String)
  | setProgramInfo (name version description : String)
  | hasProgramDirectory
  | programDirectory
  | setProgramDirectory (dir : String)
  | suppressProbes

/-- The arguments of the compiler for what was read. -/
def argv (montgomery bitReversal : Bool) (name target : String) : List String :=
  [name, "--target=" ++ target] ++
    (if montgomery then ["--montgomery"] else []) ++
    (if bitReversal then ["--bit_reversal"] else []) ++
    ["--no-ring-dim-check", "--no-prime-check"]

/-- Make a call to the compiler. -/
def World.called (c : CompilerCall P M) (w : World P M) : World P M :=
  { w with compiler := w.compiler ++ [c] }

/-- One step of an initialization. -/
inductive Reading.Next : Reading × World P M → Reading × World P M → Prop
  | montgomery (w) : Next (.montgomery, w) (.bitReversal w.config.montgomery, w)
  | ordinary {m w} (h : (m || w.config.bitReversal) = false) :
      Next (.bitReversal m, w) (.programName m w.config.bitReversal, w)
  | format {m w} (h : (m || w.config.bitReversal) = true) :
      Next (.bitReversal m, w) (.format m w.config.bitReversal, w)
  | supported {m b w} (h : (w.config.target == kLocalTarget) = false) :
      Next (.format m b, w) (.programName m b, w)
  | programName (m b w) : Next (.programName m b, w) (.programVersion m b w.config.program.1, w)
  | programVersion (m b name w) : Next (.programVersion m b name, w)
      (.programDescription m b name w.config.program.2.1, w)
  | programDescription (m b name version w) : Next (.programDescription m b name version, w)
      (.target m b name version w.config.program.2.2, w)
  | target (m b name version description w) : Next (.target m b name version description, w)
      (.init m b name version description w.config.target, w)
  | init (m b name version description target w) :
      Next (.init m b name version description target, w)
        (.setProgramInfo name version description, w.called (.init (argv m b name target)))
  | setProgramInfo (name version description w) : Next (.setProgramInfo name version description, w)
      (.hasProgramDirectory, w.called (.setProgramInfo name version description))
  | noDirectory {w} (h : w.config.programDir = none) :
      Next (.hasProgramDirectory, w) (.suppressProbes, w)
  | directory {w} (h : w.config.programDir ≠ none) :
      Next (.hasProgramDirectory, w) (.programDirectory, w)
  | programDirectory (w) : Next (.programDirectory, w)
      (.setProgramDirectory (w.config.programDir.getD ""), w)
  | setProgramDirectory (dir w) : Next (.setProgramDirectory dir, w)
      (.suppressProbes, w.called (.setProgramDirectory dir))

/-- The last step of an initialization, and whether it succeeds. -/
inductive Reading.Stop : Reading × World P M → Bool × World P M → Prop
  | refused {m b w} (h : (w.config.target == kLocalTarget) = true) : Stop (.format m b, w) (false, w)
  | throws (m b name version description target w) :
      Stop (.init m b name version description target, w)
        (false, w.called (.init (argv m b name target)))
  | suppressProbes (w) : Stop (.suppressProbes, w) (true, w.called .suppressProbes)

/-- The backend's flag, its initialization and the setters of the configuration. -/
def backend : Object (World P M) Reading ConfigCall where
  up := World.initialized
  setUp up w := { w with initialized := up }
  enter := .montgomery
  step := Reading.Next
  stop := Reading.Stop
  other call w w' := w' = (call.run w).2

/-- Replies with which an initialization of the compiler returns, or not. -/
def initReplies (initReturns : Bool) : CompilerReplies P where
  initReturns := initReturns
  stopSucceeds := true
  hookFails := false
  replaySucceeds := true
  result _ _ := none
  savedValues _ _ := none
  outputOrder := .inOrder
  groupOrder := .inOrder

/-- What an initialization does at once. -/
def World.Initializes (w : World P M) (ok : Bool) (w' : World P M) : Prop :=
  ∃ env, World.ensureInitialized env w = w' ∧ w'.initialized = ok

/-! ## The steps are the initialization -/

namespace Reading

/-- What was read is what the configuration has. -/
def Agrees (c : Config) : Reading → Prop
  | .montgomery => True
  | .bitReversal m => m = c.montgomery
  | .format m b => m = c.montgomery ∧ b = c.bitReversal ∧ (m || b) = true
  | .programName m b => m = c.montgomery ∧ b = c.bitReversal ∧ c.unsupportedDataFormat = false
  | .programVersion m b name => m = c.montgomery ∧ b = c.bitReversal ∧
    c.unsupportedDataFormat = false ∧ name = c.program.1
  | .programDescription m b name version => m = c.montgomery ∧ b = c.bitReversal ∧
    c.unsupportedDataFormat = false ∧ name = c.program.1 ∧ version = c.program.2.1
  | .target m b name version description => m = c.montgomery ∧ b = c.bitReversal ∧
    c.unsupportedDataFormat = false ∧ (name, version, description) = c.program
  | .init m b name version description goal => m = c.montgomery ∧ b = c.bitReversal ∧
    c.unsupportedDataFormat = false ∧ (name, version, description) = c.program ∧ goal = c.target
  | .setProgramInfo name version description =>
    c.unsupportedDataFormat = false ∧ (name, version, description) = c.program
  | .hasProgramDirectory => c.unsupportedDataFormat = false
  | .programDirectory => c.unsupportedDataFormat = false ∧ c.programDir ≠ none
  | .setProgramDirectory dir => c.unsupportedDataFormat = false ∧ c.programDir = some dir
  | .suppressProbes => c.unsupportedDataFormat = false

/-- The calls that initialize the compiler and name its project. -/
def named (c : Config) : List (CompilerCall P M) :=
  [.init (World.initArgv c), .setProgramInfo c.program.1 c.program.2.1 c.program.2.2]

/-- The calls to the compiler that were made so far. -/
def calls (c : Config) : Reading → List (CompilerCall P M)
  | .setProgramInfo _ _ _ => [.init (World.initArgv c)]
  | .hasProgramDirectory => named c
  | .programDirectory => named c
  | .setProgramDirectory _ => named c
  | .suppressProbes => named c ++
    (match c.programDir with
      | some dir => [.setProgramDirectory dir]
      | none => [])
  | _ => []

/-- An initialization that started at `w` has come to `r` and `w'`. -/
structure Reached (w : World P M) (r : Reading) (w' : World P M) : Prop where
  agrees : r.Agrees w.config
  state : w' = { w with compiler := w.compiler ++ r.calls w.config }

variable {w w' w'' : World P M} {r r' : Reading}

/-- An initialization begins with the reading of the first option. -/
theorem reached_montgomery (w : World P M) : Reached w .montgomery w :=
  ⟨trivial, by rw [show calls w.config .montgomery = [] from rfl, List.append_nil]⟩

/-- A getter makes no call. -/
theorem Reached.read (h : Reached w r w') (hcalls : (r'.calls w.config : List (CompilerCall P M)) =
    r.calls w.config) (hagrees : w'.config = w.config → r'.Agrees w.config) : Reached w r' w' where
  agrees := hagrees (by rw [h.state])
  state := by rw [hcalls]; exact h.state

/-- A call to the compiler. -/
theorem Reached.called (h : Reached w r w') {c : CompilerCall P M}
    (hcalls : r'.calls w.config = r.calls w.config ++ [c]) (hagrees : r'.Agrees w.config) :
    Reached w r' (w'.called c) where
  agrees := hagrees
  state := by
    rw [World.called, h.state, hcalls, ← List.append_assoc]

/-- Every step of an initialization reads what the configuration has, and makes the calls in order. -/
theorem Reached.next (h : Reached w r w') (hnext : Next (r, w') (r', w'')) : Reached w r' w'' := by
  have hagrees := h.agrees
  -- The three settings of the format are read one by one, and rejected together.
  have hformat : ∀ {m b : Bool}, m = w.config.montgomery → b = w.config.bitReversal →
      ((m || b) && (w.config.target == kLocalTarget)) = false →
        w.config.unsupportedDataFormat = false := by
    rintro m b rfl rfl h
    exact h
  -- Each read has to agree with the configuration only as long as nothing has changed it.
  cases hnext with
  | montgomery => exact h.read rfl fun hc => by rw [hc]; rfl
  | ordinary hordinary =>
    refine h.read rfl fun hc => ?_
    rw [hc] at hordinary ⊢
    exact ⟨hagrees, rfl, hformat hagrees rfl (by rw [hordinary]; rfl)⟩
  | format hspecial =>
    refine h.read rfl fun hc => ?_
    rw [hc] at hspecial ⊢
    exact ⟨hagrees, rfl, hspecial⟩
  | supported hsupported =>
    refine h.read rfl fun hc => ?_
    rw [hc] at hsupported
    exact ⟨hagrees.1, hagrees.2.1,
      hformat hagrees.1 hagrees.2.1 (by rw [hsupported, Bool.and_false])⟩
  | programName =>
    refine h.read rfl fun hc => ?_
    rw [hc]
    exact ⟨hagrees.1, hagrees.2.1, hagrees.2.2, rfl⟩
  | programVersion =>
    refine h.read rfl fun hc => ?_
    rw [hc]
    exact ⟨hagrees.1, hagrees.2.1, hagrees.2.2.1, hagrees.2.2.2, rfl⟩
  | programDescription =>
    refine h.read rfl fun hc => ?_
    rw [hc]
    obtain ⟨hm, hb, hsupported, rfl, rfl⟩ := hagrees
    exact ⟨hm, hb, hsupported, rfl⟩
  | target =>
    refine h.read rfl fun hc => ?_
    rw [hc]
    exact ⟨hagrees.1, hagrees.2.1, hagrees.2.2.1, hagrees.2.2.2, rfl⟩
  -- The calls are made with what the reads before them have returned.
  | init m b name version description goal =>
    obtain ⟨rfl, rfl, hsupported, hprogram, rfl⟩ := hagrees
    obtain ⟨hname, -⟩ := Prod.ext_iff.mp hprogram
    dsimp only at hname
    rw [hname]
    exact h.called rfl ⟨hsupported, hname ▸ hprogram⟩
  | setProgramInfo name version description =>
    obtain ⟨hsupported, hprogram⟩ := hagrees
    refine h.called ?_ hsupported
    unfold calls named
    rw [← hprogram]
    rfl
  | noDirectory hnone =>
    have hconfig : w'.config = w.config := by rw [h.state]
    rw [hconfig] at hnone
    refine h.read ?_ fun _ => hagrees
    unfold calls
    rw [hnone, List.append_nil]
  | directory hdir =>
    refine h.read rfl fun hc => ?_
    rw [hc] at hdir
    exact ⟨hagrees, hdir⟩
  | programDirectory =>
    refine h.read rfl fun hc => ?_
    obtain ⟨dir, hdir⟩ := Option.ne_none_iff_exists'.mp hagrees.2
    rw [hc, hdir]
    exact ⟨hagrees.1, hdir⟩
  | setProgramDirectory dir =>
    refine h.called ?_ hagrees.1
    unfold calls
    rw [hagrees.2]

/-- Before the first call to the compiler nothing is changed. -/
theorem Reached.silent (h : Reached w r w') (hcalls : (r.calls w.config : List (CompilerCall P M)) = []) :
    w' = w := by
  rw [h.state, hcalls, List.append_nil]

/-- Where an initialization stops, it has done what it does at once. -/
theorem Reached.initializes (h : Reached w r w') (hdown : w.initialized = false) {ok : Bool}
    (hstop : Stop (r, w') (ok, w'')) :
    w.Initializes ok (if ok then { w'' with initialized := true } else w'') := by
  have hagrees := h.agrees
  have hstate := h.state
  -- A format that is refused and an init that throws leave the flag down.
  cases hstop with
  | refused hlocal =>
    rw [h.silent rfl] at hlocal ⊢
    have hunsupported : w.config.unsupportedDataFormat = true := by
      unfold Config.unsupportedDataFormat
      rw [← hagrees.1, ← hagrees.2.1, hagrees.2.2, hlocal]
      rfl
    refine ⟨initReplies true, ?_, hdown⟩
    unfold World.ensureInitialized
    rw [if_neg (by rw [hdown]; decide), if_pos hunsupported]
    rfl
  | throws m b name version description goal =>
    obtain ⟨rfl, rfl, hsupported, hprogram, rfl⟩ := hagrees
    obtain ⟨hname, -⟩ := Prod.ext_iff.mp hprogram
    dsimp only at hname
    rw [hname, h.silent rfl]
    refine ⟨initReplies false, ?_, hdown⟩
    unfold World.ensureInitialized
    rw [if_neg (by rw [hdown]; decide), if_neg (by rw [hsupported]; decide)]
    rfl
  -- The last call sets the flag; the calls made so far are those of the atomic initialization.
  | suppressProbes =>
    rw [hstate]
    refine ⟨initReplies true, ?_, rfl⟩
    unfold World.ensureInitialized
    rw [if_neg (by rw [hdown]; decide),
      if_neg (by rw [show w.config.unsupportedDataFormat = false from hagrees]; decide)]
    change ({ w with initialized := true, compiler := _ } : World P M) =
      { w with initialized := true, compiler := w.compiler ++ calls w.config .suppressProbes ++ _ }
    unfold calls named
    rcases w.config.programDir with _ | dir <;>
      simp only [List.append_assoc, List.cons_append, List.nil_append]

/-- The flag stays as it is while the options are read. -/
theorem Reached.initialized (h : Reached w r w') : w'.initialized = w.initialized := by
  rw [h.state]

/-- A setter of what is not read may as well come before the initialization. -/
theorem Reached.moves (h : Reached w r w') {call : ConfigCall} (hcall : call.Unread) :
    Reached (call.run w).2 r (call.run w').2 := by
  have hreads := hcall.readsAs w.config
  have hunsupported : (call.method w.config).2.unsupportedDataFormat =
      w.config.unsupportedDataFormat := by
    unfold Config.unsupportedDataFormat
    rw [hreads.montgomery, hreads.bitReversal, hreads.target]
  rw [ConfigCall.run_state, ConfigCall.run_state]
  refine ⟨?_, ?_⟩
  · have hagrees := h.agrees
    cases r <;> simp only [Agrees, hreads.montgomery, hreads.bitReversal, hreads.target,
      hreads.program, hreads.programDir, hunsupported] at hagrees ⊢ <;> exact hagrees
  · rw [h.state]
    have hcalls : (r.calls (call.method w.config).2 : List (CompilerCall P M)) =
        r.calls w.config := by
      have hargv : World.initArgv (call.method w.config).2 = World.initArgv w.config := by
        unfold World.initArgv
        rw [hreads.montgomery, hreads.bitReversal, hreads.target, hreads.program]
      cases r <;> simp only [calls, named, hargv, hreads.program, hreads.programDir]
    simp only [hcalls]

end Reading

/-- The steps of an initialization do what it does at once. -/
def backendImplements : Implements (backend : Object (World P M) Reading ConfigCall)
    ConfigCall.Unread World.Initializes where
  Reached := Reading.Reached
  enter := Reading.reached_montgomery
  step _ _ _ _ _ h hnext :=
    ⟨h.next hnext, (h.next hnext).initialized.trans h.initialized.symm⟩
  stop _ _ _ ok _ hdown h hstop := by
    refine ⟨?_, by cases hstop <;> rfl⟩
    have hran := h.initializes hdown hstop
    rcases ok <;> exact hran
  moves call hcall w _ _ _ h hother := by
    rw [show _ = _ from hother]
    exact ⟨_, rfl, h.moves hcall⟩
  up_other call w w' h := by
    rw [show w' = _ from h, ConfigCall.run_state]
    rfl
  setUp_other call w w' h := by
    rw [show w' = _ from h]
    change _ = (call.run _).2
    rw [ConfigCall.run_state, ConfigCall.run_state]
    rfl

/-- What the flag and an initialization do at once is `World.ensureInitialized`. -/
theorem effect_ensure {w w' : World P M} {r : Result} :
    Effect backend World.Initializes .ensure w r w' ↔
      (∃ env, World.ensureInitialized env w = w') ∧ r = some w'.initialized := by
  constructor
  · rintro (⟨hup⟩ | ⟨-, env, rfl, rfl⟩)
    · exact ⟨⟨initReplies true, if_pos hup⟩, congrArg some (Eq.symm hup)⟩
    · exact ⟨⟨env, rfl⟩, rfl⟩
  · rintro ⟨⟨env, rfl⟩, rfl⟩
    rcases hup : w.initialized
    · exact .runs hup ⟨env, rfl, rfl⟩
    · have hsame : World.ensureInitialized env w = w := if_pos hup
      rw [hsame, hup]
      exact .found hup

/-- The threads of a run in which no thread sets what the initialization reads while it runs are seen
by their callers as threads that each initialize or reset the backend at once, and no two threads
initialize it at the same time. -/
theorem ensureInitialized_atomic [DecidableEq T] {w : World P M} {ls : List (Label T ConfigCall)}
    {s : State T (World P M) Reading}
    (h : Runs (fun s l s' => State.Next backend s l s' ∧ s.Calm ConfigCall.Unread l) (.start w)
      ls s) :
    (∃ ls' a, Runs (Atomic.Next backend World.Initializes) (.start w) ls' a ∧
      ls'.filter Label.visible = ls.filter Label.visible ∧
        ((∀ t, s.pc t = .idle) → a.data = s.data)) ∧
      ∀ t u r r', s.pc t = .running r → s.pc u = .running r' → t = u := by
  obtain ⟨ls', a, hrun, hvisible, hfollows⟩ := visible_atomic backendImplements h
  refine ⟨⟨ls', a, hrun, hvisible, fun hidle => ?_⟩, fun t u r r' ht hu => ?_⟩
  · refine hfollows.free (Option.eq_none_iff_forall_ne_some.mpr fun t ht => ?_)
    have hlocked := (hfollows.holder t).mp ht
    rw [hidle t] at hlocked
    cases hlocked
  · have htholder := (hfollows.owner ht rfl).1
    have huholder := (hfollows.owner hu rfl).1
    exact Option.some.inj (htholder.symm.trans huholder)

/-- A process that asks for Montgomery form of the local target. -/
def montgomeryLocal : World UInt64 (List (UInt64 × UInt64)) :=
  { World.init with config := { Config.init with montgomery := true } }

/-- Two threads find the flag unset, and one of them is refused the data format. -/
theorem ensureInitialized_atomic_example :
    ∃ ls' a, Runs (Atomic.Next backend World.Initializes) (.start montgomeryLocal) ls' a ∧
      ls'.filter Label.visible = [.call false .ensure, .call true .ensure,
        .other (.setReducedNoise 1), .ret false (some false)] := by
  have hrun := (ensureInitialized_atomic (T := Bool) (w := montgomeryLocal) <|
    .cons ⟨.callEnsure (t := false) rfl, trivial⟩ <|
    .cons ⟨.callEnsure (t := true) rfl, trivial⟩ <|
    .cons ⟨.slow (t := false) rfl rfl, trivial⟩ <|
    .cons ⟨.slow (t := true) rfl rfl, trivial⟩ <|
    .cons ⟨.acquire (t := false) rfl rfl, trivial⟩ <|
    .cons ⟨.enter (t := false) rfl rfl, trivial⟩ <|
    .cons ⟨.step (t := false) rfl (.montgomery _), trivial⟩ <|
    .cons ⟨.other (e := .setReducedNoise 1) rfl,
      fun _ => show ConfigCall.Unread (.setReducedNoise 1) from trivial⟩ <|
    .cons ⟨.step (t := false) rfl (.format rfl), trivial⟩ <|
    .cons ⟨.stop (t := false) rfl (.refused rfl), trivial⟩ <|
    .cons ⟨.release (t := false) rfl, trivial⟩ <|
    .cons ⟨.ret (t := false) rfl, trivial⟩ (.nil _)).1
  obtain ⟨ls', a, hatomic, hvisible, -⟩ := hrun
  exact ⟨ls', a, hatomic, hvisible⟩

end Haze
