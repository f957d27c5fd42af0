import Haze.Runtime.Effects
import Mathlib.Data.Fintype.Basic

/-!
# The calls of several threads on one address

Uploads to an address, sets of its bytes and flushes, cut where the locks are released. An upload
copies its bytes under the lock of the allocator, and is tagged under the lock of the epoch. A set
writes its bytes under the one, and drops the address under the other. A flush holds the epoch's
lock from its first step to its last and takes the allocator's once for each output, so that between
its steps other threads take steps of the allocator.

What runs under one lock is one step. The tag of an upload reads the words under the allocator's
lock too: what it does before and after touches nothing of the allocator, and what the others may do
meanwhile nothing else.

The steps of a call that is not interrupted are the call of the sequential model (`Job.completes`).
-/

namespace Haze

variable {P M T : Type}

open World

/-! ## A flush around its outputs -/

namespace World

section

variable (F : Fhetch P M) (env : CompilerReplies P)

/-- Write the trace and replay it, up to the outputs that are read back. -/
def materializedOutputs : Method P M (Option (List (Sigma fun _ : DevAddr => ProbeName))) := do
  let w ← Expected.get
  if !w.epoch.recording then pure none
  else do
    let stopOk ← stopEpoch env
    if !stopOk then abortEpoch .backendReplayFailed
    else do
      let hookHadError ← takeHookHadError
      if hookHadError then abortEpoch .bridgeHookFailed
      else do
        let replayOk ← replay env
        if !replayOk then abortEpoch .backendReplayFailed
        else pure (some (outputs env w))

/-- A flush up to the outputs that it reads back, if it comes to them. -/
def flushedOutputs : Method P M (Option (List (Sigma fun _ : DevAddr => ProbeName))) := do
  let w ← Expected.get
  if w.config.unsupportedDataFormat then Expected.fail .unsupportedDataFormat
  else if !w.epoch.recording then pure none
  else if w.epoch.pendingOutputs = ∅ ∧ w.epoch.pendingMrpGroups = ∅ then do
    Expected.modify clearStateLocked
    pure none
  else do
    tagPendingOutputsLocked F env
    materializedOutputs env

/-- The rest of a flush. -/
def readBack (outputs : List (Sigma fun _ : DevAddr => ProbeName)) : Method P M Unit := do
  Expected.forEach (populateShadow env) outputs
  Expected.modify clearStateLocked

end

end World

/-! ## The steps of a call -/

/-- A call on the address, or a flush. -/
inductive SharedCall where
  | upload (src : Option (List UInt8)) (count : UInt64)
  | memset (value : ℤ) (count : UInt64)
  | flush
deriving DecidableEq, Repr

/-- The call, on the address `addr`. -/
def SharedCall.toCall (addr : DevAddr) : SharedCall → Call
  | .upload src count => .memcpy (.hostToDevice addr src) count
  | .memset value count => .memset addr value count
  | .flush => .flush

/-- A call together with what the compiler answers while it runs. -/
structure Job (P : Type) where
  env : CompilerReplies P
  call : SharedCall

def Job.invocation (addr : DevAddr) (job : Job P) : Invocation P := ⟨job.env, job.call.toCall addr⟩

/-- Where a thread is inside a call. -/
inductive Stage (P : Type) where
  /-- The bytes of an upload are copied, and its tag comes next. -/
  | tagging (env : CompilerReplies P)
  /-- The bytes of a set are written, and the invalidation comes next. -/
  | invalidating
  /-- A flush has these outputs still to read back. -/
  | populating (env : CompilerReplies P) (outputs : List (Sigma fun _ : DevAddr => ProbeName))

/-- What a thread does next. -/
inductive Turn (P : Type) where
  | call (job : Job P)
  | resume (stage : Stage P)

/-- What a step comes to. -/
inductive Progress (P : Type) where
  | replies (reply : Reply)
  | goesOn (stage : Stage P)

section

variable (F : Fhetch P M) (addr : DevAddr)

/-- One step of a call on the address. -/
def Turn.run : Turn P → Method P M (Progress P)
  | .call ⟨env, .upload src count⟩ =>
    if addr == .null || src == none then pure (.replies (.setError .invalidValue))
    else do
      onAllocator (DeviceAllocator.copyH2d addr src count)
      pure (.goesOn (.tagging env))
  | .call ⟨_, .memset value count⟩ =>
    if addr == .null then pure (.replies (.setError .invalidValue))
    else do
      onAllocator (DeviceAllocator.memset addr value count)
      pure (.goesOn .invalidating)
  | .call ⟨env, .flush⟩ => do
    match ← flushedOutputs F env with
    | none => pure (.replies (.setError .success))
    | some outputs => pure (.goesOn (.populating env outputs))
  | .resume (.tagging env) => do
    tagH2dInput F env addr
    pure (.replies (.setError .success))
  | .resume .invalidating => do
    modifyEpoch (EpochState.invalidate addr)
    pure (.replies .success)
  | .resume (.populating env (entry :: outputs)) => do
    populateShadow env entry
    pure (.goesOn (.populating env outputs))
  | .resume (.populating _ []) => do
    Expected.modify clearStateLocked
    pure (.replies (.setError .success))

end

/-- Whether a step acquires the lock of the epoch. -/
def Turn.acquires : Turn P → Bool
  | .call ⟨_, .flush⟩ => true
  | .resume (.tagging _) => true
  | .resume .invalidating => true
  | _ => false

/-- Whether the lock of the epoch is held at a stage. -/
def Stage.holds : Stage P → Bool
  | .populating _ _ => true
  | _ => false

/-- Whether the bytes of a call are written and the epoch does not know of it. -/
def Stage.between : Stage P → Bool
  | .tagging _ => true
  | .invalidating => true
  | .populating _ _ => false

/-- Whether the next step reads an output back to the address. -/
def Stage.writesBack (addr : DevAddr) : Stage P → Bool
  | .populating _ (entry :: _) => entry.1 = addr
  | _ => false

/-! ## A call that is not interrupted -/

namespace World

section

variable {F : Fhetch P M} {env : CompilerReplies P}

/-- Go on with the outputs of a flush, if it has come to them. -/
def readBackIfAny (env : CompilerReplies P) :
    Option (List (Sigma fun _ : DevAddr => ProbeName)) → Method P M Unit
  | none => pure ()
  | some outputs => readBack env outputs

/-- Materializing is getting the outputs ready, and then reading them back. -/
theorem doMaterialize_cut :
    doMaterializeLocked env true =
      (materializedOutputs env >>= readBackIfAny env : Method P M Unit) := by
  -- Both sides take the same way at every check of the source.
  funext w
  unfold doMaterializeLocked materializedOutputs
  rw [Expected.bind_assoc, Expected.get_bind_run, Expected.get_bind_run]
  rcases w.epoch.recording
  · rfl
  change (stopEpoch env >>= _ : Method P M Unit) w =
    ((stopEpoch env >>= _) >>= _ : Method P M Unit) w
  rw [Expected.bind_assoc]
  refine congrFun (bind_congr fun stopOk => ?_) w
  -- A stop that failed aborts at once.
  rcases stopOk
  · rfl
  change (takeHookHadError >>= _ : Method P M Unit) = (takeHookHadError >>= _) >>= _
  rw [Expected.bind_assoc]
  refine bind_congr fun hookHadError => ?_
  -- So does the hook's flag, before the replay.
  rcases hookHadError
  · change (replay env >>= _ : Method P M Unit) = (replay env >>= _) >>= _
    rw [Expected.bind_assoc]
    refine bind_congr fun replayOk => ?_
    rcases replayOk <;> rfl
  · rfl

/-- A flush reads back the outputs that it comes to. -/
theorem flush_cut : flush F env = flushedOutputs F env >>= readBackIfAny env := by
  funext w
  unfold flush flushedOutputs finalizeLocked
  rw [Expected.bind_assoc, Expected.get_bind_run, Expected.get_bind_run]
  by_cases hformat : w.config.unsupportedDataFormat = true
  · rw [if_pos hformat, if_pos hformat]
    rfl
  rw [if_neg hformat, if_neg hformat, Expected.get_bind_run]
  split_ifs
  · rfl
  · rfl
  · rw [doMaterialize_cut, Expected.bind_assoc]

end

end World

/-- The steps of a call, one after the other, come to a reply and a state. -/
inductive Turn.Completes (F : Fhetch P M) (addr : DevAddr) :
    Turn P → World P M → Reply → World P M → Prop
  | replies {turn : Turn P} {w w' : World P M} {reply : Reply}
      (run : turn.run F addr w = (.ok (.replies reply), w')) : Completes F addr turn w reply w'
  | fails {turn : Turn P} {w w' : World P M} {e : HazeInternalError}
      (run : turn.run F addr w = (.error e, w')) :
      Completes F addr turn w (.setError (toPublicError e)) w'
  | goesOn {turn : Turn P} {stage : Stage P} {w v w' : World P M} {reply : Reply}
      (run : turn.run F addr w = (.ok (.goesOn stage), v))
      (rest : Completes F addr (.resume stage) v reply w') : Completes F addr turn w reply w'

section

variable {F : Fhetch P M} {addr : DevAddr}

/-- The stages that are left of a call are those after its next step. -/
theorem Turn.Completes.next {turn : Turn P} {w v w' : World P M} {reply : Reply} {stage : Stage P}
    (h : turn.Completes F addr w reply w') (hrun : turn.run F addr w = (.ok (.goesOn stage), v)) :
    (Turn.resume stage).Completes F addr v reply w' := by
  cases h with
  | replies run => cases hrun.symm.trans run
  | fails run => cases hrun.symm.trans run
  | goesOn run rest =>
    cases hrun.symm.trans run
    exact rest

/-- A call that returns has come to its end. -/
theorem Turn.Completes.last {turn : Turn P} {w v w' : World P M} {reply last : Reply}
    (h : turn.Completes F addr w reply w') (hrun : turn.run F addr w = (.ok (.replies last), v)) :
    w' = v := by
  cases h with
  | replies run =>
    cases hrun.symm.trans run
    rfl
  | fails run => cases hrun.symm.trans run
  | goesOn run rest => cases hrun.symm.trans run

/-- A method that is one step of a call and its last. -/
theorem Turn.completes_method {turn : Turn P} {x : Method P M Unit} {last : Reply}
    (hturn : turn.run F addr = (x >>= fun _ => pure (.replies last) : Method P M (Progress P)))
    (w : World P M) :
    turn.Completes F addr w (Shim.replyWith (fun _ => last) x w).1
      (Shim.replyWith (fun _ => last) x w).2 := by
  have hrun := congrFun hturn w
  unfold Shim.replyWith
  rcases hx : x w with ⟨e | ⟨⟩, v⟩
  · rw [Expected.bind_run_error hx] at hrun
    exact .fails hrun
  · rw [Expected.bind_run_ok hx] at hrun
    exact .replies hrun

/-- A method that is the first step of a call, followed by the rest. -/
theorem Turn.completes_bind {turn : Turn P} {stage : Stage P} {x y : Method P M Unit} {last : Reply}
    (hturn : turn.run F addr = (x >>= fun _ => pure (.goesOn stage) : Method P M (Progress P)))
    (hstage : ∀ v, (Turn.resume stage).Completes F addr v (Shim.replyWith (fun _ => last) y v).1
      (Shim.replyWith (fun _ => last) y v).2) (w : World P M) :
    turn.Completes F addr w (Shim.replyWith (fun _ => last) (x >>= fun _ => y) w).1
      (Shim.replyWith (fun _ => last) (x >>= fun _ => y) w).2 := by
  have hrun := congrFun hturn w
  unfold Shim.replyWith
  rcases hx : x w with ⟨e | ⟨⟩, v⟩
  · rw [Expected.bind_run_error hx] at hrun ⊢
    exact .fails hrun
  · rw [Expected.bind_run_ok hx] at hrun ⊢
    exact .goesOn hrun (hstage v)

/-- A call whose arguments are checked before its first step. -/
theorem Turn.completes_guarded {turn : Turn P} {stage : Stage P} {x y : Method P M Unit}
    {last : Reply} {rejected : Bool}
    (hturn : turn.run F addr = (if rejected then pure (.replies (.setError .invalidValue))
      else x >>= fun _ => pure (.goesOn stage) : Method P M (Progress P)))
    (hstage : ∀ v, (Turn.resume stage).Completes F addr v (Shim.replyWith (fun _ => last) y v).1
      (Shim.replyWith (fun _ => last) y v).2) (w : World P M) :
    turn.Completes F addr w
      (Shim.guarded rejected (Shim.replyWith (fun _ => last) (x >>= fun _ => y)) w).1
      (Shim.guarded rejected (Shim.replyWith (fun _ => last) (x >>= fun _ => y)) w).2 := by
  rcases rejected
  · exact completes_bind hturn hstage w
  · exact .replies (by rw [hturn]; rfl)

/-- Reading outputs back is reading the first, and then the others. -/
theorem World.readBack_cons (env : CompilerReplies P) (entry : Sigma fun _ : DevAddr => ProbeName)
    (outputs : List (Sigma fun _ : DevAddr => ProbeName)) :
    (readBack env (entry :: outputs) : Method P M Unit) =
      populateShadow env entry >>= fun _ => readBack env outputs := by
  unfold readBack
  rw [Expected.forEach_cons, Expected.bind_assoc]

/-- The outputs of a flush are read back one after the other. -/
theorem Turn.completes_readBack (env : CompilerReplies P)
    (outputs : List (Sigma fun _ : DevAddr => ProbeName)) (w : World P M) :
    (Turn.resume (.populating env outputs)).Completes F addr w
      (Shim.setInternalResult (readBack env outputs) w).1
      (Shim.setInternalResult (readBack env outputs) w).2 := by
  induction outputs generalizing w with
  | nil => exact completes_method rfl w
  | cons entry outputs ih =>
    rw [readBack_cons]
    exact completes_bind rfl ih w

/-- A call that is not interrupted is the call of the sequential model. -/
theorem Job.completes (F : Fhetch P M) (addr : DevAddr) (job : Job P) (w : World P M) :
    (Turn.call job).Completes F addr w ((job.invocation addr).run F w).1
      (w.after F (job.invocation addr)) := by
  obtain ⟨env, call⟩ := job
  -- Only a flush is cut between what it calls and what it stores.
  cases call with
  | upload src count => exact Turn.completes_guarded rfl (Turn.completes_method rfl) w
  | memset value count => exact Turn.completes_guarded rfl (Turn.completes_method rfl) w
  | flush =>
    change (Turn.call ⟨env, .flush⟩).Completes F addr w (hazeFlush F env w).1 (hazeFlush F env w).2
    unfold hazeFlush Shim.setInternalResult Shim.replyWith
    rw [flush_cut]
    -- It fails, finds nothing to store, or goes on to the outputs.
    rcases hflushed : flushedOutputs F env w with ⟨e | _ | outputs, v⟩
    · rw [Expected.bind_run_error hflushed]
      refine .fails ?_
      rw [Turn.run, Expected.bind_run_error hflushed]
    · rw [Expected.bind_run_ok hflushed]
      refine .replies ?_
      rw [Turn.run, Expected.bind_run_ok hflushed]
      rfl
    · rw [Expected.bind_run_ok hflushed]
      refine .goesOn ?_ (Turn.completes_readBack env outputs v)
      rw [Turn.run, Expected.bind_run_ok hflushed]
      rfl

end

/-! ## What a step does -/

/-- The bytes over the start of the words of an address. -/
def World.overwriting (addr : DevAddr) (bytes : List UInt8) (w : World P M) : World P M :=
  { w with allocator := DeviceAllocator.writeShadow addr bytes w.allocator }

/-- What a step of a call on the address does where it does not fail. -/
inductive Turn.Does (F : Fhetch P M) (addr : DevAddr) (w : World P M) :
    Turn P → Progress P → World P M → Prop
  | copies (env : CompilerReplies P) (bytes : List UInt8) {count : UInt64} (nonnull : addr ≠ .null)
      (range : w.allocator.checkRange addr count = .ok ()) :
      Does F addr w (.call ⟨env, .upload (some bytes) count⟩) (.goesOn (.tagging env))
        (w.overwriting addr (bytes.takeD count.toNat 0))
  | sets (env : CompilerReplies P) (value : ℤ) {count : UInt64} (nonnull : addr ≠ .null)
      (range : w.allocator.checkRange addr count = .ok ()) :
      Does F addr w (.call ⟨env, .memset value count⟩) (.goesOn .invalidating)
        (w.overwriting addr (List.replicate count.toNat (UInt8.ofInt value)))
  | flushes {env : CompilerReplies P} {w' : World P M}
      (run : flushedOutputs F env w = (.ok none, w')) :
      Does F addr w (.call ⟨env, .flush⟩) (.replies (.setError .success)) w'
  | materializes {env : CompilerReplies P} {w' : World P M}
      {outputs : List (Sigma fun _ : DevAddr => ProbeName)}
      (run : flushedOutputs F env w = (.ok (some outputs), w')) :
      Does F addr w (.call ⟨env, .flush⟩) (.goesOn (.populating env outputs)) w'
  | tags {env : CompilerReplies P} {w' : World P M}
      (run : tagH2dInput F env addr w = (.ok (), w')) :
      Does F addr w (.resume (.tagging env)) (.replies (.setError .success)) w'
  | invalidates :
      Does F addr w (.resume .invalidating) (.replies .success)
        { w with epoch := w.epoch.invalidate addr }
  | populates {env : CompilerReplies P} {w' : World P M}
      {entry : Sigma fun _ : DevAddr => ProbeName}
      {outputs : List (Sigma fun _ : DevAddr => ProbeName)}
      (run : populateShadow env entry w = (.ok (), w')) :
      Does F addr w (.resume (.populating env (entry :: outputs)))
        (.goesOn (.populating env outputs)) w'
  | clears (env : CompilerReplies P) :
      Does F addr w (.resume (.populating env [])) (.replies (.setError .success))
        (clearStateLocked w)

section

variable {F : Fhetch P M} {addr : DevAddr}

/-- What a step does is how it runs. -/
theorem Turn.Does.run_eq {turn : Turn P} {progress : Progress P} {w w' : World P M}
    (h : turn.Does F addr w progress w') : turn.run F addr w = (.ok progress, w') := by
  cases h with
  | copies env bytes nonnull range =>
    rw [Turn.run, if_neg (by simpa using nonnull)]
    exact Expected.bind_run_ok (copyH2d_writes bytes range)
  | sets env value nonnull range =>
    rw [Turn.run, if_neg (by simpa using nonnull)]
    exact Expected.bind_run_ok (memset_writes value range)
  | flushes run => exact Expected.bind_run_ok run
  | materializes run => exact Expected.bind_run_ok run
  | tags run => exact Expected.bind_run_ok run
  | invalidates => rfl
  | populates run => exact Expected.bind_run_ok run
  | clears env => rfl

/-- A set that succeeds passed its checks. -/
theorem memset_range {value : ℤ} {count : UInt64} {w w' : World P M}
    (h : onAllocator (DeviceAllocator.memset addr value count) w = (.ok (), w')) :
    w.allocator.checkRange addr count = .ok () := by
  rcases hrange : w.allocator.checkRange addr count with e | ⟨⟩
  · unfold onAllocator DeviceAllocator.memset at h
    rw [Expected.zoom_run, Expected.query_bind_error hrange] at h
    cases h
  · rfl

/-- A step that does not fail does what its kind does, or the call's arguments are rejected. -/
theorem Turn.run_cases {turn : Turn P} {progress : Progress P} {w w' : World P M}
    (h : turn.run F addr w = (.ok progress, w')) :
    turn.Does F addr w progress w' ∨ progress = .replies (.setError .invalidValue) := by
  -- The first turn of a call is its checks and what it does under its first lock.
  cases turn with
  | call job =>
    obtain ⟨env, call⟩ := job
    cases call with
    | upload src count =>
      rw [Turn.run] at h
      split_ifs at h with hrej
      · cases h
        exact .inr rfl
      · rcases src with _ | bytes
        · exact absurd (by simp) hrej
        obtain ⟨⟨⟩, v, hcopy, h⟩ := Expected.bind_eq_ok.mp h
        cases h
        obtain ⟨-, -, -, hok⟩ := copyH2d_run (addr, some bytes) count w
        -- The range was checked by the copy.
        have hrange := (hok.mp (congrArg Prod.fst hcopy)).2
        cases hcopy.symm.trans (copyH2d_writes bytes hrange)
        exact .inl (.copies env bytes (by simpa using hrej) hrange)
    | memset value count =>
      rw [Turn.run] at h
      split_ifs at h with hrej
      · cases h
        exact .inr rfl
      · obtain ⟨⟨⟩, v, hset, h⟩ := Expected.bind_eq_ok.mp h
        cases h
        have hrange := memset_range hset
        cases hset.symm.trans (memset_writes value hrange)
        exact .inl (.sets env value (by simpa using hrej) hrange)
    | flush =>
      rw [Turn.run] at h
      obtain ⟨outputs, v, hflushed, h⟩ := Expected.bind_eq_ok.mp h
      rcases outputs with _ | outputs
      · cases h
        exact .inl (.flushes hflushed)
      · cases h
        exact .inl (.materializes hflushed)
  | resume stage =>
    -- A later turn is one step of an upload, of a clear or of the outputs.
    rcases stage with env | _ | ⟨env, _ | ⟨entry, outputs⟩⟩
    · obtain ⟨⟨⟩, v, htag, h⟩ := Expected.bind_eq_ok.mp h
      cases h
      exact .inl (.tags htag)
    · cases h
      exact .inl .invalidates
    · cases h
      exact .inl (.clears env)
    · obtain ⟨⟨⟩, v, hpopulate, h⟩ := Expected.bind_eq_ok.mp h
      cases h
      exact .inl (.populates hpopulate)

end

/-! ## The process -/

/-- The state of the process with that of each thread. -/
structure Process (T P M : Type) where
  world : World P M
  /-- The thread that holds the lock of the epoch between its steps. -/
  holder : Option T
  /-- Where each thread is inside a call, if it is inside one. -/
  stage : T → Option (Stage P)
  /-- The calls that each thread has not started. -/
  calls : T → List (Job P)
  /-- The replies of the calls that returned. -/
  replies : List (T × Reply)

namespace Process

/-- No thread has started its program. -/
def start (w : World P M) (program : T → List (Job P)) : Process T P M where
  world := w
  holder := none
  stage _ := none
  calls := program
  replies := []

/-- What a thread does next, and the calls that it has before it then. -/
def turn (s : Process T P M) (t : T) : Option (Turn P × List (Job P)) :=
  match s.stage t, s.calls t with
  | some stage, rest => some (.resume stage, rest)
  | none, job :: rest => some (.call job, rest)
  | none, [] => none

/-- A thread goes on with the call that it is in. -/
theorem turn_resume {s : Process T P M} {t : T} {stage : Stage P} {rest : List (Job P)}
    (h : s.turn t = some (.resume stage, rest)) : s.stage t = some stage ∧ rest = s.calls t := by
  unfold Process.turn at h
  rcases hstage : s.stage t with _ | stage'
  · rcases hcalls : s.calls t with _ | ⟨job, calls⟩ <;> rw [hstage, hcalls] at h <;> cases h
  · rw [hstage] at h
    cases h
    exact ⟨rfl, rfl⟩

/-- A thread that is in no call starts its next one. -/
theorem turn_call {s : Process T P M} {t : T} {job : Job P} {rest : List (Job P)}
    (h : s.turn t = some (.call job, rest)) : s.stage t = none ∧ s.calls t = job :: rest := by
  unfold Process.turn at h
  rcases hstage : s.stage t with _ | stage
  · rcases hcalls : s.calls t with _ | ⟨job', calls⟩ <;> rw [hstage, hcalls] at h <;> cases h
    exact ⟨rfl, rfl⟩
  · rw [hstage] at h
    cases h

section

variable [DecidableEq T]

/-- The call of a thread returns. -/
def finish (s : Process T P M) (t : T) (rest : List (Job P)) (reply : Reply) (w : World P M) :
    Process T P M where
  world := w
  holder := if s.holder = some t then none else s.holder
  stage := Function.update s.stage t none
  calls := Function.update s.calls t rest
  replies := s.replies ++ [(t, reply)]

/-- The call of a thread goes on. -/
def proceed (s : Process T P M) (t : T) (rest : List (Job P)) (stage : Stage P) (w : World P M) :
    Process T P M where
  world := w
  holder := if stage.holds then some t else s.holder
  stage := Function.update s.stage t (some stage)
  calls := Function.update s.calls t rest
  replies := s.replies

/-- After a step of a thread. An error is returned. -/
def leave (s : Process T P M) (t : T) (rest : List (Job P)) :
    Except HazeInternalError (Progress P) × World P M → Process T P M
  | (.ok (.goesOn stage), w) => s.proceed t rest stage w
  | (.ok (.replies reply), w) => s.finish t rest reply w
  | (.error e, w) => s.finish t rest (.setError (toPublicError e)) w

/-- One step of a thread. A thread waits while it needs the lock of the epoch and another has it. -/
def step (F : Fhetch P M) (addr : DevAddr) (s : Process T P M) (t : T) : Process T P M :=
  match s.turn t with
  | none => s
  | some (turn, rest) =>
    if turn.acquires && s.holder.isSome then s else s.leave t rest (turn.run F addr s.world)

/-- The steps of the threads, in the order of a schedule. -/
def runAll (F : Fhetch P M) (addr : DevAddr) (s : Process T P M) (ts : List T) : Process T P M :=
  ts.foldl (step F addr) s

end

section

variable [DecidableEq T] {F : Fhetch P M} {addr : DevAddr} {s : Process T P M} {t : T}

/-- A call that returned has failed. -/
def Failed (s : Process T P M) : Prop := ∃ reply ∈ s.replies, reply.2.code ≠ .success

/-- A step of a thread leaves everything as it is, or fails, or does what its kind does. -/
theorem step_cases (F : Fhetch P M) (addr : DevAddr) (s : Process T P M) (t : T) :
    s.step F addr t = s ∨ (s.step F addr t).Failed ∨
      ∃ turn rest progress w, s.turn t = some (turn, rest) ∧
        (turn.acquires = true → s.holder = none) ∧ turn.Does F addr s.world progress w ∧
        s.step F addr t = s.leave t rest (.ok progress, w) := by
  unfold step
  rcases hturn : s.turn t with _ | ⟨turn, rest⟩
  · exact .inl rfl
  dsimp only
  split_ifs with hwaits
  · exact .inl rfl
  right
  rcases hrun : turn.run F addr s.world with ⟨e | progress, w⟩
  · exact .inl ⟨_, List.mem_append_right _ (List.mem_singleton.mpr rfl), toPublicError_ne_success e⟩
  rcases Turn.run_cases hrun with hdoes | rfl
  · refine .inr ⟨turn, rest, progress, w, rfl, fun hacquires => ?_, hdoes, rfl⟩
    rw [hacquires, Bool.true_and, Bool.not_eq_true, Option.isSome_eq_false_iff,
      Option.isNone_iff_eq_none] at hwaits
    exact hwaits
  · exact .inl ⟨_, List.mem_append_right _ (List.mem_singleton.mpr rfl), nofun⟩

/-- A failure stays. -/
theorem Failed.step (h : s.Failed) (F : Fhetch P M) (addr : DevAddr) (t : T) :
    (s.step F addr t).Failed := by
  obtain ⟨reply, hreply, hcode⟩ := h
  refine ⟨reply, ?_, hcode⟩
  unfold Process.step
  rcases s.turn t with _ | ⟨turn, rest⟩
  · exact hreply
  dsimp only
  split_ifs
  · exact hreply
  rcases turn.run F addr s.world with ⟨e | (_ | _), w⟩
  · exact List.mem_append_left _ hreply
  · exact List.mem_append_left _ hreply
  · exact hreply

end

/-- No thread is inside a call, and every call that returned succeeded. -/
structure Settled (s : Process T P M) : Prop where
  idle : ∀ t, s.stage t = none
  succeeded : ∀ reply ∈ s.replies, reply.2.code = .success

/-- The step does not read an output back to the address between the two steps of an upload to it or
a set of it. -/
def Spares (addr : DevAddr) (s : Process T P M) (t : T) : Prop :=
  (s.stage t).any (Stage.writesBack addr) = true → ∀ u, (s.stage u).any Stage.between = false

instance [Fintype T] (addr : DevAddr) (s : Process T P M) (t : T) : Decidable (s.Spares addr t) :=
  inferInstanceAs (Decidable (_ → ∀ _ : T, _))

end Process

end Haze
