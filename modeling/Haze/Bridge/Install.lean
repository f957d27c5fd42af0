import Haze.Bridge.Flags
import Haze.Runtime.Backend
import Haze.Runtime.HookFailure
import Haze.Runtime.LastError
import Haze.Runtime.Session

/-!
# Installing the bridge

`hazeReplayBridgeInitCryptoContext` of `replay_bridge/src/openfhe_template.cpp` initializes the
compiler, builds a context, has it written into the project's directory and installs the
post-recording hook. The directory is a state of the compiler and a parameter here, with what the
bridge and the backend rely on: naming the program moves the project to the directory of that name,
and a pinned directory is set over it. The backend does both again when it is first initialized, with
the configured name instead of the bridge's own. `cryptoContext_with_trace` says when the context and
the trace end up in the same directory.
-/

namespace Haze

variable {P M : Type}

/-- The compiler's project: the directories that it can be in, and how the calls to the compiler move
it. -/
structure Project (P M : Type) where
  Dir : Type
  /-- Where the project is before the first call. -/
  initial : Dir
  /-- The directory of a program's name in the working directory. -/
  named : String → Dir
  /-- The directory at a path. -/
  pinned : String → Dir
  /-- Where the project is after one more call. -/
  after : Dir → CompilerCall P M → Dir

/-- Where the project is after some calls to the compiler. -/
def Project.dir (D : Project P M) (calls : List (CompilerCall P M)) : D.Dir :=
  calls.foldl D.after D.initial

/-- The calls to the compiler that may move the project. -/
def CompilerCall.Moves : CompilerCall P M → Prop
  | .init _ => True
  | .setProgramInfo _ _ _ => True
  | .setProgramDirectory _ => True
  | .reset => True
  | _ => False

/-- What the bridge and the backend rely on. Initializing and resetting the compiler may move the
project anywhere. -/
structure Project.Lawful (D : Project P M) : Prop where
  /-- `set_program_info` resets the project to the directory of the name. -/
  setProgramInfo : ∀ dir name version description,
    D.after dir (.setProgramInfo name version description) = D.named name
  /-- `set_program_directory` sets the directory that it is given. -/
  setProgramDirectory : ∀ dir path, D.after dir (.setProgramDirectory path) = D.pinned path
  /-- Recording, replaying and naming polynomials leave the project where it is. -/
  stays : ∀ dir call, ¬ call.Moves → D.after dir call = dir

/-- The calls after which the project may be elsewhere at the next initialization. -/
def Call.Relocates : Call → Prop
  | .deviceReset => True
  | .config (.setProgramInfo _ _ _) => True
  | .config (.setProgramDirectory _) => True
  | _ => False

namespace Bridge

/-- The C error for a failure of building a context. -/
def BridgeError.toHazeError : BridgeError → HazeError
  | .invalidModulus => .invalidValue
  | .openFheUnavailable => .internal

/-- The modulus of a context's first tower. -/
def firstTowerModulus (cc : CryptoContext) : Except String UInt64 :=
  match cc.params with
  | [] => .error "first_tower_modulus: empty element params"
  | p :: _ => .ok p.modulus

/-- The runtime with what the bridge has installed. -/
structure Process (P M : Type) where
  world : World P M
  /-- The calls that the compiler had got when the context was last written, unless a reset came
  since: the context is where the project was then. -/
  cryptoContext : Option (List (CompilerCall P M))
  /-- The hook, unless a reset dropped it. -/
  hook : Option HookCtx

/-- At process start. -/
def Process.init : Process P M := ⟨.init, none, none⟩

/-- Make calls to the compiler. -/
def Process.call (calls : List (CompilerCall P M)) (p : Process P M) : Process P M :=
  { p with world := { p.world with compiler := p.world.compiler ++ calls } }

/-- The arguments that the bridge initializes the compiler with. -/
def bridgeArgv (c : Config) : List String :=
  ["haze", "--target=" ++ c.target, "--no-ring-dim-check", "--no-prime-check"]

/-- The calls that name the bridge's project, and move it to a pinned directory. -/
def nameProject (c : Config) : List (CompilerCall P M) :=
  [.setProgramInfo "haze" "" ""] ++
    (match c.programDir with
      | some dir => [.setProgramDirectory dir]
      | none => [])

/-- What the compiler does during the bridge's initialization: whether initializing it returns, and
whether writing the context does. -/
structure InitReplies where
  initReturns : Bool
  captureReturns : Bool

/-- Build a context, have it written, and install the hook. The modulus that was picked is handed out
before the context is written. -/
def hazeReplayBridgeInitCryptoContext (O : OpenFhe) (env : InitReplies)
    (ringDim desiredModulus : UInt64) (pickedModulus : Bool) (p : Process P M) :
    (HazeError × Option UInt64) × Process P M :=
  if !pickedModulus then ((.invalidValue, none), p)
  else
    let started := p.call [.init (bridgeArgv p.world.config)]
    if !env.initReturns then ((.internal, none), started)
    else
      match buildContext O ringDim [desiredModulus] with
      | .error _ => ((.internal, none), started)
      | .ok (.error e) => ((e.toHazeError, none), started)
      | .ok (.ok built) =>
        match firstTowerModulus built.cc with
        | .error _ => ((.internal, none), started)
        | .ok picked =>
          let named := started.call (nameProject p.world.config)
          if !env.captureReturns then ((.internal, some picked), named)
          else ((.success, some picked), { named with
            cryptoContext := some named.world.compiler
            hook := some ⟨ringDim, built⟩ })

/-- What a caller does: a call of the runtime, or an initialization of the bridge. -/
inductive Step (P : Type) where
  | call (i : Invocation P)
  | initCryptoContext (env : InitReplies) (ringDim desiredModulus : UInt64) (pickedModulus : Bool)

/-- The state after a step. A reset drops the hook, and with it what is known of the context. -/
def Process.after (F : Fhetch P M) (O : OpenFhe) (p : Process P M) : Step P → Process P M
  | .call i =>
    if i.call matches .deviceReset then ⟨p.world.after F i, none, none⟩
    else { p with world := p.world.after F i }
  | .initCryptoContext env ringDim desiredModulus pickedModulus =>
    (hazeReplayBridgeInitCryptoContext O env ringDim desiredModulus pickedModulus p).2

/-- The state after some steps. -/
def Process.runAll (F : Fhetch P M) (O : OpenFhe) (p : Process P M) (steps : List (Step P)) :
    Process P M :=
  steps.foldl (Process.after F O) p

/-! ## The directory -/

section

variable {D : Project P M}

/-- The directory after more calls is where these move it to. -/
theorem dir_append (D : Project P M) (cs ds : List (CompilerCall P M)) :
    D.dir (cs ++ ds) = ds.foldl D.after (D.dir cs) :=
  List.foldl_append

/-- The project is where it was before calls that do not move it. -/
theorem dir_stays (hD : D.Lawful) {cs ds : List (CompilerCall P M)} (h : ∀ c ∈ ds, ¬ c.Moves) :
    D.dir (cs ++ ds) = D.dir cs := by
  rw [dir_append]
  generalize D.dir cs = dir
  induction ds generalizing dir with
  | nil => rfl
  | cons c ds ih =>
    rw [List.foldl_cons, hD.stays dir c (h c (List.mem_cons_self ..))]
    exact ih (fun d hd => h d (List.mem_cons_of_mem _ hd)) dir

/-- Where naming a program and then setting the configured directory moves the project to. -/
def configuredDir (D : Project P M) (c : Config) (program : String) : D.Dir :=
  match c.programDir with
  | some path => D.pinned path
  | none => D.named program

/-- Wherever the project is, the bridge moves it to the directory configured for its own name. -/
theorem foldl_nameProject (hD : D.Lawful) (c : Config) (dir : D.Dir) :
    (nameProject c).foldl D.after dir = configuredDir D c "haze" := by
  unfold nameProject configuredDir
  rcases c.programDir with _ | path
  · exact hD.setProgramInfo ..
  · exact hD.setProgramDirectory ..

/-- The program and the directory are configured as they were, the backend was not shut down, and once
the backend is up the project is where it was, or in the configured directory if the backend was
initialized since. Until then an initialization that throws may have moved it. -/
structure Placed (D : Project P M) (c : Config) (up : Bool) (dir : D.Dir) (w : World P M) :
    Prop where
  programInfo : w.config.programInfo = c.programInfo
  programDir : w.config.programDir = c.programDir
  initialized : up = true → w.initialized = true
  dir : w.initialized = true →
    D.dir w.compiler = if up then dir else configuredDir D c c.program.1

variable {F : Fhetch P M} {c : Config} {up : Bool} {dir : D.Dir} {w : World P M}

/-- Only the configuration, the backend and the calls to the compiler matter. -/
theorem Placed.of_frame {v : World P M} {ds : List (CompilerCall P M)}
    (h : Placed D c up dir { w with compiler := w.compiler ++ ds }) (hconfig : v.config = w.config)
    (hinit : v.initialized = w.initialized) (hcompiler : v.compiler = w.compiler ++ ds) :
    Placed D c up dir v where
  programInfo := by rw [hconfig]; exact h.programInfo
  programDir := by rw [hconfig]; exact h.programDir
  initialized := by rw [hinit]; exact h.initialized
  dir := by rw [hcompiler, hinit]; exact h.dir

/-- Calls that leave the project where it is change nothing. -/
theorem Placed.calls (hD : D.Lawful) (h : Placed D c up dir w) {ds : List (CompilerCall P M)}
    (hds : ∀ d ∈ ds, ¬ d.Moves) :
    Placed D c up dir { w with compiler := w.compiler ++ ds } where
  programInfo := h.programInfo
  programDir := h.programDir
  initialized := h.initialized
  dir hup := (dir_stays hD hds).trans (h.dir hup)

/-- The calls that tag the outputs leave the project where it is. -/
theorem stays_tagCalls (env : CompilerReplies P) (w : World P M) {d : CompilerCall P M}
    (hd : d ∈ World.tagCalls F env w) : ¬ d.Moves := by
  unfold World.tagCalls at hd
  rcases List.mem_append.mp hd with hd | hd
  · obtain ⟨entry, -, hcall⟩ := List.mem_filterMap.mp hd
    obtain ⟨poly, -, rfl⟩ := Option.map_eq_some_iff.mp hcall
    exact id
  · obtain ⟨name, -, hcall⟩ := List.mem_filterMap.mp hd
    obtain ⟨group, -, rfl⟩ := Option.map_eq_some_iff.mp hcall
    exact id

/-- Initializing the backend moves the project to the configured directory, unless it is up. -/
theorem Placed.ensureInitialized (hD : D.Lawful) (env : CompilerReplies P)
    (h : Placed D c up dir w) : Placed D c up dir (World.ensureInitialized env w) := by
  unfold World.ensureInitialized
  split_ifs with hup hformat hreturns
  · exact h
  · exact h
  · exact ⟨h.programInfo, h.programDir, h.initialized, fun hinit => absurd hinit hup⟩
  · rw [Bool.not_eq_true] at hup
    have hdown : up = false := by
      rcases up
      · rfl
      · cases hup.symm.trans (h.initialized rfl)
    refine ⟨h.programInfo, h.programDir, fun _ => rfl, fun _ => ?_⟩
    subst hdown
    have hprogram : w.config.program = c.program := congrArg (Option.getD · _) h.programInfo
    rw [hprogram, h.programDir]
    unfold configuredDir
    have hsuppress : ∀ dir, D.after dir .suppressProbes = dir := fun dir => hD.stays dir _ id
    -- Wherever initializing the compiler left the project, the calls behind it name the program.
    rcases c.programDir with _ | path <;>
      simp [dir_append, hD.setProgramInfo, hD.setProgramDirectory, hsuppress]

/-- Opening a session. -/
theorem Placed.session (hD : D.Lawful) (env : CompilerReplies P) (h : Placed D c up dir w) :
    Placed D c up dir (World.ensureRecordingLocked (World.ensureInitialized env w)) := by
  have hinit := h.ensureInitialized hD env
  unfold World.ensureRecordingLocked
  split_ifs
  · have hstays : ∀ d ∈ ([.startEpoch, .start] : List (CompilerCall P M)), ¬ d.Moves :=
      fun d hd => by rcases List.mem_pair.mp hd with rfl | rfl <;> exact id
    have hcalls := hinit.calls hD hstays
    exact ⟨hcalls.programInfo, hcalls.programDir, hcalls.initialized, hcalls.dir⟩
  · exact hinit

/-- The methods of an open session leave the project where it is. -/
theorem placed_inside (F : Fhetch P M) (hD : D.Lawful) (c : Config) (up : Bool) (dir : D.Dir) :
    World.KeptInside F .all (Placed D c up dir) where
  -- The calls of a session but the first leave the project directory alone.
  known := Domain.all_known F _
  allocator w s h := ⟨h.programInfo, h.programDir, h.initialized, h.dir⟩
  epoch w x _ h := ⟨h.programInfo, h.programDir, h.initialized, h.dir⟩
  tagInput addr values n := by
    refine World.tagInput_all (Expected.Keeps.iff_state.mpr fun w h => ?_)
    have hstays : ∀ d ∈ [.tagInput (.hazeIn w.epoch.inputCounter) (F.fromData values n)],
        ¬ (d : CompilerCall P M).Moves := fun d hd => by
      rw [List.mem_singleton.mp hd]
      exact id
    have hcalls := h.calls hD hstays
    exact ⟨hcalls.programInfo, hcalls.programDir, hcalls.initialized, hcalls.dir⟩
  nameInput leading base mrp _ _ := by
    have hname : Expected.Keeps (Placed D c up dir)
        (World.onEpoch (EpochState.mrpGroupNameLocked false leading) : Method P M ProbeName) :=
      Expected.Keeps.iff_state.mpr fun w h =>
        ⟨h.programInfo, h.programDir, h.initialized, h.dir⟩
    refine .bind hname fun name => .get_bind fun w => ?_
    split_ifs
    · exact .pure ()
    · refine .bind (.modify fun v h =>
        ⟨h.programInfo, h.programDir, h.initialized, h.dir⟩) fun _ => .modify fun v h => ?_
      refine h.calls hD fun d hd => ?_
      rw [List.mem_singleton.mp hd]
      exact id
  bindModulus polys q _ _ := by
    unfold World.bindModulus
    split_ifs
    · refine .modify fun w h => h.calls hD fun d hd => ?_
      obtain ⟨poly, -, rfl⟩ := List.mem_map.mp hd
      exact id
    · exact .pure ()

/-- A finalization leaves the project where it is. -/
theorem Placed.finalize (hD : D.Lawful) (env : CompilerReplies P) (runReplay : Bool)
    (hc : w.epoch.Consistent) (h : Placed D c up dir w) :
    Placed D c up dir (World.finalizeLocked F env runReplay w).2 := by
  -- Without a recording there is nothing to finalize.
  rcases hrec : w.epoch.recording
  · rw [World.finalize_idle runReplay hrec]
    exact h
  -- Everything in between keeps the configuration and the flag.
  have hkept := (World.finalize_finalizes (F := F) env runReplay w).preserves
    (I := fun v => v.config = w.config ∧ v.initialized = w.initialized)
    (fun v x hx hv => by cases x <;> first | exact hx.1.elim | exact hv) ⟨rfl, rfl⟩
  obtain ⟨v, ds, hv, hlog, hds⟩ := World.finalize_ends (F := F) env runReplay hc hrec
  rw [hv] at hkept ⊢
  have hcompiler : (World.clearStateLocked v).compiler =
      w.compiler ++ (World.tagCalls F env w ++ ds ++ [.clearCaptured]) := by
    change v.compiler ++ [.clearCaptured] = _
    rw [hlog]
    simp only [List.append_assoc]
  refine (h.calls hD fun d hd => ?_).of_frame hkept.1 hkept.2 hcompiler
  -- The tags, the stop and the replay, and the clearing of the captures: none moves the directory.
  rcases List.mem_append.mp hd with hd | hd
  · rcases List.mem_append.mp hd with hd | hd
    · exact stays_tagCalls env w hd
    · rcases List.mem_pair.mp (hds.subset hd) with rfl | rfl <;> exact id
  · rw [List.mem_singleton.mp hd]
    exact id

/-- A call that sets neither the program nor the directory keeps both. -/
theorem config_keeps {call : ConfigCall} (h : ¬ (Call.config call).Relocates) (c : Config) :
    (call.method c).2.programInfo = c.programInfo ∧ (call.method c).2.programDir = c.programDir := by
  cases call with
  | setProgramInfo name version description => exact absurd trivial h
  | setProgramDirectory dir => exact absurd trivial h
  | setCiphertextModulus index modulus =>
    unfold ConfigCall.method Config.setModulus
    dsimp only
    split_ifs <;> exact ⟨rfl, rfl⟩
  | setTwiddleFactors index generator =>
    unfold ConfigCall.method Config.setTwiddleGenerator
    dsimp only
    split_ifs <;> exact ⟨rfl, rfl⟩
  | configureDevice =>
    unfold ConfigCall.method Config.configureDevice
    dsimp only
    split_ifs <;> exact ⟨rfl, rfl⟩
  | setTarget target => rcases target with _ | target <;> exact ⟨rfl, rfl⟩
  | _ => exact ⟨rfl, rfl⟩

/-- Only the calls that set the configuration replace it. -/
theorem acts_config {pending : DevAddr → Prop} {call : Call} {c : Config}
    (h : call.Acts F pending (.config c)) : ∃ x, call = .config x := by
  cases call with
  | config x => exact ⟨x, rfl⟩
  | memcpy transfer count => cases transfer <;> exact h.elim
  | memcpyMrp transfer count base => cases transfer <;> exact h.elim
  | tagOutput | deviceReset | setRingDimension => cases h
  | _ => exact h.elim

/-- Every call that does not relocate the project leaves it where it is or initializes the
backend. -/
theorem Placed.after (hD : D.Lawful) (hv : w.Inv) {i : Invocation P} (hi : ¬ i.call.Relocates)
    (h : Placed D c up dir w) : Placed D c up dir (w.after F i) := by
  obtain ⟨env, call⟩ := i
  change ¬ call.Relocates at hi
  by_cases hrecords : call.Records
  · have hsessioned : World.Sessioned F .all env (Placed D c up dir) (Placed D c up dir) :=
      { before := (placed_inside F hD c up dir).allocator
        session := fun v hv => hv.session hD env
        inside := placed_inside F hD c up dir }
    exact (hsessioned.run hrecords (call.respects_all F) w h).elim id id
  by_cases hflush : call = .flush
  · subst hflush
    have hrun : w.after F ⟨env, .flush⟩ = (World.flush F env w).2 :=
      Shim.replyWith_state _ (World.flush F env) w
    rw [hrun, World.flush, Expected.get_bind_run]
    split_ifs
    · exact h
    · exact h.finalize hD env true hv.epoch.consistent
  by_cases hwrite : call = .writeProgram
  · subst hwrite
    have hrun : w.after F ⟨env, .writeProgram⟩ = (World.finalizeLocked F env false w).2 :=
      Shim.replyWith_state _ (World.finalizeLocked F env false) w
    rw [hrun]
    exact h.finalize hD env false hv.epoch.consistent
  by_cases hconfig : ∃ x, call = .config x
  · obtain ⟨x, rfl⟩ := hconfig
    obtain ⟨hprogram, hdir⟩ := config_keeps hi w.config
    have hrun : w.after F ⟨env, .config x⟩ = { w with config := (x.method w.config).2 } :=
      x.run_state w
    rw [hrun]
    exact ⟨hprogram.trans h.programInfo, hdir.trans h.programDir, h.initialized, h.dir⟩
  -- What is left acts on the allocator, the outputs and the ring dimension.
  refine (Call.performs (F := F) env call w).preserves (fun v x hx hv => ?_) h
  have hunbinds := Call.acts_unbinds hrecords hx.1
  cases x with
  | promote a => exact hunbinds.elim
  | session env => exact hunbinds.elim
  | reset =>
    rw [World.acts_reset hx.1] at hi
    exact absurd trivial hi
  | calls cs => exact ((World.acts_finalizes (.inr ⟨cs, rfl⟩) hrecords hx.1).elim hflush hwrite).elim
  | clearState => exact ((World.acts_finalizes (.inl rfl) hrecords hx.1).elim hflush hwrite).elim
  | config c' =>
    exact absurd (acts_config hx.1) hconfig
  | _ => exact ⟨hv.programInfo, hv.programDir, hv.initialized, hv.dir⟩

/-! ## Runs -/

/-- The bridge's calls capture no outputs. -/
theorem quiet_bridgeCalls (c : Config) :
    Quiet ([.init (bridgeArgv c)] ++ nameProject c : List (CompilerCall P M)) := by
  intro outputs
  unfold nameProject
  rcases c.programDir with _ | dir <;> rfl

/-- An initialization of the bridge that fails only makes calls to the compiler. One that succeeds
moves the project, writes the context there and installs the hook. -/
theorem hazeReplayBridgeInitCryptoContext_cases (O : OpenFhe) (env : InitReplies)
    (ringDim desiredModulus : UInt64) (pickedModulus : Bool) (p : Process P M) :
    let r := hazeReplayBridgeInitCryptoContext O env ringDim desiredModulus pickedModulus p
    let calls := [.init (bridgeArgv p.world.config)] ++ nameProject p.world.config
    (r.1.1 ≠ .success ∧ ∃ cs, Quiet cs ∧ r.2 = p.call cs) ∨
      r.1.1 = .success ∧ ∃ built, buildContext O ringDim [desiredModulus] = .ok (.ok built) ∧
        r.2 = { p.call calls with
          cryptoContext := some (p.world.compiler ++ calls)
          hook := some ⟨ringDim, built⟩ } := by
  have hnone : p = p.call [] := by rw [Process.call, List.append_nil]
  have hcall : ∀ cs ds : List (CompilerCall P M), (p.call cs).call ds = p.call (cs ++ ds) :=
    fun cs ds => by rw [Process.call, Process.call, Process.call, List.append_assoc]
  -- The steps of the source, in its order; each failure leaves what was called before it.
  unfold hazeReplayBridgeInitCryptoContext
  rcases pickedModulus
  · exact .inl ⟨nofun, [], fun _ => rfl, hnone⟩
  have hinit : Quiet [(.init (bridgeArgv p.world.config) : CompilerCall P M)] := fun _ => rfl
  rcases env with ⟨initReturns, captureReturns⟩
  rcases initReturns
  · exact .inl ⟨nofun, _, hinit, rfl⟩
  rcases buildContext O ringDim [desiredModulus] with e | e | built
  · exact .inl ⟨nofun, _, hinit, rfl⟩
  · refine .inl ⟨?_, _, hinit, rfl⟩
    cases e <;> exact nofun
  rcases hpicked : firstTowerModulus built.cc with e | picked
  · refine .inl ⟨?_, _, hinit, ?_⟩ <;> simp [hpicked]
  rcases captureReturns
  · refine .inl ⟨?_, _, quiet_bridgeCalls p.world.config, ?_⟩
    · simp [hpicked]
    · simp only [hpicked, hcall]
      rfl
  · refine .inr ⟨?_, built, rfl, ?_⟩
    · simp [hpicked]
    · simp only [hpicked, hcall]
      rfl

/-- The initialization of the bridge returns one of the codes that it can return. -/
theorem hazeReplayBridgeInitCryptoContext_returns (O : OpenFhe) (env : InitReplies)
    (ringDim desiredModulus : UInt64) (pickedModulus : Bool) (p : Process P M) :
    InitReturns
      (hazeReplayBridgeInitCryptoContext O env ringDim desiredModulus pickedModulus p).1.1 := by
  unfold hazeReplayBridgeInitCryptoContext
  rcases pickedModulus
  · exact .inr (.inl rfl)
  rcases env with ⟨initReturns, captureReturns⟩
  rcases initReturns
  · exact .inr (.inr rfl)
  rcases buildContext O ringDim [desiredModulus] with e | e | built
  · exact .inr (.inr rfl)
  · cases e
    · exact .inr (.inl rfl)
    · exact .inr (.inr rfl)
  rcases hpicked : firstTowerModulus built.cc with e | picked
  · exact .inr (.inr (by simp [hpicked]))
  rcases captureReturns
  · exact .inr (.inr (by simp [hpicked]))
  · exact .inl (by simp [hpicked])

/-- The invariant of the runtime holds, no output is captured between two calls, and a hook that is
installed has a context that was built for it. -/
structure Process.Inv (O : OpenFhe) (p : Process P M) : Prop where
  world : p.world.Inv
  captured : capturedOutputs p.world.compiler = []
  hook : ∀ hctx, p.hook = some hctx → hctx.Installed O

/-- The invariant holds at the start of the process. -/
theorem process_inv_init (O : OpenFhe) : (Process.init : Process P M).Inv O where
  world := World.inv_init
  captured := rfl
  hook _ h := nomatch h

/-- Every step keeps it. -/
theorem Process.Inv.after {O : OpenFhe} {p : Process P M} (hp : p.Inv O) (step : Step P) :
    (p.after F O step).Inv O := by
  cases step with
  | call i =>
    have hworld := hp.world.after (F := F) i
    -- A reset forgets the hook; any other call keeps it.
    have hcaptured := World.captured_after (F := F) hp.world hp.captured i
    unfold Process.after
    dsimp only
    split_ifs
    · exact ⟨hworld, hcaptured, fun _ h => nomatch h⟩
    · exact ⟨hworld, hcaptured, hp.hook⟩
  | initCryptoContext env ringDim desiredModulus pickedModulus =>
    -- The bridge's own calls change nothing but the compiler's log.
    have hcalls : ∀ cs, (p.call cs).world.Inv := fun cs =>
      ⟨hp.world.epoch, hp.world.allocator, hp.world.size, hp.world.initialized⟩
    have hquiet : ∀ {cs}, Quiet cs → capturedOutputs (p.call cs).world.compiler = [] := by
      intro cs hcs
      exact (World.capturedOutputs_append p.world.compiler cs).trans ((hcs _).trans hp.captured)
    change (hazeReplayBridgeInitCryptoContext O env ringDim desiredModulus pickedModulus p).2.Inv O
    rcases hazeReplayBridgeInitCryptoContext_cases O env ringDim desiredModulus pickedModulus p with
      ⟨-, cs, hcs, hrun⟩ | ⟨-, built, hbuilt, hrun⟩
    · rw [hrun]
      exact ⟨hcalls cs, hquiet hcs, hp.hook⟩
    · rw [hrun]
      refine ⟨hcalls _, hquiet (quiet_bridgeCalls p.world.config), fun hctx hhook => ?_⟩
      cases hhook
      exact ⟨desiredModulus, hbuilt⟩

/-- So does every run. -/
theorem Process.Inv.runAll {O : OpenFhe} (steps : List (Step P)) {p : Process P M} (hp : p.Inv O) :
    (p.runAll F O steps).Inv O := by
  induction steps generalizing p with
  | nil => exact hp
  | cons step steps ih => exact ih (hp.after step)

/-- A run of calls that do not relocate the project. -/
theorem Placed.runAll (hD : D.Lawful) {O : OpenFhe} {is : List (Invocation P)}
    (his : ∀ i ∈ is, ¬ i.call.Relocates) {p : Process P M} (hp : p.Inv O)
    (h : Placed D c up dir p.world) :
    Placed D c up dir (p.runAll F O (is.map .call)).world ∧
      (p.runAll F O (is.map .call)).cryptoContext = p.cryptoContext := by
  induction is generalizing p with
  | nil => exact ⟨h, rfl⟩
  | cons i is ih =>
    have hi := his i (List.mem_cons_self ..)
    have hstep : p.after F O (.call i) = { p with world := p.world.after F i } := by
      refine if_neg fun hreset => ?_
      rcases i with ⟨env, call⟩
      cases call <;> first | exact absurd trivial hi | exact absurd hreset Bool.false_ne_true
    have hafter := ih (fun j hj => his j (List.mem_cons_of_mem _ hj)) (hp.after (F := F) (.call i))
      (by rw [hstep]; exact h.after hD hp.world hi)
    rw [hstep] at hafter
    have hrun : p.runAll F O ((i :: is).map .call) =
        Process.runAll F O { p with world := p.world.after F i } (is.map .call) :=
      congrArg (Process.runAll F O · (is.map .call)) hstep
    rw [hrun]
    exact hafter

end

/-- After an initialization of the bridge that succeeds, and calls that relocate nothing, an epoch
that is recorded will be written to the crypto context's directory if and only if the backend was up
before, the directory is pinned, or the program's name has the directory of the name that the bridge
gives it. -/
theorem cryptoContext_with_trace (F : Fhetch P M) (O : OpenFhe) {D : Project P M} (hD : D.Lawful)
    (steps : List (Step P)) (env : InitReplies) (ringDim desiredModulus : UInt64) (pickedModulus : Bool)
    {is : List (Invocation P)} (his : ∀ i ∈ is, ¬ i.call.Relocates) :
    let p := Process.init.runAll F O steps
    let r := hazeReplayBridgeInitCryptoContext O env ringDim desiredModulus pickedModulus p
    let q := r.2.runAll F O (is.map .call)
    r.1.1 = .success → q.world.epoch.recording = true →
      (q.cryptoContext.map D.dir = some (D.dir q.world.compiler) ↔
        p.world.initialized = true ∨ p.world.config.programDir ≠ none ∨
          D.named p.world.config.program.1 = D.named "haze") := by
  intro p r q hsuccess hrecording
  have hp : p.Inv O := (process_inv_init O).runAll steps
  -- A failed call is excluded, so the context was saved under the configured directory.
  rcases hazeReplayBridgeInitCryptoContext_cases O env ringDim desiredModulus pickedModulus p with
    ⟨hfails, -⟩ | ⟨-, built, -, hrun⟩
  · exact absurd hsuccess hfails
  change r.2 = _ at hrun
  have hdir : D.dir (p.world.compiler ++
      ([.init (bridgeArgv p.world.config)] ++ nameProject p.world.config)) =
        configuredDir D p.world.config "haze" := by
    rw [dir_append, List.foldl_append, foldl_nameProject hD]
  -- From there on the trace keeps to the same directory.
  have hplaced : Placed D p.world.config p.world.initialized
      (configuredDir D p.world.config "haze") r.2.world := by
    rw [hrun]
    refine ⟨rfl, rfl, id, fun hup => hdir.trans ?_⟩
    exact (if_pos hup).symm
  have hr : r.2.Inv O := hp.after (F := F) (.initCryptoContext env ringDim desiredModulus pickedModulus)
  obtain ⟨hafter, hcontext⟩ := hplaced.runAll (F := F) hD his hr
  have hup : q.world.initialized = true := (hr.runAll (F := F) (is.map .call)).world.initialized
    hrecording
  change q.cryptoContext = r.2.cryptoContext at hcontext
  rw [hcontext, hrun]
  change some (D.dir _) = some (D.dir q.world.compiler) ↔ _
  rw [hdir, Option.some.injEq, show D.dir q.world.compiler = _ from hafter.dir hup]
  -- Before the first session the program's name decides; afterwards the directory stays.
  rcases p.world.initialized
  · change configuredDir D p.world.config "haze" =
      configuredDir D p.world.config p.world.config.program.1 ↔ _
    unfold configuredDir
    rcases p.world.config.programDir with _ | path
    · simp [eq_comm]
    · simp
  · simp

/-- A project that is always in the directory that the last call gave it. -/
def plainProject : Project P M where
  Dir := String
  initial := "."
  named name := "./" ++ name
  pinned path := path
  after dir
    | .setProgramInfo name _ _ => "./" ++ name
    | .setProgramDirectory path => path
    | .reset => "."
    | _ => dir

/-- The plain project is lawful. -/
theorem plainProject_lawful : (plainProject : Project P M).Lawful where
  setProgramInfo _ _ _ _ := rfl
  setProgramDirectory _ _ := rfl
  stays dir call h := by cases call <;> first | rfl | exact absurd trivial h

/-- A program with a name of its own is not written to the crypto context's directory. -/
theorem cryptoContext_with_trace_example :
    let p := Process.init.runAll scalarRing plainFhe ((scalarProgram [.setRingDimension 1,
      .config (.setProgramInfo (some "sum") (some "1.0") (some "")), .malloc true 8]).map .call)
    let r := hazeReplayBridgeInitCryptoContext plainFhe ⟨true, true⟩ 4 17 true p
    let q := r.2.runAll scalarRing plainFhe ((scalarProgram [uploadFive]).map .call)
    ¬ q.cryptoContext.map plainProject.dir = some (plainProject.dir q.world.compiler) := by
  intro p r q hdir
  have hupload : ∀ i ∈ scalarProgram [uploadFive], ¬ i.call.Relocates := by
    intro i hi
    obtain rfl : i = ⟨scalarReplies, uploadFive⟩ := List.mem_singleton.mp hi
    exact id
  have hplaced := (cryptoContext_with_trace scalarRing plainFhe plainProject_lawful _ ⟨true, true⟩
    4 17 true hupload rfl rfl).mp hdir
  rcases hplaced with hup | hpinned | hnamed
  · exact absurd hup (by decide)
  · exact hpinned rfl
  · exact absurd (show "./" ++ "sum" = "./" ++ "haze" from hnamed) (by decide)

/-! ## The hook inside a finalization -/

/-- Whether the installed hook fails on the records that were captured. -/
def Process.hookFails (O : OpenFhe) (W : Writers) (inputs : List CapturedInputRecord)
    (outputs : List (String × CapturedShape)) (p : Process P M) : Bool :=
  match p.hook with
  | none => false
  | some hctx => (onPostRecording O W hctx inputs outputs .empty).2.hadError

/-- A finalization whose stop succeeds fails with the hook's failure if and only if one was left over
or a captured record that is no key cannot be synthesized. -/
theorem finalized_hookFailed (F : Fhetch P M) {O : OpenFhe} {W : Writers} {hctx : HookCtx}
    {supported : UInt64 → Prop} {depth : ℕ} (hR : O.Reliable hctx.ringDim supported depth)
    {inputs : List CapturedInputRecord} {outputs : List (String × CapturedShape)}
    (hshape : ∀ r ∈ unpassed inputs outputs, r.shape.Supported supported depth)
    (hwriter : ∀ r ∈ unpassed inputs outputs, ∀ ct, r.writer W ct = .ok true)
    (hdefined : ∀ r ∈ unpassed inputs outputs, ¬ r.Undefined) (steps : List (Step P))
    (i : Invocation P) :
    let p := Process.init.runAll F O steps
    p.hook = some hctx → i.call.Stops p.world → i.env.stopSucceeds = true →
      i.env.hookFails = p.hookFails O W inputs outputs →
      (i.call.finalized F i.env p.world = some (.error .bridgeHookFailed) ↔
        p.world.hookHadError = true ∨ ∃ r ∈ unpassed inputs outputs, ¬ r.Writable hctx) := by
  intro p hhook hstops hstop hfails
  have hp : p.Inv O := (process_inv_init O).runAll steps
  -- The flag is one of the records' own flags, each raised exactly where it is not writable.
  obtain ⟨hok, hany⟩ := alone_any_flag hR (hp.hook hctx hhook) hshape hwriter hdefined
  obtain ⟨-, -, hflags, -⟩ := onPostRecording_marks O W hctx hok .empty
  have hflag : p.hookFails O W inputs outputs = true ↔
      ∃ r ∈ unpassed inputs outputs, ¬ r.Writable hctx := by
    unfold Process.hookFails
    rw [hhook]
    dsimp only
    rw [hflags, List.any_map, Bool.or_eq_true, List.any_eq_true]
    exact (or_iff_right Bool.false_ne_true).trans hany
  -- The hook's answer is the first thing the finalization looks at.
  obtain ⟨-, hresult⟩ := Invocation.stops_hook (F := F) hp.world.epoch.consistent hstops
  obtain ⟨runReplay, -, hfinalized⟩ := Invocation.stops_run (F := F) hstops
  rw [hfinalized, Option.some.injEq, hresult _ hfinalized, hstop, Bool.or_eq_true, hfails, hflag]
  exact and_iff_right rfl

/-- A flush with an array of two elements among its inputs fails with the hook's failure. -/
theorem finalized_hookFailed_example :
    let steps : List (Step UInt64) :=
      (scalarProgram [.setRingDimension 1, .malloc true 8]).map .call ++
        [.initCryptoContext ⟨true, true⟩ 4 17 true] ++
        (scalarProgram [uploadFive, .tagOutput ⟨kHbmBase⟩]).map .call
    (Call.finalized scalarRing { scalarReplies with hookFails := true }
        (Process.init.runAll scalarRing plainFhe steps).world .flush) =
      some (.error .bridgeHookFailed) := by
  intro steps
  have hR : plainFhe.Reliable fourDim.ringDim (· = 17) 4 := plainFhe_reliable
  have hwriter : ∀ r ∈ unpassed [⟨"x", ⟨.mrpArray, [[17], [17]]⟩, [1, 2], [[1, 2, 3, 4]]⟩]
      [("y", ⟨.mrpArray, [[17], [17]]⟩)], ∀ ct, r.writer plainWriters ct = .ok true := by
    rintro (r | output) _ ct <;> rfl
  refine (finalized_hookFailed scalarRing hR (by decide) hwriter (by decide) steps
    ⟨{ scalarReplies with hookFails := true }, .flush⟩ rfl ?_ rfl rfl).mpr
      (.inr ⟨_, List.mem_cons_self .., ?_⟩)
  · exact ⟨.inr ⟨rfl, rfl⟩, rfl, by decide⟩
  · rintro (hkind | ⟨-, hnone | hcount⟩)
    · cases hkind
    · cases hnone
    · cases hcount

end Bridge

end Haze
