import Haze.Runtime.Flush
import Haze.Runtime.Keeping

/-!
# The compiler's recording session

The runtime starts, stops and replays a recording, and resets the compiler. Whether a recording is
open it keeps in a flag of its own, which a finalization clears with the rest of the epoch. A
finalization of an epoch without outputs clears it without stopping the recording, so the next
session starts one while the compiler still has one open. `session_protocol` says that this is the
only way out of the protocol: the control calls of a run follow it exactly when no session is opened
between such a finalization and the next reset.
-/

namespace Haze

variable {P M : Type}

/-! ## The protocol -/

/-- A control call to the compiler. A stop carries what it returned. -/
inductive Control where
  | start
  | stop (ok : Bool)
  | replay
  | reset
deriving DecidableEq, Repr

namespace Control

/-- Whether a recording is open after one more control call. -/
def opens (isOpen : Bool) : Control → Bool
  | .start => true
  | .stop _ => false
  | .replay => isOpen
  | .reset => false

/-- A recording was started and neither stopped nor reset since. -/
def isOpen (cs : List Control) : Bool := cs.foldl opens false

/-- What has to come before a control call: a recording starts where none is open, stops where one
is, and is replayed directly after a stop that succeeded. -/
def Due (earlier : List Control) : Control → Prop
  | .start => isOpen earlier = false
  | .stop _ => isOpen earlier = true
  | .replay => earlier.getLast? = some (.stop true)
  | .reset => True

/-- The control calls follow the protocol, after the earlier ones. -/
def Follow : List Control → List Control → Prop
  | _, [] => True
  | earlier, c :: cs => c.Due earlier ∧ Follow (earlier ++ [c]) cs

/-- Whether a recording is open after more controls follows from whether it is before them. -/
theorem isOpen_append (cs ds : List Control) : isOpen (cs ++ ds) = ds.foldl opens (isOpen cs) :=
  List.foldl_append

/-- Two lists of controls follow the protocol when each does in its turn. -/
theorem follow_append {earlier cs ds : List Control} :
    Follow earlier (cs ++ ds) ↔ Follow earlier cs ∧ Follow (earlier ++ cs) ds := by
  induction cs generalizing earlier with
  | nil => simp [Follow]
  | cons c cs ih =>
    rw [List.cons_append, Follow, ih, Follow, and_assoc, List.append_assoc]
    rfl

end Control

/-- The control call that a call to the compiler is, when its stop returns `stopOk`. -/
def CompilerCall.control (stopOk : Bool) : CompilerCall P M → Option Control
  | .start => some .start
  | .stop => some (.stop stopOk)
  | .replay => some .replay
  | .reset => some .reset
  | _ => none

/-- The control calls among some calls to the compiler. -/
def controls (stopOk : Bool) (cs : List (CompilerCall P M)) : List Control :=
  cs.filterMap (CompilerCall.control stopOk)

/-- The controls of more calls come behind those before. -/
theorem controls_append (stopOk : Bool) (cs ds : List (CompilerCall P M)) :
    controls stopOk (cs ++ ds) = controls stopOk cs ++ controls stopOk ds :=
  List.filterMap_append

/-- The control calls of a program, in order. -/
def World.controlsOf (F : Fhetch P M) : World P M → List (Invocation P) → List Control
  | _, [] => []
  | w, i :: is =>
    controls i.env.stopSucceeds ((w.after F i).compiler.drop w.compiler.length) ++
      World.controlsOf F (w.after F i) is

namespace World

/-! ## The calls to the compiler that one public call makes -/

/-- From `w`, the calls to the compiler that were made are these, as far as they are control calls,
and whether the epoch is recorded. -/
structure Controlled (stopOk : Bool) (w : World P M) (cs : List Control) (recording : Bool)
    (v : World P M) : Prop where
  log : ∃ ds, v.compiler = w.compiler ++ ds ∧ controls stopOk ds = cs
  recording : v.epoch.recording = recording

/-- Calls that are no control calls add none. -/
theorem Controlled.log_append {stopOk recording : Bool} {w v : World P M} {cs : List Control}
    (h : Controlled stopOk w cs recording v) (ds : List (CompilerCall P M))
    (hds : controls stopOk ds = []) :
    ∃ ds', v.compiler ++ ds = w.compiler ++ ds' ∧ controls stopOk ds' = cs := by
  obtain ⟨ds', hlog, hcs⟩ := h.log
  refine ⟨ds' ++ ds, by rw [hlog, List.append_assoc], ?_⟩
  rw [controls_append, hcs, hds, List.append_nil]

variable {F : Fhetch P M} {env : CompilerReplies P} {w : World P M}

/-- Doing nothing makes no controls. -/
theorem Controlled.refl (stopOk : Bool) (w : World P M) :
    Controlled stopOk w [] w.epoch.recording w :=
  ⟨⟨[], (List.append_nil _).symm, rfl⟩, rfl⟩

/-- What the allocator holds does not matter. -/
theorem Controlled.of_allocator {stopOk recording : Bool} {w v : World P M} {cs : List Control}
    {s : DeviceAllocator} (h : Controlled stopOk { w with allocator := s } cs recording v) :
    Controlled stopOk w cs recording v :=
  ⟨h.log, h.recording⟩

/-- An action of the epoch other than its end keeps whether the epoch is recorded. -/
theorem recording_plain (s : EpochState P) {x : EpochAction P} (hx : x.Plain (.all : Domain P M)) :
    (s.act x).recording = s.recording :=
  recording_epoch_act s x fun h => by
    rw [h] at hx
    exact hx

/-- The methods of an open session make no control calls. -/
theorem controlled_inside (F : Fhetch P M) (stopOk recording : Bool) (w : World P M)
    (cs : List Control) : KeptInside F .all (Controlled stopOk w cs recording) where
  -- None of these actions starts or stops, and none closes the recording.
  known := Domain.all_known F _
  allocator v s h := ⟨h.log, h.recording⟩
  epoch v x hx h := ⟨h.log, (recording_plain v.epoch hx).trans h.recording⟩
  tagInput addr values n := by
    refine tagInput_all (Expected.Keeps.iff_state.mpr fun v h => ⟨?_, ?_⟩)
    · exact h.log_append [.tagInput (.hazeIn v.epoch.inputCounter) (F.fromData values n)] rfl
    · exact h.recording
  nameInput leading base mrp _ _ := by
    have hname : Expected.Keeps (Controlled stopOk w cs recording)
        (onEpoch (EpochState.mrpGroupNameLocked false leading) : Method P M ProbeName) := by
      refine Expected.Keeps.iff_state.mpr fun v h => ⟨h.log, ?_⟩
      change (v.epoch.act (.nameGroup false leading)).recording = recording
      exact (recording_epoch_act v.epoch (.nameGroup false leading) nofun).trans h.recording
    refine .bind hname fun name => .get_bind fun v => ?_
    split_ifs
    · exact .pure ()
    -- The announcement of an input is no control.
    · refine .bind (.modify fun u h => ⟨h.log, h.recording⟩) fun _ => .modify fun u h => ?_
      exact ⟨h.log_append [.tagInputMrp name mrp] rfl, h.recording⟩
  bindModulus polys q _ _ := by
    unfold bindModulus
    split_ifs
    · refine .modify fun v h => ⟨h.log_append _ ?_, h.recording⟩
      exact List.filterMap_eq_nil_iff.mpr fun c hc => by
        obtain ⟨poly, -, rfl⟩ := List.mem_map.mp hc
        rfl
    · exact .pure ()

/-! ## Sessions -/

/-- Initializing the backend makes no control calls. -/
theorem ensureInitialized_spec (env : CompilerReplies P) (w : World P M) :
    (∃ ds, (ensureInitialized env w).compiler = w.compiler ++ ds ∧
        ∀ stopOk, controls stopOk ds = []) ∧
      (ensureInitialized env w).epoch = w.epoch ∧
      ((ensureInitialized env w).initialized = true ↔ w.BackendUp env) := by
  unfold ensureInitialized BackendUp
  split_ifs with hup hformat hreturns
  · exact ⟨⟨[], (List.append_nil _).symm, fun _ => rfl⟩, rfl, by simp [hup]⟩
  · exact ⟨⟨[], (List.append_nil _).symm, fun _ => rfl⟩, rfl, by simp [hup, hformat]⟩
  · refine ⟨⟨[.init (initArgv w.config)], rfl, fun _ => rfl⟩, rfl, ?_⟩
    simp only [Bool.not_eq_true', Bool.not_eq_true] at hup hreturns
    simp [hup, hreturns]
  · refine ⟨⟨_, by rw [List.append_assoc, List.append_assoc], fun stopOk => ?_⟩, rfl, ?_⟩
    · rcases w.config.programDir with _ | dir <;> rfl
    · simp only [Bool.not_eq_true', Bool.not_eq_false, Bool.not_eq_true] at hreturns hformat
      simp [hreturns, hformat]

/-- A session starts a recording where none is open and the backend is up. -/
theorem controlled_session (stopOk : Bool) (w : World P M) :
    ((w.epoch.recording = false ∧ w.BackendUp env) →
        Controlled stopOk w [.start] true (epochSession env w).2) ∧
      (¬ (w.epoch.recording = false ∧ w.BackendUp env) →
        Controlled stopOk w [] w.epoch.recording (epochSession env w).2) := by
  obtain ⟨⟨ds, hlog, hds⟩, hepoch, hup⟩ := ensureInitialized_spec env w
  have hrun : (epochSession env w).2 = ensureRecordingLocked (ensureInitialized env w) := rfl
  rw [hrun, ensureRecordingLocked, hepoch]
  constructor
  -- With the backend up and no recording open, the session starts one.
  · intro hstart
    have hcond : ((ensureInitialized env w).initialized && !w.epoch.recording) = true := by
      rw [hup.mpr hstart.2, hstart.1]
      rfl
    rw [if_pos hcond]
    refine ⟨⟨ds ++ [.startEpoch, .start], ?_, ?_⟩, rfl⟩
    · rw [hlog, List.append_assoc]
    · rw [controls_append, hds]
      rfl
  -- Otherwise the initialization is all there is.
  · intro hkeep
    have hcond : ¬ ((ensureInitialized env w).initialized && !w.epoch.recording) = true := by
      rw [Bool.and_eq_true_iff, Bool.not_eq_true']
      exact fun h => hkeep ⟨h.2, hup.mp h.1⟩
    rw [if_neg hcond]
    exact ⟨⟨ds, hlog, hds stopOk⟩, by rw [hepoch]⟩

/-- A call that records makes no control call but the one that its session starts a recording
with. -/
theorem controlled_records (env : CompilerReplies P) (stopOk : Bool) {c : Call} (hc : c.Records)
    (hw : w.epoch.recording = true → w.initialized = true) :
    ((c.OpensSession w ∧ w.epoch.recording = false ∧ w.BackendUp env) →
        Controlled stopOk w [.start] true (c.run F env w).2) ∧
      (¬ (c.OpensSession w ∧ w.epoch.recording = false ∧ w.BackendUp env) →
        Controlled stopOk w [] w.epoch.recording (c.run F env w).2) := by
  -- Before the session only the allocator changes.
  let Before : World P M → Prop := fun v => ∃ s, v = { w with allocator := s }
  have hbefore : ∀ {v}, Before v → Controlled stopOk w [] w.epoch.recording v := by
    rintro v ⟨s, rfl⟩
    exact ⟨(Controlled.refl stopOk w).log, rfl⟩
  have hsessioned : ∀ cs recording,
      (∀ s, Controlled stopOk w cs recording (epochSession env { w with allocator := s }).2) →
      Sessioned F .all env Before (Controlled stopOk w cs recording) := fun cs recording hs =>
    { before := fun v s hv => by
        obtain ⟨s', rfl⟩ := hv
        exact ⟨s, rfl⟩
      session := fun v hv => by
        obtain ⟨s, rfl⟩ := hv
        exact hs s
      inside := controlled_inside F stopOk recording w cs }
  have hrun := fun cs recording hs =>
    (hsessioned cs recording hs).run hc (c.respects_all F) w ⟨w.allocator, rfl⟩
  rcases c.gated F env hc w with ⟨hopens, s, y, hy, hopened⟩ | ⟨hclosed, -, hs⟩
  · constructor
    · intro hstart
      rcases hrun [.start] true fun s =>
        ((controlled_session stopOk { w with allocator := s }).1 hstart.2).of_allocator with
        hkeep | hdone
      · -- The epoch would not be recorded, but it is.
        have hrec : (c.run F env w).2.epoch.recording = true := by
          rw [hy]
          exact (recording_opens (w := { w with allocator := s }) hw hopened).mpr hstart.2.2
        rw [(hbefore hkeep).recording, hstart.2.1] at hrec
        cases hrec
      · exact hdone
    · intro hkeep
      rcases hrun [] w.epoch.recording fun s =>
        ((controlled_session stopOk { w with allocator := s }).2 fun h =>
          hkeep ⟨hopens, h⟩).of_allocator with hdone | hdone
      · exact hbefore hdone
      · exact hdone
  · exact ⟨fun h => absurd h.1 hclosed, fun _ => hbefore hs⟩

/-! ## Finalizations -/

/-- Tagging the outputs makes no controls. -/
theorem controls_tagCalls (F : Fhetch P M) (env : CompilerReplies P) (w : World P M)
    (stopOk : Bool) : controls stopOk (tagCalls F env w) = [] := by
  rw [tagCalls, controls_append]
  have houtputs : controls stopOk ((outputs env w).filterMap (outputCall (M := M) w.epoch)) = [] := by
    rw [controls, List.filterMap_filterMap, List.filterMap_eq_nil_iff]
    intro entry _
    unfold outputCall
    rcases AList.lookup entry.1 w.epoch.polyMap with _ | poly <;> rfl
  have hgroups : ∀ names : List ProbeName,
      controls stopOk (names.filterMap (groupCall F w.epoch)) = [] := by
    intro names
    rw [controls, List.filterMap_filterMap, List.filterMap_eq_nil_iff]
    intro name _
    unfold groupCall
    rcases AList.lookup name w.epoch.knownMrpGroups with _ | group <;> rfl
  rw [houtputs, hgroups, List.nil_append]

/-- Reading an output back makes no calls, or ends the epoch. -/
theorem populateShadow_log (env : CompilerReplies P) (entry : Sigma fun _ : DevAddr => ProbeName)
    (log : List (CompilerCall P M)) :
    Expected.Triple (fun v : World P M => v.compiler = log) (populateShadow env entry)
      (fun _ v => v.compiler = log)
      (fun _ v => v.compiler = log ++ [.clearCaptured] ∧ v.epoch.recording = false) := by
  intro v hv
  -- Each way of failing aborts the epoch, which clears the captures.
  have habort : ∀ u : World P M, u.compiler = log →
      (clearStateLocked u).compiler = log ++ [.clearCaptured] ∧
        (clearStateLocked u).epoch.recording = false := by
    rintro u rfl
    exact ⟨rfl, rfl⟩
  unfold populateShadow
  rw [Expected.get_bind_run]
  rcases env.result (capturedOutputs v.compiler) entry.2 with _ | poly
  · exact habort v hv
  dsimp only
  rcases env.extractPolynomialValues poly entry.2 with _ | values
  · exact habort v hv
  dsimp only
  rw [Expected.attempt_bind_run]
  rcases (onAllocator (DeviceAllocator.updateShadow entry.1 values) v).1 with e | _
  · exact habort _ hv
  · exact hv

/-- A finalization with outputs stops the recording, and replays it at most when that succeeded. -/
theorem controlled_finalize (runReplay : Bool) (hc : w.epoch.Consistent)
    (hrec : w.epoch.recording = true)
    (hpend : ¬ (w.epoch.pendingOutputs = ∅ ∧ w.epoch.pendingMrpGroups = ∅)) :
    ∃ cs, (cs = [.stop env.stopSucceeds] ∨ cs = [.stop true, .replay] ∧ env.stopSucceeds = true) ∧
      Controlled env.stopSucceeds w cs false (finalizeLocked F env runReplay w).2 := by
  -- Of the calls of a finalization only the stop and the replay are controls.
  have hcontrols : ∀ ds : List (CompilerCall P M), controls env.stopSucceeds
      (tagCalls F env w ++ ds ++ [.clearCaptured]) = controls env.stopSucceeds ds := fun ds => by
    rw [controls_append, controls_append, controls_tagCalls, List.nil_append]
    exact List.append_nil _
  have hlog : ∀ ds : List (CompilerCall P M), w.compiler ++ tagCalls F env w ++ ds ++
      [.clearCaptured] = w.compiler ++ (tagCalls F env w ++ ds ++ [.clearCaptured]) := fun ds => by
    simp only [List.append_assoc]
  have hstopped : ∀ v : World P M, v.compiler = w.compiler ++ tagCalls F env w ++ [.stop] →
      Controlled env.stopSucceeds w [.stop env.stopSucceeds] false (clearStateLocked v) := by
    intro v hv
    refine ⟨⟨_, ?_, hcontrols [.stop]⟩, rfl⟩
    rw [← hlog, ← hv]
    rfl
  rw [finalize_run runReplay hc hrec hpend, doMaterialize_run
    (w := { w with compiler := w.compiler ++ tagCalls F env w }) runReplay hrec]
  -- The three ways out before the replay, and the two after it.
  split_ifs with hstop hhook hreplay hsucceeds
  · exact ⟨_, .inl rfl, hstopped _ rfl⟩
  · exact ⟨_, .inl rfl, hstopped _ rfl⟩
  · exact ⟨_, .inl rfl, hstopped _ rfl⟩
  all_goals
    rw [Bool.not_eq_false] at hstop
    have hreplayed : ∀ v : World P M,
        v.compiler = w.compiler ++ tagCalls F env w ++ [.stop] ++ [.replay] ++ [.clearCaptured] ∧
          v.epoch.recording = false →
        Controlled env.stopSucceeds w [.stop true, .replay] false v := by
      rintro v ⟨hv, hidle⟩
      refine ⟨⟨tagCalls F env w ++ [.stop, .replay] ++ [.clearCaptured], ?_, ?_⟩, hidle⟩
      · rw [hv, ← hlog]
        simp only [List.append_assoc, List.cons_append, List.nil_append]
      · rw [hcontrols, hstop]
        rfl
    refine ⟨_, .inr ⟨rfl, hstop⟩, hreplayed _ ?_⟩
  · exact ⟨rfl, rfl⟩
  · have hloop := Expected.Triple.bind
      (Expected.Triple.forEach fun entry (_ : entry ∈ outputs env w) =>
        populateShadow_log env entry (w.compiler ++ tagCalls F env w ++ [.stop] ++ [.replay]))
      (f := fun _ => Expected.modify clearStateLocked)
      (R := fun _ v => v.compiler = w.compiler ++ tagCalls F env w ++ [.stop] ++ [.replay] ++
        [.clearCaptured] ∧ v.epoch.recording = false)
      fun _ v hv => ⟨congrArg (· ++ [CompilerCall.clearCaptured]) hv, rfl⟩
    exact hloop.state (s := { w with
      compiler := w.compiler ++ tagCalls F env w ++ [.stop] ++ [.replay], hookHadError := false }) rfl

/-- The epoch is recorded and has no outputs. -/
def Untagged (w : World P M) : Prop :=
  w.epoch.recording = true ∧ w.epoch.pendingOutputs = ∅ ∧ w.epoch.pendingMrpGroups = ∅

end World

/-! ## Calls -/

/-- A finalization that drops a recorded epoch without stopping the recording. -/
def Call.Drops (w : World P M) : Call → Prop
  | .flush => w.config.unsupportedDataFormat = false ∧ w.Untagged
  | .writeProgram => w.Untagged
  | _ => False

/-- A call that drops a recording is a finalization of an open one. -/
theorem Call.Drops.finalizes {w : World P M} {c : Call} (h : c.Drops w) :
    (c = .flush ∨ c = .writeProgram) ∧ w.epoch.recording = true := by
  cases c with
  | flush => exact ⟨.inl rfl, h.2.1⟩
  | writeProgram => exact ⟨.inr rfl, h.1⟩
  | _ => exact h.elim

namespace World

variable {F : Fhetch P M} {w : World P M}

/-- Only a reset resets. -/
theorem acts_reset {pending : DevAddr → Prop} {c : Call} (h : c.Acts F pending .reset) :
    c = .deviceReset := by
  cases c with
  | memcpy transfer count => cases transfer <;> exact h.elim
  | memcpyMrp transfer count base => cases transfer <;> exact h.elim
  | deviceReset => rfl
  | tagOutput ptr => cases h
  | setRingDimension n => cases h
  | config call =>
    obtain ⟨c, hc⟩ := h
    cases hc
  | _ => exact h.elim

/-- Among the calls that do not record, only the finalizations call the compiler and drop the
epoch. -/
theorem acts_finalizes {pending : DevAddr → Prop} {c : Call} {x : Action P M}
    (hx : x = .clearState ∨ ∃ cs, x = .calls cs) (hc : ¬ c.Records) (h : c.Acts F pending x) :
    c = .flush ∨ c = .writeProgram := by
  rcases hx with rfl | ⟨cs, rfl⟩
  all_goals
    cases c with
    | flush => exact .inl rfl
    | writeProgram => exact .inr rfl
    | memcpy transfer count =>
      cases transfer with
      | hostToDevice | deviceToDevice => exact absurd trivial hc
      | _ => exact h.elim
    | memcpyMrp transfer count base =>
      cases transfer with
      | hostToDevice | deviceToDevice => exact absurd trivial hc
      | _ => exact h.elim
    | malloc | mallocMrp | free | freeMrp | memset => exact h.elim
    | tagOutput | deviceReset | setRingDimension => cases h
    | config call =>
      obtain ⟨c, hc⟩ := h
      cases hc
    | _ => exact absurd trivial hc

/-- The backend stays initialized until the next reset. -/
theorem initialized_after {i : Invocation P} (hi : i.call ≠ .deviceReset)
    (h : w.initialized = true) : (w.after F i).initialized = true := by
  refine (Call.performs (F := F) i.env i.call w).preserves (I := fun v => v.initialized = true)
    (fun v x hx hv => ?_) h
  cases x with
  | session env =>
    obtain ⟨⟨-, -⟩, -, hup⟩ := ensureInitialized_spec env v
    change (ensureRecordingLocked (ensureInitialized env v)).initialized = true
    unfold ensureRecordingLocked
    split_ifs <;> exact hup.mpr (.inl hv)
  | reset => exact absurd (acts_reset hx.1) hi
  | _ => exact hv

/-- A call that neither records nor finalizes nor resets makes no calls to the compiler. -/
theorem controlled_local (stopOk : Bool) {i : Invocation P} (hrecords : ¬ i.call.Records)
    (hflush : i.call ≠ .flush) (hwrite : i.call ≠ .writeProgram) (hreset : i.call ≠ .deviceReset) :
    Controlled stopOk w [] w.epoch.recording (w.after F i) := by
  refine (Call.performs (F := F) i.env i.call w).preserves
    (I := Controlled stopOk w [] w.epoch.recording) (fun v x hx hv => ?_) (.refl stopOk w)
  have hunbinds := Call.acts_unbinds hrecords hx.1
  cases x with
  | epoch x =>
    refine ⟨hv.log, (recording_epoch_act v.epoch x ?_).trans hv.recording⟩
    rintro rfl
    exact hunbinds
  | promote a => exact hunbinds.elim
  | session env => exact hunbinds.elim
  | reset => exact absurd (acts_reset hx.1) hreset
  | calls cs => exact ((acts_finalizes (.inr ⟨cs, rfl⟩) hrecords hx.1).elim hflush hwrite).elim
  | clearState => exact ((acts_finalizes (.inl rfl) hrecords hx.1).elim hflush hwrite).elim
  | _ => exact ⟨hv.log, hv.recording⟩

/-- What a finalization does to the recording. -/
theorem controlled_finalizes (env : CompilerReplies P) (runReplay : Bool)
    (hc : w.epoch.Consistent) :
    (w.Untagged → Controlled env.stopSucceeds w [] false (finalizeLocked F env runReplay w).2) ∧
      (¬ w.Untagged → w.epoch.recording = false ∧
          Controlled env.stopSucceeds w [] false (finalizeLocked F env runReplay w).2 ∨
        w.epoch.recording = true ∧ ∃ cs, (cs = [.stop env.stopSucceeds] ∨
          cs = [.stop true, .replay] ∧ env.stopSucceeds = true) ∧
          Controlled env.stopSucceeds w cs false (finalizeLocked F env runReplay w).2) := by
  constructor
  · rintro ⟨hrec, hpend⟩
    rw [finalize_drops runReplay hrec hpend]
    exact ⟨⟨[.clearCaptured], rfl, rfl⟩, rfl⟩
  · intro htagged
    rcases hrec : w.epoch.recording
    · rw [finalize_idle runReplay hrec]
      exact .inl ⟨rfl, (Controlled.refl _ w).log, hrec⟩
    · exact .inr ⟨rfl, controlled_finalize runReplay hc hrec fun hpend => htagged ⟨hrec, hpend⟩⟩

/-- What one call does to the recording: a reset closes it, a finalization without outputs drops it,
one with outputs stops it, a session starts it, and every other call leaves it as it is. -/
inductive Step (w : World P M) (i : Invocation P) (v : World P M) : Prop
  | reset (call : i.call = .deviceReset)
      (controlled : Controlled i.env.stopSucceeds w [.reset] false v)
  | dropped (call : i.call.Drops w) (controlled : Controlled i.env.stopSucceeds w [] false v)
  | stopped (call : ¬ i.call.Drops w) (closed : ¬ i.call.OpensSession w)
      (recording : w.epoch.recording = true) (cs : List Control)
      (stop : cs = [.stop i.env.stopSucceeds] ∨
        cs = [.stop true, .replay] ∧ i.env.stopSucceeds = true)
      (controlled : Controlled i.env.stopSucceeds w cs false v)
  | started (call : ¬ i.call.Drops w) (opens : i.call.OpensSession w)
      (idle : w.epoch.recording = false) (up : w.BackendUp i.env)
      (controlled : Controlled i.env.stopSucceeds w [.start] true v)
  | unchanged (call : ¬ i.call.Drops w) (noReset : i.call ≠ .deviceReset)
      (quiet : ¬ (i.call.OpensSession w ∧ w.epoch.recording = false ∧ w.BackendUp i.env))
      (controlled : Controlled i.env.stopSucceeds w [] w.epoch.recording v)

/-- Every call makes one of these steps. -/
theorem step_after (hw : w.Inv) (i : Invocation P) : Step w i (w.after F i) := by
  obtain ⟨env, c⟩ := i
  have hc := hw.epoch.consistent
  -- A call that records opens its session, or is refused before.
  by_cases hrecords : c.Records
  · have hdrops : ¬ c.Drops w := by
      cases c <;> first | exact id | exact hrecords.elim
    obtain ⟨hstart, hkeep⟩ := controlled_records (F := F) env env.stopSucceeds hrecords
      hw.initialized
    by_cases hopens : c.OpensSession w ∧ w.epoch.recording = false ∧ w.BackendUp env
    · exact .started hdrops hopens.1 hopens.2.1 hopens.2.2 (hstart hopens)
    · refine .unchanged hdrops ?_ hopens (hkeep hopens)
      rintro rfl
      exact hrecords
  by_cases hreset : c = .deviceReset
  · subst hreset
    exact .reset rfl ⟨⟨[.clearCaptured, .reset], List.append_assoc .., rfl⟩, rfl⟩
  -- A flush and a write drop what is recorded, stop it, or find nothing to stop.
  have hfinalizes : ∀ runReplay, ¬ c.OpensSession w → (c.Drops w ↔ w.Untagged) →
      w.after F ⟨env, c⟩ = (finalizeLocked F env runReplay w).2 →
      Step w ⟨env, c⟩ (w.after F ⟨env, c⟩) := by
    intro runReplay hclosed hdrops hrun
    obtain ⟨hdrop, hstop⟩ := controlled_finalizes (F := F) env runReplay hc
    rw [← hrun] at hdrop hstop
    by_cases htagged : w.Untagged
    · exact .dropped (hdrops.mpr htagged) (hdrop htagged)
    · have hkeeps : ¬ c.Drops w := fun h => htagged (hdrops.mp h)
      rcases hstop htagged with ⟨hidle, hcontrolled⟩ | ⟨hrec, cs, hcs, hcontrolled⟩
      · refine .unchanged hkeeps hreset (fun h => hclosed h.1) ?_
        rw [hidle]
        exact hcontrolled
      · exact .stopped hkeeps hclosed hrec cs hcs hcontrolled
  by_cases hflush : c = .flush
  · subst hflush
    have hrun : w.after F ⟨env, .flush⟩ = (flush F env w).2 := Shim.replyWith_state _ (flush F env) w
    by_cases hformat : w.config.unsupportedDataFormat = false
    · refine hfinalizes true id ⟨fun h => h.2, fun h => ⟨hformat, h⟩⟩ (hrun.trans ?_)
      unfold flush
      rw [Expected.get_bind_run, hformat]
      rfl
    -- The refused flush changes nothing.
    · refine .unchanged (fun h => hformat h.1) hreset (fun h => h.1) ?_
      have hfail : (flush F env w).2 = w := by
        rw [Bool.not_eq_false] at hformat
        unfold flush
        rw [Expected.get_bind_run, if_pos hformat]
        rfl
      rw [hrun, hfail]
      exact .refl _ w
  by_cases hwrite : c = .writeProgram
  · subst hwrite
    exact hfinalizes false id Iff.rfl (Shim.replyWith_state _ (finalizeLocked F env false) w)
  -- Every other call acts outside the session.
  · refine .unchanged ?_ hreset ?_ (controlled_local _ hrecords hflush hwrite hreset)
    · cases c <;> first | exact id | exact absurd rfl hflush | exact absurd rfl hwrite
    · refine fun h => hrecords ?_
      have hopens := h.1
      cases c with
      | memcpy transfer count => cases transfer <;> trivial
      | memcpyMrp transfer count base => cases transfer <;> trivial
      | _ => trivial

/-! ## Runs -/

/-- The control calls of a program whose first call made `cs`. -/
theorem controlsOf_cons {i : Invocation P} {is : List (Invocation P)} {cs : List Control}
    {recording : Bool} (h : Controlled i.env.stopSucceeds w cs recording (w.after F i)) :
    controlsOf F w (i :: is) = cs ++ controlsOf F (w.after F i) is := by
  obtain ⟨ds, hlog, hds⟩ := h.log
  rw [controlsOf, hlog, List.drop_left, hds]

/-- A state of a run, with whether a recording was dropped that the compiler still has open. -/
def dropStep (F : Fhetch P M) (s : World P M × Prop) (i : Invocation P) : World P M × Prop :=
  (s.1.after F i, i.call ≠ .deviceReset ∧ (s.2 ∨ i.call.Drops s.1))

end World

open World Control

/-- The control calls of every program follow the protocol exactly when the program opens no session
between a finalization that drops a recorded epoch without outputs and the next reset. -/
theorem session_protocol (F : Fhetch P M) (is : List (Invocation P)) :
    Follow [] (controlsOf F World.init is) ↔
      Expected.Along (dropStep F) (fun s i => s.2 → ¬ i.call.OpensSession s.1)
        (World.init, False) is := by
  -- The compiler has a recording open exactly when the epoch is recorded or one was dropped.
  have hrun : ∀ (w : World P M) (dropped : Prop) (earlier : List Control), w.Inv →
      (isOpen earlier = true ↔ w.epoch.recording = true ∨ dropped) →
      (dropped → w.epoch.recording = false ∧ w.initialized = true) →
      (Follow earlier (controlsOf F w is) ↔ Expected.Along (dropStep F)
        (fun s i => s.2 → ¬ i.call.OpensSession s.1) (w, dropped) is) := by
    induction is with
    | nil => exact fun _ _ _ _ _ _ => Iff.rfl
    | cons i is ih =>
      intro w dropped earlier hw hopen hdropped
      have hafter := ih (w.after F i) (i.call ≠ .deviceReset ∧ (dropped ∨ i.call.Drops w))
      rcases step_after (F := F) hw i with ⟨hcall, hv⟩ | ⟨hcall, hv⟩ |
        ⟨hcall, hclosed, hrec, cs, hcs, hv⟩ | ⟨hcall, hopens, hidle, hup, hv⟩ |
        ⟨hcall, hreset, hquiet, hv⟩
      all_goals
        rw [controlsOf_cons hv, follow_append]
        have hrec' := hv.recording
      case reset =>
        refine and_congr ?_ (hafter _ (hw.after i) ?_ ?_)
        · exact iff_of_true ⟨trivial, trivial⟩ fun _ => by rw [hcall]; exact id
        · rw [isOpen_append, hrec']
          simp [opens, hcall]
        · exact fun h => absurd hcall h.1
      case dropped =>
        obtain ⟨hcalls, hrec⟩ := hcall.finalizes
        have hreset : i.call ≠ .deviceReset := by
          rcases hcalls with h | h <;> simp [h]
        refine and_congr ?_ (hafter _ (hw.after i) ?_ ?_)
        · refine iff_of_true trivial fun _ => ?_
          rcases hcalls with h | h <;> rw [h] <;> exact id
        · rw [isOpen_append, hrec']
          exact iff_of_true (hopen.mpr (.inl hrec)) (.inr ⟨hreset, .inr hcall⟩)
        · exact fun _ => ⟨hrec', initialized_after hreset (hw.initialized hrec)⟩
      case stopped =>
        have hopened : isOpen earlier = true := hopen.mpr (.inl hrec)
        have hnone : ¬ dropped := fun h => by
          rw [(hdropped h).1] at hrec
          cases hrec
        refine and_congr ?_ (hafter _ (hw.after i) ?_ ?_)
        · refine iff_of_true ?_ fun _ => hclosed
          rcases hcs with rfl | ⟨rfl, -⟩
          · exact ⟨hopened, trivial⟩
          · exact ⟨hopened, List.getLast?_concat .., trivial⟩
        · rw [isOpen_append, hrec']
          rcases hcs with rfl | ⟨rfl, -⟩ <;> simp [opens, hnone, hcall]
        · exact fun h => (h.2.elim hnone hcall).elim
      case started =>
        have hdue : isOpen earlier = false ↔ ¬ dropped := by
          rw [← Bool.not_eq_true, hopen, hidle]
          simp
        have hfollows : Follow earlier [.start] ↔ (dropped → ¬ i.call.OpensSession w) := by
          change isOpen earlier = false ∧ True ↔ _
          rw [and_true, hdue]
          exact ⟨fun h hd => absurd hd h, fun h hd => h hd hopens⟩
        by_cases hnone : dropped
        · exact iff_of_false (fun h => hfollows.mp h.1 hnone hopens) fun h => h.1 hnone hopens
        · refine and_congr hfollows (hafter _ (hw.after i) ?_ ?_)
          · rw [isOpen_append, hrec']
            simp [opens]
          · exact fun h => (h.2.elim hnone hcall).elim
      case unchanged =>
        have hsame : (i.call ≠ .deviceReset ∧ (dropped ∨ i.call.Drops w)) ↔ dropped :=
          ⟨fun h => h.2.elim id fun h => absurd h hcall, fun h => ⟨hreset, .inl h⟩⟩
        refine and_congr ?_ (hafter _ (hw.after i) ?_ ?_)
        · refine iff_of_true trivial fun h hopens => hquiet ⟨hopens, (hdropped h).1, ?_⟩
          exact .inl (hdropped h).2
        · rw [List.append_nil, hrec', hsame, hopen]
        · intro h
          obtain ⟨hidle, hup⟩ := hdropped (hsame.mp h)
          exact ⟨hrec'.trans hidle, initialized_after hreset hup⟩
  refine hrun World.init False [] inv_init ?_ False.elim
  exact ⟨fun h => (nomatch h), fun h => h.elim (fun h => nomatch h) False.elim⟩

/-- An upload, a flush without tagged outputs and another upload start two recordings in a row. -/
theorem session_protocol_counterexample :
    let is := scalarProgram [.setRingDimension 1, .malloc true 8, uploadFive, .flush, uploadFive]
    controlsOf scalarRing World.init is = [.start, .start] ∧
      ¬ Follow [] (controlsOf scalarRing World.init is) := by
  intro is
  have hstarts : controlsOf scalarRing World.init is = [.start, .start] := by decide +kernel
  refine ⟨hstarts, fun h => ?_⟩
  rw [hstarts] at h
  have hdue : isOpen [.start] = false := h.2.1
  exact absurd hdue (by decide)

end Haze
