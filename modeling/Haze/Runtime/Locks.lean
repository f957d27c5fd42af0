import Haze.Entries
import Haze.Lib.Locks

/-!
# The order of the locks

Four mutexes guard the state: the backend's for its first initialization, the epoch's, the
configuration's and the allocator's. Of each function here are the traces of what it acquires and
releases, as a language: a branch is a sum, a loop is a star, and what runs while a guard is in
scope stands inside `locked`. The branches depend on state that other threads change, so all of them
are taken.

Every public call acquires the four in one order, the backend's mutex first and the allocator's
last. So no threads wait for each other in a circle, however many there are and whatever each calls.
-/

namespace Haze

open Locks

/-- The mutexes of the four singletons. -/
inductive Mutex where
  /-- `CompilerBackend::init_mutex_`. -/
  | init
  /-- `EpochState::mutex_`. -/
  | epoch
  /-- `Config::mutex_`. -/
  | config
  /-- `DeviceAllocator::mutex_`. -/
  | allocator
deriving DecidableEq, Repr

/-- The order in which they are acquired. -/
def Mutex.rank : Mutex → Fin 5
  | .init => 0
  | .epoch => 1
  | .config => 2
  | .allocator => 3

/-- The traces of a function. -/
abbrev Traces : Type := Language (Step Mutex)

namespace Traces

/-! ## The singletons -/

/-- A method of the configuration that calls nothing. -/
def configOp : Traces := locked .config 1

/-- A method of the allocator. -/
def allocatorOp : Traces := locked .allocator 1

/-- A setter of the configuration that checks its arguments first. -/
def setConfig : Traces := 1 + configOp

/-- The setter of the ring dimension holds its lock while it sets the allocator's size. -/
def setRingDimension : Traces := 1 + locked .config (1 + allocatorOp)

/-- What initialization does once: the flags, the target that they need, what the compiler is told,
and the program directory, unless the compiler throws. -/
def initialization : Traces :=
  configOp * configOp * (1 + configOp) *
    (1 + configOp * configOp * configOp * configOp * (1 + configOp * (1 + configOp)))

/-- The flag is read without the lock first, and once more with it. -/
def ensureInitialized : Traces := 1 + locked .init (1 + initialization)

/-- The backend's lock is released before the epoch's is acquired. -/
def session (body : Traces) : Traces := ensureInitialized * locked .epoch body

/-- An operation of the epoch that takes its lock and no other. -/
def epochOp : Traces := locked .epoch 1

/-! ## What runs under the epoch's lock -/

/-- A bound address takes no lock; another reads the ring dimension and, unless that is zero, the
shadow. -/
def lookupOrCreate : Traces := 1 + configOp * (1 + allocatorOp)

/-- The tag of an upload reads the ring dimension and, unless that is zero, the shadow. -/
def tagH2dInput : Traces := configOp * (1 + allocatorOp)

/-- The residues of a source. -/
def buildMrp : Traces := KStar.kstar lookupOrCreate

/-- The mode of a fast basis conversion. -/
def fbcMode : Traces := configOp * configOp

/-- The end of an epoch writes each output's shadow. -/
def finalize : Traces := KStar.kstar allocatorOp

end Traces

open Traces

/-! ## The public calls -/

/-- The traces of a copy. -/
def Transfer.locks : Transfer → Traces
  | .hostToDevice .. => 1 + allocatorOp * (1 + session tagH2dInput)
  | .deviceToHost .. => 1 + allocatorOp
  | .deviceToDevice .. => 1 + session lookupOrCreate
  | .unknownKind => 1

/-- The traces of a copy of residues. -/
def TransferMrp.locks : TransferMrp → Traces
  | .hostToDevice .. => 1 + KStar.kstar allocatorOp * (1 + session (KStar.kstar tagH2dInput))
  | .deviceToHost .. => 1 + KStar.kstar allocatorOp
  | .deviceToDevice .. => 1 + session buildMrp
  | .unknownKind => 1

/-- The traces of a change of the configuration. -/
def ConfigCall.locks : ConfigCall → Traces
  | .setCiphertextModulus .. => setConfig
  | .setTwiddleFactors .. => setConfig
  | .configureDevice => configOp
  | .setProgramInfo .. => setConfig
  | .setTarget .. => setConfig
  | .setProgramDirectory .. => setConfig
  | .setMontgomery .. => configOp
  | .setBitReversal .. => configOp
  | .setReducedNoise .. => configOp

/-- The traces of a call. -/
def Call.locks : Call → Traces
  | .malloc .. => 1 + allocatorOp
  | .free .. => (1 + epochOp) * (1 + allocatorOp)
  | .mallocMrp .. => 1 + allocatorOp
  | .freeMrp .. => 1 + KStar.kstar epochOp * (1 + allocatorOp)
  | .memcpy transfer _ => transfer.locks
  | .memcpyMrp transfer _ _ => transfer.locks
  | .memset .. => 1 + allocatorOp * (1 + epochOp)
  | .pp .. => 1 + session (configOp * (1 + lookupOrCreate * (1 + lookupOrCreate)))
  | .ps .. => 1 + session (configOp * (1 + lookupOrCreate))
  | .transform .. => 1 + session (configOp * (1 + lookupOrCreate))
  | .automorph .. => 1 + session lookupOrCreate
  | .ppMrp .. => 1 + session (buildMrp * (1 + buildMrp))
  | .psMrp .. => 1 + session buildMrp
  | .transformMrp .. => 1 + session buildMrp
  | .indexMrp .. => 1 + session buildMrp
  | .basisConvert .. => 1 + session (buildMrp * (1 + fbcMode))
  | .modDown .. => 1 + session (buildMrp * (1 + fbcMode))
  | .modUp .. => 1 + session (buildMrp * KStar.kstar fbcMode)
  | .tagOutput .. => 1 + epochOp
  -- The flags, and the target when one is set, then the epoch.
  | .flush => configOp * (1 + configOp) * (1 + configOp) * (1 + locked .epoch finalize)
  | .writeProgram => epochOp
  | .deviceReset => epochOp * locked .init 1 * allocatorOp * configOp
  | .setRingDimension _ => Traces.setRingDimension
  | .config call => call.locks

/-- The traces of an entry of `Haze.Entries`: those for host memory and pointer attributes reach the
allocator. -/
def OtherCall.locks : OtherCall → Traces
  | .hostAlloc .. => 1 + allocatorOp
  | .freeHost => 1 + allocatorOp
  | .pointerGetAttributes .. => 1 + allocatorOp
  | _ => 1

/-- A call of either header. -/
inductive PublicCall where
  | call (call : Call)
  | other (call : OtherCall)
  | getLastError
  | getErrorString
  | replayBridgeInitCryptoContext
  | replayBridgeReset
  | replayBridgeTakeHookHadError

/-- The traces of a call of either header. The bridge reads the target and the program directory,
unless something throws before. -/
def PublicCall.locks : PublicCall → Traces
  | .call c => c.locks
  | .other c => c.locks
  | .replayBridgeInitCryptoContext => 1 + configOp * (1 + configOp * (1 + configOp))
  | .getLastError | .getErrorString | .replayBridgeReset | .replayBridgeTakeHookHadError => 1

/-! ## Their order -/

/-- The traces acquire no lock below `floor`, and each lock above those that are held. -/
abbrev Traces.From (floor : Fin 5) (A : Traces) : Prop := Above Mutex.rank floor A

namespace Traces

variable {floor : Fin 5} {body : Traces}

/-- Reading the configuration takes its mutex alone. -/
theorem configOp_from (h : floor ≤ 2) : From floor configOp :=
  Above.locked 3 .one (by decide) h

/-- An allocator operation takes the allocator's mutex alone. -/
theorem allocatorOp_from (h : floor ≤ 3) : From floor allocatorOp :=
  Above.locked 4 .one (by decide) h

/-- An epoch operation takes the epoch's mutex alone. -/
theorem epochOp_from (h : floor ≤ 1) : From floor epochOp :=
  Above.locked 2 .one (by decide) h

/-- Setting an option takes the configuration's mutex, if any. -/
theorem setConfig_from (h : floor ≤ 2) : From floor setConfig := .add .one (configOp_from h)

/-- Setting the dimension takes the configuration's mutex and then the allocator's. -/
theorem setRingDimension_from (h : floor ≤ 2) : From floor setRingDimension :=
  .add .one (Above.locked 3 (.add .one (allocatorOp_from le_rfl)) (by decide) h)

/-- Initialization reads the configuration only. -/
theorem initialization_from (h : floor ≤ 2) : From floor initialization := by
  have hconfig : From floor configOp := configOp_from h
  have hdirectory : From floor (1 + configOp * (1 + configOp)) :=
    .add .one (hconfig.mul (.add .one hconfig))
  have hinfo := ((hconfig.mul hconfig).mul hconfig).mul hconfig
  exact ((hconfig.mul hconfig).mul (.add .one hconfig)).mul (.add .one (hinfo.mul hdirectory))

/-- The initialization takes its own mutex before all others. -/
theorem ensureInitialized_from : From 0 ensureInitialized :=
  .add .one (Above.locked 1 (.add .one (initialization_from (by decide))) (by decide)
    le_rfl)

/-- A body that starts at the configuration may run under the epoch's lock. -/
theorem session_from (hbody : From 2 body) : From 0 (session body) :=
  ensureInitialized_from.mul (Above.locked 2 hbody (by decide) (by decide))

/-- Tagging an upload takes mutexes above the epoch's. -/
theorem tagH2dInput_from : From 2 tagH2dInput :=
  (configOp_from le_rfl).mul (.add .one (allocatorOp_from (by decide)))

/-- So does a lookup. -/
theorem lookupOrCreate_from : From 2 lookupOrCreate := .add .one tagH2dInput_from

/-- So does building a multi-residue polynomial. -/
theorem buildMrp_from : From 2 buildMrp := lookupOrCreate_from.kstar

/-- Reading the conversion's mode takes the configuration's mutex twice. -/
theorem fbcMode_from : From 2 fbcMode := (configOp_from le_rfl).mul (configOp_from le_rfl)

end Traces

/-- A transfer takes mutexes in order. -/
theorem Transfer.locks_from (transfer : Transfer) : From 0 transfer.locks := by
  have hallocator : From 0 allocatorOp := allocatorOp_from (by decide)
  cases transfer with
  | hostToDevice => exact .add .one (hallocator.mul (.add .one (session_from tagH2dInput_from)))
  | deviceToHost => exact .add .one hallocator
  | deviceToDevice => exact .add .one (session_from lookupOrCreate_from)
  | unknownKind => exact .one

/-- So does a transfer of residues. -/
theorem TransferMrp.locks_from (transfer : TransferMrp) : From 0 transfer.locks := by
  have hallocator : From 0 allocatorOp := allocatorOp_from (by decide)
  cases transfer with
  | hostToDevice =>
    exact .add .one (hallocator.kstar.mul (.add .one (session_from tagH2dInput_from.kstar)))
  | deviceToHost => exact .add .one hallocator.kstar
  | deviceToDevice => exact .add .one (session_from buildMrp_from)
  | unknownKind => exact .one

/-- So does a configuration call. -/
theorem ConfigCall.locks_from (call : ConfigCall) : From 0 call.locks := by
  cases call <;> first | exact setConfig_from (by decide) | exact configOp_from (by decide)

/-- Every call acquires its locks in the order of the ranks. -/
theorem Call.locks_from (call : Call) : From 0 call.locks := by
  have hconfig : From 0 configOp := configOp_from (by decide)
  have hconfig' : From 2 configOp := configOp_from le_rfl
  have hepoch : From 0 epochOp := epochOp_from (by decide)
  have hallocator : From 0 allocatorOp := allocatorOp_from (by decide)
  cases call with
  | malloc => exact .add .one hallocator
  | free => exact (Above.add .one hepoch).mul (.add .one hallocator)
  | mallocMrp => exact .add .one hallocator
  | freeMrp => exact .add .one (hepoch.kstar.mul (.add .one hallocator))
  | memcpy transfer => exact transfer.locks_from
  | memcpyMrp transfer => exact transfer.locks_from
  | memset => exact .add .one (hallocator.mul (.add .one hepoch))
  | pp =>
    have hsources := lookupOrCreate_from.mul (.add .one lookupOrCreate_from)
    exact .add .one (session_from (hconfig'.mul (.add .one hsources)))
  | ps => exact .add .one (session_from (hconfig'.mul (.add .one lookupOrCreate_from)))
  | transform => exact .add .one (session_from (hconfig'.mul (.add .one lookupOrCreate_from)))
  | automorph => exact .add .one (session_from lookupOrCreate_from)
  | ppMrp => exact .add .one (session_from (buildMrp_from.mul (.add .one buildMrp_from)))
  | psMrp => exact .add .one (session_from buildMrp_from)
  | transformMrp => exact .add .one (session_from buildMrp_from)
  | indexMrp => exact .add .one (session_from buildMrp_from)
  | basisConvert => exact .add .one (session_from (buildMrp_from.mul (.add .one fbcMode_from)))
  | modDown => exact .add .one (session_from (buildMrp_from.mul (.add .one fbcMode_from)))
  | modUp => exact .add .one (session_from (buildMrp_from.mul fbcMode_from.kstar))
  | tagOutput => exact .add .one hepoch
  | flush =>
    -- The configuration is read before the epoch's lock is acquired, and released by then.
    have hflags := (hconfig.mul (.add .one hconfig)).mul (.add .one hconfig)
    have hfinalize : From 2 finalize := (allocatorOp_from (by decide)).kstar
    exact hflags.mul (.add .one (Above.locked 2 hfinalize (by decide) (by decide)))
  | writeProgram => exact hepoch
  | deviceReset =>
    have hbackend : From 0 (locked .init 1) := Above.locked 1 .one (by decide) le_rfl
    exact ((hepoch.mul hbackend).mul hallocator).mul hconfig
  | setRingDimension => exact setRingDimension_from (by decide)
  | config call => exact call.locks_from

/-- So does every other call. -/
theorem OtherCall.locks_from (call : OtherCall) : From 0 call.locks := by
  have hallocator : From 0 allocatorOp := allocatorOp_from (by decide)
  cases call <;> first | exact .one | exact .add .one hallocator

/-- So does every public call. -/
theorem PublicCall.locks_from (call : PublicCall) : From 0 call.locks := by
  have hconfig : From 0 configOp := configOp_from (by decide)
  cases call with
  | call c => exact c.locks_from
  | other c => exact c.locks_from
  | replayBridgeInitCryptoContext =>
    exact .add .one (hconfig.mul (.add .one (hconfig.mul (.add .one hconfig))))
  | getLastError => exact .one
  | getErrorString => exact .one
  | replayBridgeReset => exact .one
  | replayBridgeTakeHookHadError => exact .one

/-! ## Threads -/

/-- Each thread makes its calls one after the other, and each call takes one of its traces. -/
def Run {T : Type} (calls : T → List PublicCall) (traces : T → List (Step Mutex)) : Prop :=
  ∀ t, traces t ∈ ((calls t).map PublicCall.locks).prod

/-- In a run every thread takes its mutexes in order. -/
theorem Run.ordered {T : Type} {calls : T → List PublicCall} {traces : T → List (Step Mutex)}
    (h : Run calls traces) (t : T) : Ordered Mutex.rank [] (traces t) := by
  have hcalls : From 0 ((calls t).map PublicCall.locks).prod := by
    refine Above.prod fun A hA => ?_
    obtain ⟨call, -, rfl⟩ := List.mem_map.mp hA
    exact call.locks_from
  exact hcalls.ordered (h t)

/-- However many threads make whatever calls, in every state that some interleaving of them reaches
no threads wait for each other in a circle, no thread wants a lock that it holds, and unless every
thread has finished some thread can step. -/
theorem no_deadlock {T : Type} [DecidableEq T] {calls : T → List PublicCall}
    {traces : T → List (Step Mutex)} (hrun : Run calls traces) {s : State T Mutex}
    (hs : s.Reachable traces) :
    (∀ t, ¬ Relation.TransGen s.WaitsFor t t) ∧ (∀ t l, s.Wants t l → s.holder l ≠ some t) ∧
      ∀ t, s.todo t ≠ [] → ∃ s', s.Next s' := by
  obtain ⟨held, hsound⟩ := hs.sound hrun.ordered
  exact ⟨hsound.no_cycle, fun _ _ => hsound.not_held, fun _ => hsound.progress⟩

/-- One thread sets the ring dimension and the other flushes. -/
def setterAndFlush : Bool → List PublicCall
  | true => [.call (.setRingDimension 8)]
  | false => [.call .flush]

/-- Their traces where the dimension is accepted and neither flag is set. -/
def setterAndFlushTraces : Bool → List (Step Mutex)
  | true => [.acquire .config, .acquire .allocator, .release .allocator, .release .config]
  | false => [.acquire .config, .release .config, .acquire .config, .release .config,
      .acquire .epoch, .release .epoch]

/-- The flush waits for the setter, which holds the configuration's lock. -/
def flushWaits : State Bool Mutex :=
  ⟨Function.update setterAndFlushTraces true
      [.acquire .allocator, .release .allocator, .release .config],
    Function.update (fun _ => none) .config (some true)⟩

/-- The traces are those of a setter and a flush. -/
theorem setterAndFlush_run : Run setterAndFlush setterAndFlushTraces
  | true => by
    have hallocator : [.acquire .allocator, .release .allocator] ∈ allocatorOp :=
      mem_locked Language.nil_mem_one
    have hbody : [.acquire .allocator, .release .allocator] ∈ 1 + allocatorOp := Or.inr hallocator
    have hsetter : setterAndFlushTraces true ∈ (Call.setRingDimension 8).locks :=
      Or.inr (mem_locked hbody)
    simpa [setterAndFlush, PublicCall.locks] using hsetter
  | false => by
    have hconfig : [.acquire .config, .release .config] ∈ configOp :=
      mem_locked Language.nil_mem_one
    have hsecond : [.acquire .config, .release .config] ∈ 1 + configOp := Or.inr hconfig
    have htarget : [] ∈ 1 + configOp := Or.inl rfl
    have hepoch : [.acquire .epoch, .release .epoch] ∈ locked .epoch finalize :=
      mem_locked (Language.nil_mem_kstar _)
    have hreplay : [.acquire .epoch, .release .epoch] ∈ 1 + locked .epoch finalize := Or.inr hepoch
    have hflags := Language.append_mem_mul (Language.append_mem_mul hconfig hsecond) htarget
    have hflush : setterAndFlushTraces false ∈ Call.flush.locks :=
      Language.append_mem_mul hflags hreplay
    simpa [setterAndFlush, PublicCall.locks] using hflush

/-- The flush waits for the setter, nobody waits for itself, and somebody can go on. -/
theorem no_deadlock_example :
    flushWaits.WaitsFor false true ∧ ¬ Relation.TransGen flushWaits.WaitsFor false false ∧
      ∃ s', flushWaits.Next s' := by
  have hreachable : flushWaits.Reachable setterAndFlushTraces :=
    .single (.acquire (t := true) (l := Mutex.config) rfl rfl)
  obtain ⟨hcycle, -, hprogress⟩ := no_deadlock setterAndFlush_run hreachable
  exact ⟨⟨.config, ⟨_, rfl⟩, rfl⟩, hcycle false, hprogress false (by decide)⟩

end Haze
