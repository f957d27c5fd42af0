import Haze.Core.Allocator
import Haze.Core.Config
import Haze.Core.Epoch
import Haze.Core.Fhetch

/-!
# The runtime's whole state

`World` is every singleton of the runtime side by side, with the log of the calls that were made to
the compiler. The methods here are those of `core/epoch.cpp`, `core/backend.cpp` and
`core/config.cpp` that reach more than one of them: opening a session, resolving an address,
recording a copy, and the finalization of an epoch.
-/

namespace Haze

/-- The state of the process. -/
structure World (P M : Type) where
  config : Config
  allocator : DeviceAllocator
  epoch : EpochState P
  /-- Whether the compiler backend is initialized. -/
  initialized : Bool
  /-- Whether the post-recording hook failed since its flag was last taken. -/
  hookHadError : Bool
  /-- Every call made to the compiler, in order. -/
  compiler : List (CompilerCall P M)

variable {P M : Type}

/-- A method on the whole state that may fail. -/
abbrev Method (P M α : Type) : Type := Expected HazeInternalError (World P M) α

namespace World

/-- The state at process start. -/
def init : World P M where
  config := .init
  allocator := .init
  epoch := .init
  initialized := false
  hookHadError := false
  compiler := []

/-- Run a method of the allocator. -/
def onAllocator {α : Type} (x : DeviceAllocator.Method α) : Method P M α :=
  Expected.zoom World.allocator (fun w a => { w with allocator := a }) x

/-- Run a method of the configuration. -/
def onConfig {α : Type} (x : Config.Method α) : Method P M α :=
  Expected.zoom World.config (fun w c => { w with config := c }) x

/-- Run a method of the epoch state. -/
def onEpoch {α : Type} (x : Expected HazeInternalError (EpochState P) α) : Method P M α :=
  Expected.zoom World.epoch (fun w e => { w with epoch := e }) x

/-- Update the epoch state. -/
def modifyEpoch (f : EpochState P → EpochState P) : Method P M Unit := onEpoch (Expected.modify f)

/-- Make calls to the compiler. -/
def call (calls : List (CompilerCall P M)) : Method P M Unit :=
  Expected.modify fun w => { w with compiler := w.compiler ++ calls }

/-! ## The configuration and the backend -/

/-- Set the ring dimension, and with it the size of every allocation. -/
def setRingDimension (n : UInt64) : Method P M Unit := fun w =>
  if !Config.isSupportedRingDim n then (.error .invalidArgument, w)
  else if w.config.configured && w.config.ringDim != n then (.error .notConfigured, w)
  else
    (.ok (), { w with
      config := { w.config with ringDim := n }
      allocator := w.allocator.setPolynomialSize (n * 8) })

/-- The arguments that the compiler is initialized with. -/
def initArgv (c : Config) : List String :=
  [c.program.1, "--target=" ++ c.target] ++
    (if c.montgomery then ["--montgomery"] else []) ++
    (if c.bitReversal then ["--bit_reversal"] else []) ++
    ["--no-ring-dim-check", "--no-prime-check"]

/-- Initialize the compiler unless it is. A data format that the target does not support is refused
before the compiler is called. The result, which no caller uses, is not returned. -/
def ensureInitialized (env : CompilerReplies P) (w : World P M) : World P M :=
  if w.initialized then w
  else if w.config.unsupportedDataFormat then w
  else if !env.initReturns then
    { w with compiler := w.compiler ++ [.init (initArgv w.config)] }
  else
    { w with
      initialized := true
      compiler := w.compiler ++
        [.init (initArgv w.config),
          .setProgramInfo w.config.program.1 w.config.program.2.1 w.config.program.2.2] ++
        (match w.config.programDir with
          | some dir => [.setProgramDirectory dir]
          | none => []) ++
        [.suppressProbes] }

/-- Start a recording when the backend is up and none is open. -/
def ensureRecordingLocked (w : World P M) : World P M :=
  if w.initialized && !w.epoch.recording then
    { w with
      compiler := w.compiler ++ [.startEpoch, .start]
      epoch := { w.epoch with recording := true } }
  else w

/-- The start of every compute and copy: initialize the backend, then start a recording. -/
def epochSession (env : CompilerReplies P) : Method P M Unit :=
  Expected.modify fun w => ensureRecordingLocked (ensureInitialized env w)

/-! ## Resolving and binding addresses -/

section Bindings

variable (F : Fhetch P M)

/-- Bind an address to its words as an input polynomial, under a fresh input name. -/
def tagInput (addr : DevAddr) (values : List UInt64) (ringDim : UInt64) : Method P M P := do
  let w ← Expected.get
  let poly := F.fromData values ringDim
  call [.tagInput (.hazeIn w.epoch.inputCounter) poly]
  modifyEpoch (EpochState.bindInput addr poly)
  pure poly

/-- The words of an address leave the allocator; having none is a missing source. -/
def extractSource (addr : DevAddr) (ringDim : UInt64) : Method P M (List UInt64) := do
  match ← Expected.attempt (onAllocator (DeviceAllocator.extractPolynomialComponents addr ringDim)) with
  | .ok values => pure values
  | .error .noData => Expected.fail .sourceUnavailable
  | .error e => Expected.fail e

/-- The polynomial bound to an address. The first reference to an address that is not bound takes
its words out of the allocator and binds them as an input. -/
def lookupOrCreateLocked (addr : DevAddr) : Method P M P := do
  let w ← Expected.get
  match AList.lookup addr w.epoch.polyMap with
  | some poly => pure poly
  | none => do
    let values ← extractSource addr w.config.ringDim
    tagInput F addr values w.config.ringDim

/-- Bind an address to the words that were just copied to it. -/
def tagH2dInputLocked (addr : DevAddr) : Method P M Unit := do
  let w ← Expected.get
  if w.config.ringDim = 0 then Expected.fail .notConfigured
  else do
    let values ← onAllocator (DeviceAllocator.readPolynomialComponents addr w.config.ringDim)
    let _ ← tagInput F addr values w.config.ringDim
    modifyEpoch (EpochState.dropTag addr)

/-- Bind the modulus of polynomials unless it is the copy sentinel. -/
def bindModulus (polys : List P) (modulus : UInt64) : Method P M Unit :=
  if modulus ≠ kCopyModulus then call (polys.map (.bindModulus · modulus)) else pure ()

/-- Record a copy of `src` to `dst`. A modulus of the copy sentinel is recovered from `src`. -/
def copyResultLocked (dst src : DevAddr) (modulus : UInt64) : Method P M Unit := do
  let poly ← lookupOrCreateLocked F src
  let w ← Expected.get
  let modulus := if modulus = kCopyModulus then w.epoch.recordedModulusLocked src else modulus
  let copy := F.srAddps poly 0 kCopyModulus
  bindModulus [poly, copy] modulus
  if modulus ≠ kCopyModulus then modifyEpoch (EpochState.recordModulus src modulus) else pure ()
  modifyEpoch (EpochState.storeComputeResultLocked dst copy modulus)

/-- Tag a multi-residue input unless its name is tagged. -/
def tagMrpInputIfNewLocked (name : ProbeName) (mrp : M) : Method P M Unit := do
  let w ← Expected.get
  if name ∈ w.epoch.mrpInputTaggedNames then pure ()
  else do
    modifyEpoch fun s => { s with mrpInputTaggedNames := insert name s.mrpInputTaggedNames }
    call [.tagInputMrp name mrp]

end Bindings

/-! ## Finalizing an epoch -/

/-- Drop the epoch, and the compiler's captures with it. -/
def clearStateLocked (w : World P M) : World P M :=
  { w with epoch := .init, compiler := w.compiler ++ [.clearCaptured] }

/-- Drop the epoch and fail. -/
def abortEpoch {α : Type} (e : HazeInternalError) : Method P M α := do
  Expected.modify clearStateLocked
  Expected.fail e

section Finalize

variable (F : Fhetch P M) (env : CompilerReplies P)

/-- Tag one pending output with its binding. -/
def tagPendingOutput (entry : Sigma fun _ : DevAddr => ProbeName) : Method P M Unit := do
  let w ← Expected.get
  match AList.lookup entry.1 w.epoch.polyMap with
  | none => Expected.fail .missingPolyMapBinding
  | some poly => call [.tagOutput entry.2 poly]

/-- The current binding of a group's address. -/
def memberBinding (residue : DevAddr × UInt64) : Method P M (P × UInt64) := do
  let w ← Expected.get
  match AList.lookup residue.1 w.epoch.polyMap with
  | none => Expected.fail .missingPolyMapBinding
  | some poly => pure (poly, residue.2)

/-- Tag one pending group with its latest membership and its residues' bindings. -/
def tagPendingGroup (name : ProbeName) : Method P M Unit := do
  let w ← Expected.get
  match AList.lookup name w.epoch.knownMrpGroups with
  | none => Expected.fail .missingPolyMapBinding
  | some group => do
    let pairs ← Expected.mapEach memberBinding (group.addrs.zip group.moduli)
    call [.tagOutputMrp name (F.fromPairs pairs)]

/-- The pending outputs in the order of an iteration. -/
def outputs (w : World P M) : List (Sigma fun _ : DevAddr => ProbeName) :=
  env.outputOrder.order w.epoch.pendingOutputs.entries

/-- Tag the pending outputs and the pending groups. -/
def tagPendingOutputsLocked : Method P M Unit := do
  let w ← Expected.get
  Expected.forEach tagPendingOutput (outputs env w)
  Expected.forEach (tagPendingGroup F) (env.groupOrder.order w.epoch.pendingMrpGroups.keys)

/-- Stop the recording; the post-recording hook runs inside. -/
def stopEpoch : Method P M Bool := do
  Expected.modify fun w =>
    { w with compiler := w.compiler ++ [.stop], hookHadError := w.hookHadError || env.hookFails }
  pure env.stopSucceeds

/-- Read the hook's failure flag and reset it. -/
def takeHookHadError : Method P M Bool := fun w => (.ok w.hookHadError, { w with hookHadError := false })

/-- Dispatch the replay. -/
def replay : Method P M Bool := do
  call [.replay]
  pure env.replaySucceeds

/-- Read one output back and store its values at its address. -/
def populateShadow (entry : Sigma fun _ : DevAddr => ProbeName) : Method P M Unit := do
  let w ← Expected.get
  match env.result (capturedOutputs w.compiler) entry.2 with
  | none => abortEpoch .backendOutputMissing
  | some poly =>
    match env.extractPolynomialValues poly entry.2 with
    | none => abortEpoch .backendOutputDecodeFailed
    | some values =>
      match ← Expected.attempt (onAllocator (DeviceAllocator.updateShadow entry.1 values)) with
      | .ok () => pure ()
      | .error e => abortEpoch e

/-- Write the trace and, when `runReplay`, replay it and populate the outputs' words. -/
def doMaterializeLocked (runReplay : Bool) : Method P M Unit := do
  let w ← Expected.get
  if !w.epoch.recording then pure ()
  else do
    let stopOk ← stopEpoch env
    if !stopOk then abortEpoch .backendReplayFailed
    else do
      let hookHadError ← takeHookHadError
      if hookHadError then abortEpoch .bridgeHookFailed
      else if !runReplay then Expected.modify clearStateLocked
      else do
        let replayOk ← replay env
        if !replayOk then abortEpoch .backendReplayFailed
        else do
          Expected.forEach (populateShadow env) (outputs env w)
          Expected.modify clearStateLocked

/-- Finalize the epoch. Nothing is done when nothing is recorded, and an epoch without tagged
outputs is only dropped. -/
def finalizeLocked (runReplay : Bool) : Method P M Unit := do
  let w ← Expected.get
  if !w.epoch.recording then pure ()
  else if w.epoch.pendingOutputs = ∅ ∧ w.epoch.pendingMrpGroups = ∅ then
    Expected.modify clearStateLocked
  else do
    tagPendingOutputsLocked F env
    doMaterializeLocked env runReplay

/-- Replay the epoch and populate the tagged outputs. -/
def flush : Method P M Unit := do
  let w ← Expected.get
  if w.config.unsupportedDataFormat then Expected.fail .unsupportedDataFormat
  else finalizeLocked F env true

/-- Write the epoch's program without replaying it. -/
def writeProgram : Method P M Unit := finalizeLocked F env false

/-- Record a device-to-device copy. -/
def copyDeviceToDevice (dst src : DevAddr) : Method P M Unit := do
  epochSession env
  copyResultLocked F dst src kCopyModulus

/-- Bind an address to the words that were just copied to it, in a session of its own. -/
def tagH2dInput (addr : DevAddr) : Method P M Unit := do
  epochSession env
  tagH2dInputLocked F addr

end Finalize

end World

end Haze
