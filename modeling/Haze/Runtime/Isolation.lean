import Haze.Allocation.Words
import Haze.Api

/-!
# What the calls do not see

Two states are alike when they differ at most in where the words stand in the allocator's container
and in the calls that the compiler got before (`World.Alike`). Every method returns the same from
both and leaves them alike, so that a call is answered alike; reading outputs back needs that the
compiler holds the same outputs captured.

One instance is a reset. It leaves nothing of what was done before but the calls that were made to
the compiler, of which nothing is captured then. So a program that follows a reset is answered as in
a new process, whatever programs came before and however they ended (`reset_isolates`).
-/

namespace Haze

variable {P M : Type}

open Expected (Relates)

namespace World

/-- A relation of the compiler's logs that the same calls behind two of them keep. -/
structure LogRelation (P M : Type) where
  rel : List (CompilerCall P M) → List (CompilerCall P M) → Prop
  append : ∀ {cs ds}, rel cs ds → ∀ more, rel (cs ++ more) (ds ++ more)

/-- The same outputs are captured in related logs. -/
def LogRelation.SameCaptures (L : LogRelation P M) : Prop :=
  ∀ {cs ds}, L.rel cs ds → capturedOutputs ds = capturedOutputs cs

/-- The states differ at most in where the words stand in the allocator's container, and in the
compiler's log, where they are related by `L`. -/
structure Alike (L : LogRelation P M) (w w' : World P M) : Prop where
  config : w'.config = w.config
  allocator : w.allocator.SameWords w'.allocator
  epoch : w'.epoch = w.epoch
  initialized : w'.initialized = w.initialized
  hookHadError : w'.hookHadError = w.hookHadError
  compiler : L.rel w.compiler w'.compiler

variable {L : LogRelation P M}

/-- Alike states have the same words. -/
theorem Alike.shadow {w w' : World P M} (h : w.Alike L w') (a : DevAddr) :
    w'.allocator.shadow a = w.allocator.shadow a :=
  h.allocator.shadow a

/-- The methods return the same from alike states, and leave them alike. -/
abbrev Agree (L : LogRelation P M) {α : Type} (x y : Method P M α) : Prop := Relates (Alike L) x y

/-- The method returns the same from alike states, and leaves them alike. -/
abbrev Respects (L : LogRelation P M) {α : Type} (x : Method P M α) : Prop := Agree L x x

/-- What does not look at the order of the words does not tell alike states apart. -/
theorem onAllocator_respects {α : Type} {x : DeviceAllocator.Method α}
    (hx : DeviceAllocator.Extensional x) : Respects L (onAllocator x) :=
  .zoom hx (fun _ _ h => h.allocator) fun _ _ _ _ h hst => { h with allocator := hst }

/-- What works on the configuration does not. -/
theorem onConfig_respects {α : Type} (x : Config.Method α) : Respects L (onConfig x) := by
  refine .zoom (S := Eq) ?_ (fun _ _ h => h.config.symm) fun _ _ _ _ h hcd => { h with
    config := hcd.symm }
  rintro c d rfl
  exact ⟨rfl, rfl⟩

/-- What works on the epoch does not. -/
theorem onEpoch_respects {α : Type} (x : Expected HazeInternalError (EpochState P) α) :
    Respects L (onEpoch x) := by
  refine .zoom (S := Eq) ?_ (fun _ _ h => h.epoch.symm) fun _ _ _ _ h hcd => { h with
    epoch := hcd.symm }
  rintro c d rfl
  exact ⟨rfl, rfl⟩

/-- Changing the epoch does not. -/
theorem modifyEpoch_respects (f : EpochState P → EpochState P) :
    Respects L (modifyEpoch f) :=
  onEpoch_respects _

/-- Calling the compiler does not. -/
theorem call_respects (more : List (CompilerCall P M)) : Respects L (call more) :=
  .modify fun _ _ h => { h with compiler := L.append h.compiler more }

/-! ## Sessions, sources and copies -/

/-- Initializing the compiler leaves alike states alike. -/
theorem Alike.ensureInitialized {w w' : World P M} (h : w.Alike L w') (env : CompilerReplies P) :
    (World.ensureInitialized env w).Alike L (World.ensureInitialized env w') := by
  unfold World.ensureInitialized
  rw [h.initialized, h.config]
  split_ifs
  · exact h
  · exact h
  · exact { h with config := rfl, initialized := rfl, compiler := L.append h.compiler _ }
  · refine { h with config := rfl, initialized := rfl, compiler := ?_ }
    simp only [List.append_assoc]
    exact L.append h.compiler _

/-- Opening a recording leaves them alike. -/
theorem Alike.ensureRecordingLocked {w w' : World P M} (h : w.Alike L w') :
    (World.ensureRecordingLocked w).Alike L (World.ensureRecordingLocked w') := by
  unfold World.ensureRecordingLocked
  rw [h.initialized, h.epoch]
  split_ifs
  · exact { h with epoch := rfl, initialized := rfl, compiler := L.append h.compiler _ }
  · exact h

/-- Opening a session does not tell them apart. -/
theorem epochSession_respects (env : CompilerReplies P) :
    Respects L (epochSession env : Method P M Unit) :=
  .modify fun _ _ h => (h.ensureInitialized env).ensureRecordingLocked

/-- Clearing the epoch leaves them alike. -/
theorem Alike.clearStateLocked {w w' : World P M} (h : w.Alike L w') :
    (World.clearStateLocked w).Alike L (World.clearStateLocked w') :=
  { h with epoch := rfl, compiler := L.append h.compiler _ }

/-- Aborting the epoch does not tell them apart. -/
theorem abortEpoch_respects {α : Type} (e : HazeInternalError) :
    Respects L (abortEpoch e : Method P M α) :=
  .bind (.modify fun _ _ h => h.clearStateLocked) fun _ => .fail e

section

variable (F : Fhetch P M)

/-- Nor does tagging an input. -/
theorem tagInput_respects (addr : DevAddr) (values : List UInt64) (ringDim : UInt64) :
    Respects L (tagInput F addr values ringDim) :=
  .get_bind fun w w' h => by
    rw [h.epoch]
    exact .bind (call_respects _) fun _ => .bind (modifyEpoch_respects _) fun _ => .pure _

/-- Nor does taking the words of a source. -/
theorem extractSource_respects (addr : DevAddr) (ringDim : UInt64) :
    Respects L (extractSource addr ringDim : Method P M (List UInt64)) := by
  refine .bind (onAllocator_respects
    (DeviceAllocator.extractPolynomialComponents_extensional addr ringDim)).attempt fun r => ?_
  split
  · exact .pure _
  · exact .fail _
  · exact .fail _

/-- Nor does a lookup. -/
theorem lookupOrCreateLocked_respects (addr : DevAddr) :
    Respects L (lookupOrCreateLocked F addr) := by
  refine .get_bind fun w w' h => ?_
  rw [h.epoch, h.config]
  split
  · exact .pure _
  · exact .bind (extractSource_respects _ _) fun values => tagInput_respects F _ values _

/-- Nor does tagging an upload. -/
theorem tagH2dInputLocked_respects (addr : DevAddr) : Respects L (tagH2dInputLocked F addr) := by
  refine .get_bind fun w w' h => ?_
  rw [h.config]
  split_ifs
  · exact .fail _
  · exact .bind (onAllocator_respects
      (DeviceAllocator.readPolynomialComponents_extensional addr w.config.ringDim)) fun values =>
        .bind (tagInput_respects F _ values _) fun _ => modifyEpoch_respects _

/-- Nor does binding a modulus. -/
theorem bindModulus_respects (polys : List P) (modulus : UInt64) :
    Respects L (bindModulus polys modulus : Method P M Unit) := by
  unfold bindModulus
  split_ifs
  · exact call_respects _
  · exact .pure _

/-- Nor does copying a result. -/
theorem copyResultLocked_respects (dst src : DevAddr) (modulus : UInt64) :
    Respects L (copyResultLocked F dst src modulus) := by
  refine .bind (lookupOrCreateLocked_respects F src) fun poly => .get_bind fun w w' h => ?_
  rw [h.epoch]
  refine .bind (bindModulus_respects _ _) fun _ => .ite ?_ ?_
  · exact .bind (modifyEpoch_respects _) fun _ => modifyEpoch_respects _
  · exact .bind (.pure _) fun _ => modifyEpoch_respects _

/-- Nor does tagging a multi-residue input. -/
theorem tagMrpInputIfNewLocked_respects (name : ProbeName) (mrp : M) :
    Respects L (tagMrpInputIfNewLocked name mrp : Method P M Unit) := by
  refine .get_bind fun w w' h => ?_
  rw [h.epoch]
  split_ifs
  · exact .pure _
  · exact .bind (modifyEpoch_respects _) fun _ => call_respects _

/-- Nor does building one. -/
theorem buildMrpLocked_respects (polys : List DevAddr) (base : List UInt64) :
    Respects L (buildMrpLocked F polys base) := by
  refine .bind (.mapEach fun residue _ => .bind (lookupOrCreateLocked_respects F _) fun _ => .pure _)
    fun pairs => .get_bind fun w w' h => ?_
  rw [h.epoch]
  split_ifs
  · exact .bind (onEpoch_respects _) fun name =>
      .bind (tagMrpInputIfNewLocked_respects name _) fun _ => .pure _
  · exact .pure _

/-- Nor does registering a group. -/
theorem registerGroup_respects (addrs : List DevAddr) (base : List UInt64) :
    Respects L (registerGroup addrs base : Method P M Unit) := by
  unfold registerGroup
  split_ifs
  · exact .bind (onEpoch_respects _) fun name => onEpoch_respects _
  · exact .pure _

/-- Nor does storing residues. -/
theorem storeMrpLocked_respects (dstPolys : List DevAddr) (mrp : M) (base : List UInt64) :
    Respects L (storeMrpLocked F dstPolys mrp base) :=
  .bind (.forEach fun _ _ => modifyEpoch_respects _) fun _ => registerGroup_respects _ _

/-! ## The operations -/

variable (env : CompilerReplies P)

/-- Nor does an upload of residues. -/
theorem copyH2dMrp_respects (dst : List DevAddr) (src : List (Option (List UInt8))) (count : UInt64)
    (len : ℕ) : Respects L (copyH2dMrp F env dst src count len) :=
  .bind (.forEach fun _ _ => onAllocator_respects (DeviceAllocator.copyH2d_extensional _ _ _)) fun _ =>
    .bind (epochSession_respects env) fun _ => .forEach fun _ _ => tagH2dInputLocked_respects F _

/-- Nor does a copy of residues. -/
theorem copyDeviceToDeviceMrp_respects (dst src : List DevAddr) (base : List UInt64) :
    Respects L (copyDeviceToDeviceMrp F env dst src base) :=
  .bind (epochSession_respects env) fun _ =>
    .bind (.forEach fun _ _ => copyResultLocked_respects F _ _ _) fun _ => registerGroup_respects _ _

/-- Nor does finding a modulus. -/
theorem resolveModulus_respects (modIdx : ℤ) :
    Respects L (resolveModulus modIdx : Method P M UInt64) := by
  refine .get_bind fun w w' h => ?_
  rw [h.config]
  dsimp only
  split_ifs
  · exact .fail _
  · exact .pure _

/-- Nor does an operation on two residues. -/
theorem binaryPpOp_respects (opFn : P → P → UInt64 → P) (dst src1 src2 : DevAddr) (modIdx : ℤ) :
    Respects L (binaryPpOp F env opFn dst src1 src2 modIdx) :=
  .bind (epochSession_respects env) fun _ => .bind (resolveModulus_respects modIdx) fun _ =>
    .bind (lookupOrCreateLocked_respects F src1) fun _ =>
      .bind (lookupOrCreateLocked_respects F src2) fun _ => modifyEpoch_respects _

/-- Nor does an operation on one. -/
theorem unaryPqOp_respects (opFn : P → UInt64 → P) (dst src : DevAddr) (modIdx : ℤ) :
    Respects L (unaryPqOp F env opFn dst src modIdx) :=
  .bind (epochSession_respects env) fun _ => .bind (resolveModulus_respects modIdx) fun _ =>
    .bind (lookupOrCreateLocked_respects F src) fun _ => modifyEpoch_respects _

/-- Nor does an operation with an index. -/
theorem unaryPiOp_respects (opFn : P → UInt64 → P) (dst src : DevAddr) (index : UInt64) :
    Respects L (unaryPiOp F env opFn dst src index) := by
  refine .bind (epochSession_respects env) fun _ => .bind (lookupOrCreateLocked_respects F src)
    fun p => .get_bind fun w w' h => ?_
  rw [h.epoch]
  exact .bind (bindModulus_respects _ _) fun _ => modifyEpoch_respects _

/-- Nor does an operation on two lists of residues. -/
theorem binaryPpOpMrp_respects (opFn : M → M → M) (dst src1 src2 : List DevAddr)
    (base : List UInt64) : Respects L (binaryPpOpMrp F env opFn dst src1 src2 base) :=
  .bind (epochSession_respects env) fun _ => .bind (buildMrpLocked_respects F src1 base) fun _ =>
    .bind (buildMrpLocked_respects F src2 base) fun _ => storeMrpLocked_respects F _ _ _

/-- Nor does an operation on one list. -/
theorem unaryPOpMrp_respects (opFn : M → M) (dst src : List DevAddr) (base : List UInt64) :
    Respects L (unaryPOpMrp F env opFn dst src base) :=
  .bind (epochSession_respects env) fun _ => .bind (buildMrpLocked_respects F src base) fun _ =>
    storeMrpLocked_respects F _ _ _

/-- Nor does a fixed result. -/
theorem query_respects {α : Type} (r : Except HazeInternalError α) :
    Respects L (Expected.query fun _ => r : Method P M α) :=
  .query fun _ _ _ => rfl

/-- Nor does a basis conversion. -/
theorem basisConvert_respects (dst src : List DevAddr) (p : BasisConvertParams) :
    Respects L (basisConvert F env dst src p) := by
  refine .bind (query_respects _) fun bases => .bind (epochSession_respects env) fun _ =>
    .bind (buildMrpLocked_respects F _ _) fun srcMrp => .get_bind fun w w' h => ?_
  rw [h.config]
  exact storeMrpLocked_respects F _ _ _

/-- Nor does a rescaling. -/
theorem modDown_respects (dst src : List DevAddr) (p : ModDownParams) :
    Respects L (modDown F env dst src p) := by
  refine .bind (query_respects _) fun bases => .bind (epochSession_respects env) fun _ =>
    .bind (buildMrpLocked_respects F _ _) fun srcMrp => .get_bind fun w w' h => ?_
  rw [h.config]
  exact storeMrpLocked_respects F _ _ _

/-- Nor does storing digits. -/
theorem storeDigits_respects (dst : List DevAddr) (lift : List UInt64 → M) (d : ℕ)
    (digitBases : List (List UInt64)) : Respects L (storeDigits F dst lift d digitBases) := by
  induction digitBases generalizing d with
  | nil => exact .pure _
  | cons digitBase digitBases ih => exact .bind (storeMrpLocked_respects F _ _ _) fun _ => ih (d + 1)

/-- Nor does a lifting. -/
theorem modUp_respects (dst src : List DevAddr) (p : ModUpParams) :
    Respects L (modUp F env dst src p) := by
  refine .bind (query_respects _) fun bases => .bind (epochSession_respects env) fun _ =>
    .bind (buildMrpLocked_respects F _ _) fun srcMrp => .get_bind fun w w' h => ?_
  rw [h.config]
  exact storeDigits_respects F _ _ _ _

/-! ## Finalizing an epoch -/

/-- Nor does tagging a pending output. -/
theorem tagPendingOutput_respects (entry : Sigma fun _ : DevAddr => ProbeName) :
    Respects L (tagPendingOutput entry : Method P M Unit) := by
  refine .get_bind fun w w' h => ?_
  rw [h.epoch]
  split
  · exact .fail _
  · exact call_respects _

/-- Nor does finding the binding of a member. -/
theorem memberBinding_respects (residue : DevAddr × UInt64) :
    Respects L (memberBinding residue : Method P M (P × UInt64)) := by
  refine .get_bind fun w w' h => ?_
  rw [h.epoch]
  split
  · exact .fail _
  · exact .pure _

/-- Nor does tagging a pending group. -/
theorem tagPendingGroup_respects (name : ProbeName) : Respects L (tagPendingGroup F name) := by
  refine .get_bind fun w w' h => ?_
  rw [h.epoch]
  split
  · exact .fail _
  · exact .bind (.mapEach fun _ _ => memberBinding_respects _) fun _ => call_respects _

/-- Alike states have the same outputs, met in the same order. -/
theorem Alike.outputs {w w' : World P M} (h : w.Alike L w') :
    World.outputs env w' = World.outputs env w := by
  unfold World.outputs
  rw [h.epoch]

/-- Tagging what is pending does not tell them apart. -/
theorem tagPendingOutputsLocked_respects : Respects L (tagPendingOutputsLocked F env) := by
  refine .get_bind fun w w' h => ?_
  rw [h.outputs, h.epoch]
  exact .bind (.forEach fun _ _ => tagPendingOutput_respects _) fun _ =>
    .forEach fun _ _ => tagPendingGroup_respects F _

/-- Nor does stopping the epoch. -/
theorem stopEpoch_respects : Respects L (stopEpoch env : Method P M Bool) := by
  refine .bind (.modify fun w w' h => ?_) fun _ => .pure _
  exact { h with
    hookHadError := congrArg (· || env.hookFails) h.hookHadError
    compiler := L.append h.compiler _ }

/-- Nor does taking the hook's flag. -/
theorem takeHookHadError_respects : Respects L (takeHookHadError : Method P M Bool) :=
  fun _ _ h => ⟨congrArg Except.ok h.hookHadError, { h with hookHadError := rfl }⟩

variable (hL : L.SameCaptures)

include hL

/-- Where the compiler holds the same outputs captured, they are read back alike. -/
theorem populateShadow_respects (entry : Sigma fun _ : DevAddr => ProbeName) :
    Respects L (populateShadow env entry : Method P M Unit) := by
  refine .get_bind fun w w' h => ?_
  rw [hL h.compiler]
  split
  · exact abortEpoch_respects _
  split
  · exact abortEpoch_respects _
  refine .bind (onAllocator_respects (DeviceAllocator.updateShadow_extensional _ _)).attempt
    fun r => ?_
  split
  · exact .pure _
  · exact abortEpoch_respects _

/-- Nor does materializing. -/
theorem doMaterializeLocked_respects (runReplay : Bool) :
    Respects L (doMaterializeLocked env runReplay : Method P M Unit) := by
  have hclear : Respects L (Expected.modify World.clearStateLocked : Method P M Unit) :=
    .modify fun _ _ h => h.clearStateLocked
  refine .get_bind fun w w' h => ?_
  rw [h.epoch]
  refine .ite (.pure _) (.bind (stopEpoch_respects env) fun stopOk => ?_)
  refine .ite (abortEpoch_respects _) (.bind takeHookHadError_respects fun hookHadError => ?_)
  refine .ite (abortEpoch_respects _) (.ite hclear ?_)
  refine .bind (.bind (call_respects [.replay]) fun _ => .pure _) fun replayOk => ?_
  rw [h.outputs]
  refine .ite (abortEpoch_respects _) (.bind (.forEach fun entry _ => ?_) fun _ => hclear)
  exact populateShadow_respects env hL entry

/-- Nor does a finalization. -/
theorem finalizeLocked_respects (runReplay : Bool) :
    Respects L (finalizeLocked F env runReplay) := by
  refine .get_bind fun w w' h => ?_
  rw [h.epoch]
  refine .ite (.pure _) (.ite (.modify fun _ _ h => h.clearStateLocked) ?_)
  exact .bind (tagPendingOutputsLocked_respects F env) fun _ =>
    doMaterializeLocked_respects env hL runReplay

/-- Nor does a flush. -/
theorem flush_respects : Respects L (flush F env) := by
  refine .get_bind fun w w' h => ?_
  rw [h.config]
  exact .ite (.fail _) (finalizeLocked_respects F env hL true)

end

end World

/-! ## The public calls -/

open World

/-- The shim replies the same in alike states, and leaves them alike. -/
def Shim.Respects (L : LogRelation P M) (shim : Shim P M) : Prop :=
  ∀ w w', w.Alike L w' → (shim w').1 = (shim w).1 ∧ (shim w).2.Alike L (shim w').2

namespace Shim

variable {L : LogRelation P M}

/-- An entry that rejects its arguments does not tell alike states apart. -/
theorem invalidValue_respects : Respects L (invalidValue : Shim P M) := fun _ _ h => ⟨rfl, h⟩

/-- Where two methods return the same and leave alike states, they are replied to alike. -/
theorem replyWith_alike {α : Type} {onOk : α → Reply} {x y : Method P M α} {w w' : World P M}
    (h : (y w').1 = (x w).1 ∧ (x w).2.Alike L (y w').2) :
    (replyWith onOk y w').1 = (replyWith onOk x w).1 ∧
      (replyWith onOk x w).2.Alike L (replyWith onOk y w').2 := by
  obtain ⟨hresult, hstate⟩ := h
  unfold replyWith
  rcases hx : x w with ⟨e | a, v⟩
  · rcases hy : y w' with ⟨r, v'⟩
    rw [hx, hy] at hresult hstate
    cases hresult
    exact ⟨rfl, hstate⟩
  · rcases hy : y w' with ⟨r, v'⟩
    rw [hx, hy] at hresult hstate
    cases hresult
    exact ⟨rfl, hstate⟩

/-- Nor does one that replies with its method's result. -/
theorem replyWith_respects {α : Type} {onOk : α → Reply} {x : Method P M α}
    (hx : World.Respects L x) : Respects L (replyWith onOk x) :=
  fun w w' h => replyWith_alike (hx w w' h)

/-- Nor does one with a guard. -/
theorem guarded_respects {rejected : Bool} {shim : Shim P M} (h : Respects L shim) :
    Respects L (guarded rejected shim) := by
  unfold guarded
  split_ifs
  · exact invalidValue_respects
  · exact h

/-- Nor does one with arrays. -/
theorem withArrays_respects {dst src : Option (List DevAddr)} {base : Option (List UInt64)}
    {x : List DevAddr → List DevAddr → List UInt64 → Method P M Unit}
    (hx : ∀ dst src base, World.Respects L (x dst src base)) :
    Respects L (withArrays dst src base x) := by
  unfold withArrays
  split
  · exact guarded_respects (replyWith_respects (hx _ _ _))
  · exact invalidValue_respects

/-- Nor does one with a parameter block. -/
theorem dispatch_respects {T : Type} {x : List DevAddr → List DevAddr → T → Method P M Unit}
    {dst src : Option (List DevAddr)} {params : Option T}
    (hx : ∀ dst src params, World.Respects L (x dst src params)) :
    Respects L (dispatch x dst src params) := by
  unfold dispatch
  split
  · exact replyWith_respects (hx _ _ _)
  · exact invalidValue_respects

end Shim

section

variable (F : Fhetch P M) (env : CompilerReplies P) {L : LogRelation P M}

open Shim

/-- `hazeMemcpy` does not tell alike states apart. -/
theorem hazeMemcpy_respects (transfer : Transfer) (count : UInt64) :
    Respects L (hazeMemcpy F env transfer count) := by
  cases transfer with
  | hostToDevice dst src =>
    exact guarded_respects <| replyWith_respects <|
      .bind (onAllocator_respects (DeviceAllocator.copyH2d_extensional dst src count)) fun _ =>
      .bind (epochSession_respects env) fun _ => tagH2dInputLocked_respects F dst
  | deviceToHost dst src =>
    exact guarded_respects <| replyWith_respects <|
      onAllocator_respects (DeviceAllocator.copyToHost_extensional dst src count)
  | deviceToDevice dst src =>
    exact guarded_respects <| replyWith_respects <| .bind (epochSession_respects env) fun _ =>
      copyResultLocked_respects F dst src _
  | unknownKind => exact invalidValue_respects

/-- Nor does `hazeMemcpyMrp`. -/
theorem hazeMemcpyMrp_respects (transfer : TransferMrp) (count : UInt64)
    (base : Option (List UInt64)) : Respects L (hazeMemcpyMrp F env transfer count base) := by
  unfold hazeMemcpyMrp
  split
  · exact guarded_respects (replyWith_respects (copyH2dMrp_respects F env _ _ _ _))
  · exact guarded_respects <| replyWith_respects <| .mapEach fun _ _ =>
      onAllocator_respects (DeviceAllocator.copyToHost_extensional _ _ _)
  · exact guarded_respects (replyWith_respects (copyDeviceToDeviceMrp_respects F env _ _ _))
  · exact invalidValue_respects

/-- Nor does invalidating a pointer. -/
theorem invalidateNonNull_respects (ptr : DevAddr) :
    World.Respects L (invalidateNonNull ptr : Method P M Unit) :=
  .ite (modifyEpoch_respects _) (.pure _)

/-- Nor does `hazeFreeMrp`. -/
theorem hazeFreeMrp_respects (ptrs : Option (List DevAddr)) (count : UInt64) :
    Respects L (hazeFreeMrp ptrs count : Shim P M) := by
  unfold hazeFreeMrp
  split
  · exact invalidValue_respects
  · exact guarded_respects <| replyWith_respects <|
      .bind (.forEach fun _ _ => invalidateNonNull_respects _) fun _ =>
        onAllocator_respects (DeviceAllocator.freeMany_extensional _)

/-- Nor does setting the dimension. -/
theorem setRingDimension_respects (n : UInt64) :
    World.Respects L (setRingDimension n : Method P M Unit) := by
  intro w w' h
  unfold setRingDimension
  rw [h.config]
  split_ifs
  · exact ⟨rfl, h⟩
  · exact ⟨rfl, h⟩
  · exact ⟨rfl, { h with config := rfl, allocator := h.allocator.setPolynomialSize (n * 8) }⟩

/-- Nor does an entry for an operation on two residues. -/
theorem hazeBinaryPp_respects (opFn : P → P → UInt64 → P) (dst src1 src2 : DevAddr) (modIdx : ℤ) :
    Respects L (hazeBinaryPp F env opFn dst src1 src2 modIdx) :=
  guarded_respects (replyWith_respects (binaryPpOp_respects F env opFn dst src1 src2 modIdx))

/-- Nor does one for an operation on one. -/
theorem hazeUnaryPq_respects (opFn : P → UInt64 → P) (dst src : DevAddr) (modIdx : ℤ) :
    Respects L (hazeUnaryPq F env opFn dst src modIdx) :=
  guarded_respects (replyWith_respects (unaryPqOp_respects F env opFn dst src modIdx))

/-- Nor does one for an operation on two lists. -/
theorem hazeBinaryPpMrp_respects (opFn : M → M → M) (dst src1 src2 : Option (List DevAddr))
    (base : Option (List UInt64)) :
    Respects L (hazeBinaryPpMrp F env opFn dst src1 src2 base) := by
  unfold hazeBinaryPpMrp
  split
  · exact invalidValue_respects
  · exact withArrays_respects fun dst src base => binaryPpOpMrp_respects F env opFn dst src _ base

/-- Nor does one for an operation with scalars. -/
theorem hazeBinaryPsMrp_respects (opFn : M → List (UInt64 × UInt64) → M)
    (dst src : Option (List DevAddr)) (scalars base : Option (List UInt64)) :
    Respects L (hazeBinaryPsMrp F env opFn dst src scalars base) := by
  unfold hazeBinaryPsMrp
  split
  · exact invalidValue_respects
  · exact withArrays_respects fun dst src base => unaryPOpMrp_respects F env _ dst src base

/-- Nor does one for an operation on one list. -/
theorem hazeUnaryPMrp_respects (opFn : M → M) (dst src : Option (List DevAddr))
    (base : Option (List UInt64)) : Respects L (hazeUnaryPMrp F env opFn dst src base) :=
  withArrays_respects fun dst src base => unaryPOpMrp_respects F env opFn dst src base

/-- Nor does `hazeDeviceReset`. -/
theorem hazeDeviceReset_respects : Respects L (hazeDeviceReset : Shim P M) := by
  intro w w' h
  exact ⟨rfl, ⟨rfl, .refl _, rfl, rfl, rfl, L.append h.clearStateLocked.compiler _⟩⟩

/-- Nor does a configuration call. -/
theorem ConfigCall.run_respects (call : ConfigCall) : Respects L (call.run : Shim P M) := by
  cases call with
  | setCiphertextModulus index modulus => exact replyWith_respects (onConfig_respects _)
  | setTwiddleFactors index generator => exact replyWith_respects (onConfig_respects _)
  | configureDevice => exact replyWith_respects (onConfig_respects _)
  | setProgramInfo name version description => exact replyWith_respects (onConfig_respects _)
  | setTarget target => exact replyWith_respects (onConfig_respects _)
  | setProgramDirectory dir => exact replyWith_respects (onConfig_respects _)
  | setMontgomery enable =>
    unfold run hazeSetMontgomery
    exact replyWith_respects (onConfig_respects _)
  | setBitReversal enable =>
    unfold run hazeSetBitReversal
    exact replyWith_respects (onConfig_respects _)
  | setReducedNoise enable =>
    unfold run hazeSetReducedNoise
    exact replyWith_respects (onConfig_respects _)

/-- The calls that finalize the epoch. -/
def Call.Finalizes : Call → Prop
  | .flush => True
  | .writeProgram => True
  | _ => False

/-- Every call is answered alike in alike states; one that finalizes, where the same outputs are
captured. -/
theorem Call.run_respects {c : Call} (hL : c.Finalizes → L.SameCaptures) :
    Respects L (c.run F env) := by
  -- Each call is made of methods that cannot tell the two states apart.
  cases c with
  | malloc ptr size =>
    exact guarded_respects <| replyWith_respects <|
      onAllocator_respects (DeviceAllocator.allocate_extensional size)
  | free ptr =>
    exact replyWith_respects <| .bind (invalidateNonNull_respects ptr) fun _ =>
      onAllocator_respects (DeviceAllocator.free_extensional ptr)
  | mallocMrp ptrs count size =>
    exact guarded_respects <| replyWith_respects <|
      onAllocator_respects (DeviceAllocator.allocateMany_extensional _ size)
  | freeMrp ptrs count => exact hazeFreeMrp_respects ptrs count
  | memcpy transfer count => exact hazeMemcpy_respects F env transfer count
  | memcpyMrp transfer count base => exact hazeMemcpyMrp_respects F env transfer count base
  | memset devPtr value count =>
    exact guarded_respects <| replyWith_respects <|
      .bind (onAllocator_respects (DeviceAllocator.memset_extensional devPtr value count)) fun _ =>
      modifyEpoch_respects _
  | pp op dst src1 src2 modIdx => cases op <;> exact hazeBinaryPp_respects F env _ dst src1 src2 modIdx
  | ps op dst src scalar modIdx => cases op <;> exact hazeUnaryPq_respects F env _ dst src modIdx
  | transform op dst src modIdx => cases op <;> exact hazeUnaryPq_respects F env _ dst src modIdx
  | automorph dst src index =>
    exact guarded_respects (replyWith_respects (unaryPiOp_respects F env _ dst src index))
  | ppMrp op dst src1 src2 base => cases op <;> exact hazeBinaryPpMrp_respects F env _ dst src1 src2 base
  | psMrp op dst src scalars base => cases op <;> exact hazeBinaryPsMrp_respects F env _ dst src scalars base
  | transformMrp op dst src base => cases op <;> exact hazeUnaryPMrp_respects F env _ dst src base
  | indexMrp op dst src index base =>
    cases op <;> exact withArrays_respects fun dst src base => unaryPOpMrp_respects F env _ dst src base
  | basisConvert dst src params => exact dispatch_respects (basisConvert_respects F env)
  | modDown dst src params => exact dispatch_respects (modDown_respects F env)
  | modUp dst src params => exact dispatch_respects (modUp_respects F env)
  | tagOutput ptr => exact guarded_respects (replyWith_respects (onEpoch_respects _))
  | flush => exact replyWith_respects (flush_respects F env (hL trivial))
  | writeProgram => exact replyWith_respects (finalizeLocked_respects F env (hL trivial) false)
  | deviceReset => exact hazeDeviceReset_respects
  | setRingDimension n => exact replyWith_respects (setRingDimension_respects n)
  | config call => exact call.run_respects

end

/-! ## Programs after a reset -/

/-- A program is answered alike in alike states. -/
theorem World.Alike.program {F : Fhetch P M} {L : LogRelation P M} (hL : L.SameCaptures)
    {w w' : World P M} (h : w.Alike L w') (is : List (Invocation P)) :
    World.replies F w' is = World.replies F w is ∧
      (World.runAll F w is).Alike L (World.runAll F w' is) := by
  induction is generalizing w w' with
  | nil => exact ⟨rfl, h⟩
  | cons i is ih =>
    obtain ⟨hreply, hstate⟩ := Call.run_respects F i.env (c := i.call) (fun _ => hL) w w' h
    obtain ⟨hreplies, hrun⟩ := ih hstate
    exact ⟨congrArg₂ List.cons hreply hreplies, hrun⟩

/-- One log is the other behind some earlier calls. -/
def World.LogRelation.behind (calls : List (CompilerCall P M)) : LogRelation P M where
  rel cs ds := ds = calls ++ cs
  append := by
    rintro cs _ rfl more
    exact List.append_assoc ..

/-- Calls behind a log without captured outputs capture the same. -/
theorem World.LogRelation.behind_sameCaptures {calls : List (CompilerCall P M)}
    (h : capturedOutputs calls = []) : (behind calls).SameCaptures := by
  rintro cs _ rfl
  unfold capturedOutputs at h ⊢
  rw [List.foldl_append, h]

/-- A reset leaves a new process behind calls of which nothing is captured. -/
theorem resetAll_alike (w : World P M) :
    ∃ calls, capturedOutputs calls = [] ∧ World.init.Alike (.behind calls) (resetAll w) := by
  refine ⟨w.compiler ++ [.clearCaptured, .reset], ?_, rfl, .refl _, rfl, rfl, rfl, ?_⟩
  · unfold capturedOutputs
    rw [List.foldl_append]
    rfl
  · change w.compiler ++ [.clearCaptured] ++ [.reset] = w.compiler ++ [.clearCaptured, .reset] ++ []
    rw [List.append_assoc, List.append_nil]
    rfl

/-- Whatever was done before a reset, with whatever outcome, the program behind it is answered as in a
new process, and it ends in the state of that process but for the calls that the compiler had got. -/
theorem reset_isolates (F : Fhetch P M) (w : World P M) (env : CompilerReplies P)
    (before after : List (Invocation P)) :
    World.replies F w (before ++ ⟨env, .deviceReset⟩ :: after) =
      World.replies F w before ++
        { Reply.success with lastError := some .success } :: World.replies F .init after ∧
    ∃ calls, (World.runAll F .init after).Alike (.behind calls)
      (World.runAll F w (before ++ ⟨env, .deviceReset⟩ :: after)) := by
  induction before generalizing w with
  | nil =>
    obtain ⟨calls, hcalls, hreset⟩ := resetAll_alike w
    obtain ⟨hreplies, hrun⟩ :=
      hreset.program (F := F) (World.LogRelation.behind_sameCaptures hcalls) after
    exact ⟨congrArg _ hreplies, calls, hrun⟩
  | cons i before ih =>
    obtain ⟨hreplies, hrun⟩ := ih (w.after F i)
    exact ⟨congrArg _ hreplies, hrun⟩

end Haze
