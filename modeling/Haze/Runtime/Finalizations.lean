import Mathlib.Data.List.Find
import Haze.Runtime.Flush
import Haze.Runtime.Isolation

/-!
# Finalizations compared

`hazeFlush` and `hazeWriteProgram` are one finalization, with and without a replay. When one of them
succeeds the steps that it took are known (`finalize_ok_iff`), so two of them from the same state can
be compared: a flush does not depend on the orders in which the runtime meets the pending outputs
and groups (`programs_anyOrder`), and writing the program makes the calls of a flush up to the replay
(`writeProgram_flush`). Either way the epoch is over: flushing again does nothing, so that the
outputs of a program that was written are never read back (`finalizations_idle`).
-/

namespace Haze

variable {P M : Type}

namespace World

/-- The state at the end of a finalization that succeeds with something tagged. -/
def finalized (F : Fhetch P M) (env : CompilerReplies P) (runReplay : Bool) (w : World P M) :
    World P M :=
  clearStateLocked { w with
    allocator := if runReplay then populated env (taggedOutputs env w) (outputs env w) w.allocator
      else w.allocator
    compiler := w.compiler ++ tagCalls F env w ++ [.stop] ++ (if runReplay then [.replay] else [])
    hookHadError := false }

/-- The steps that a finalization with something tagged must get through. -/
structure Completes (env : CompilerReplies P) (runReplay : Bool) (w : World P M) : Prop where
  stop : env.stopSucceeds = true
  hook : (w.hookHadError || env.hookFails) = false
  replay : runReplay = true → env.replaySucceeds = true
  outputs : runReplay = true → ∀ entry ∈ outputs env w,
    (decoded env (taggedOutputs env w) entry).isSome ∧ entry.1 ∈ w.allocator.allocSet

section

variable {F : Fhetch P M} {env : CompilerReplies P} {w w' : World P M}

/-- A finalization with something tagged succeeds exactly when it gets through its steps. -/
theorem finalize_ok_iff (runReplay : Bool) (hc : w.epoch.Consistent)
    (hcap : capturedOutputs w.compiler = []) (hrec : w.epoch.recording = true)
    (hpend : ¬ (w.epoch.pendingOutputs = ∅ ∧ w.epoch.pendingMrpGroups = ∅)) :
    finalizeLocked F env runReplay w = (.ok (), w') ↔
      Completes env runReplay w ∧ w' = finalized F env runReplay w := by
  -- The captures are those of the tag calls.
  have hcap' : capturedOutputs (w.compiler ++ tagCalls F env w ++ [.stop] ++ [.replay]) =
      taggedOutputs env w := by
    rw [capturedOutputs_append, capturedOutputs_append]
    exact captured_tagCalls hcap
  rw [finalize_run runReplay hc hrec hpend, doMaterialize_run
    (w := { w with compiler := w.compiler ++ tagCalls F env w }) runReplay hrec]
  -- The five ways through the source, in its order.
  split_ifs with hstop hflag hwrite hreplay
  · refine iff_of_false (by rintro ⟨⟩) ?_
    rintro ⟨h, -⟩
    cases h.stop.symm.trans hstop
  · refine iff_of_false (by rintro ⟨⟩) ?_
    rintro ⟨h, -⟩
    cases h.hook.symm.trans hflag
  · subst hwrite
    rw [Bool.not_eq_false] at hstop
    rw [Bool.not_eq_true] at hflag
    constructor
    · intro h
      cases h
      refine ⟨⟨hstop, hflag, ?_, ?_⟩, ?_⟩
      · rintro ⟨⟩
      · rintro ⟨⟩
      · unfold finalized stopped
        simp only [Bool.false_eq_true, if_false, List.append_nil]
    · rintro ⟨-, rfl⟩
      unfold finalized stopped
      simp only [Bool.false_eq_true, if_false, List.append_nil]
  · refine iff_of_false (by rintro ⟨⟩) ?_
    rintro ⟨h, -⟩
    rw [Bool.not_eq_false] at hwrite
    cases (h.replay hwrite).symm.trans hreplay
  · rw [Bool.not_eq_false] at hstop hwrite hreplay
    rw [Bool.not_eq_true] at hflag
    subst hwrite
    -- With a replay the outputs are stored, each of them or none.
    rw [Expected.bind_eq_ok]
    constructor
    · rintro ⟨_, v, hpop, hv⟩
      obtain ⟨hall, rfl⟩ := (forEach_populateShadow_ok hcap').mp hpop
      cases hv
      exact ⟨⟨hstop, hflag, fun _ => hreplay, fun _ => hall⟩, rfl⟩
    · rintro ⟨h, rfl⟩
      exact ⟨(), _, (forEach_populateShadow_ok hcap').mpr ⟨h.outputs rfl, rfl⟩, rfl⟩

end

/-! ## The orders of iteration -/

/-- The same calls in another order. -/
def LogRelation.permuted : LogRelation P M where
  rel cs ds := ds.Perm cs
  append h more := h.append_right more

end World

/-- The compiler answers a call alike, whatever the orders of the iterations: where the captured names
are distinct, a result depends on what was captured under them, and not on the order. -/
structure CompilerReplies.SameButOrders (env env' : CompilerReplies P) : Prop where
  init : env'.initReturns = env.initReturns
  stop : env'.stopSucceeds = env.stopSucceeds
  hook : env'.hookFails = env.hookFails
  replay : env'.replaySucceeds = env.replaySucceeds
  result : ∀ outs outs' name, (outs.map Prod.fst).Nodup → outs'.Perm outs →
    env'.result outs' name = env.result outs name
  savedValues : env'.savedValues = env.savedValues

namespace World

/-- A flush that gets as far as the outputs reads every one of them back to a live address. -/
def ReadsBack (env : CompilerReplies P) (w : World P M) : Prop :=
  env.stopSucceeds = true → (w.hookHadError || env.hookFails) = false → env.replaySucceeds = true →
    ∀ entry ∈ outputs env w,
      (decoded env (taggedOutputs env w) entry).isSome ∧ entry.1 ∈ w.allocator.allocSet

section

variable {F : Fhetch P M} {env env' : CompilerReplies P} {w w' : World P M}
  (h : env.SameButOrders env') (hw : w.Alike .permuted w')

include hw

/-- Alike states have the same outputs. -/
theorem Alike.outputs_perm (env env' : CompilerReplies P) :
    (World.outputs env' w').Perm (World.outputs env w) := by
  rw [hw.outputs]
  exact (env'.outputOrder.perm _).trans (env.outputOrder.perm _).symm

/-- They have the same outputs tagged. -/
theorem Alike.taggedOutputs_perm (env env' : CompilerReplies P) :
    (taggedOutputs env' w').Perm (taggedOutputs env w) := by
  have hbinding : w'.binding = w.binding := by
    unfold binding
    rw [hw.epoch]
  unfold taggedOutputs
  rw [hbinding]
  exact (hw.outputs_perm env env').filterMap _

/-- The calls that tag them are the same, in some order. -/
theorem Alike.tagCalls_perm (env env' : CompilerReplies P) :
    (tagCalls F env' w').Perm (tagCalls F env w) := by
  unfold tagCalls
  rw [hw.epoch]
  exact ((hw.outputs_perm env env').filterMap _).append
    (((env'.groupOrder.perm _).trans (env.groupOrder.perm _).symm).filterMap _)

variable (hvalid : w.epoch.Valid)

include h hvalid

/-- Each is read back alike. -/
theorem Alike.decoded (entry : Sigma fun _ : DevAddr => ProbeName) :
    World.decoded env' (taggedOutputs env' w') entry =
      World.decoded env (taggedOutputs env w) entry := by
  unfold World.decoded CompilerReplies.extractPolynomialValues
  rw [h.result _ _ _ (taggedOutputs_nodup hvalid) (hw.taggedOutputs_perm env env'),
    h.savedValues]

/-- A finalization completes from both or from neither. -/
theorem Alike.completes {runReplay : Bool} (hcompletes : Completes env runReplay w) :
    Completes env' runReplay w' where
  stop := h.stop.trans hcompletes.stop
  hook := by
    rw [hw.hookHadError, h.hook]
    exact hcompletes.hook
  replay hrun := h.replay.trans (hcompletes.replay hrun)
  outputs hrun entry hentry := by
    have hallocSet : w'.allocator.allocSet = w.allocator.allocSet := by
      obtain ⟨words, heq, -⟩ := hw.allocator
      rw [heq]
    rw [hw.decoded h hvalid, hallocSet]
    exact hcompletes.outputs hrun entry ((hw.outputs_perm env env').mem_iff.mp hentry)

/-- Populating the outputs in another order leaves the same words. -/
theorem Alike.populated :
    (World.populated env (taggedOutputs env w) (World.outputs env w) w.allocator).SameWords
      (World.populated env' (taggedOutputs env' w') (World.outputs env' w') w'.allocator) := by
  have hwant : w'.allocator.wantElems = w.allocator.wantElems := by
    obtain ⟨words, heq, -⟩ := hw.allocator
    rw [heq]
    rfl
  refine ⟨(World.populated env' (taggedOutputs env' w') (World.outputs env' w')
    w'.allocator).shadowData, ?_, fun a => ?_⟩
  · obtain ⟨words, heq, -⟩ := hw.allocator
    rw [populated_frame (World.outputs env' w'), populated_frame (World.outputs env w), heq]
  change DeviceAllocator.shadow _ a = DeviceAllocator.shadow _ a
  by_cases ha : ∃ entry ∈ World.outputs env w, a = entry.1
  · obtain ⟨entry, hentry, rfl⟩ := ha
    rw [shadow_populated_of_mem (outputs_keys_nodup env w) hentry, shadow_populated_of_mem
      (outputs_keys_nodup env' w') ((hw.outputs_perm env env').mem_iff.mpr hentry), hw.decoded h hvalid,
      hwant]
  · push Not at ha
    rw [shadow_populated_of_notMem ha, shadow_populated_of_notMem fun entry hentry =>
      ha entry ((hw.outputs_perm env env').mem_iff.mp hentry), hw.shadow]

/-- Finalizations that get through their steps leave alike states. -/
theorem Alike.finalized (runReplay : Bool) :
    (World.finalized F env runReplay w).Alike .permuted (World.finalized F env' runReplay w') where
  config := hw.config
  allocator := by
    unfold World.finalized World.clearStateLocked
    dsimp only
    split
    · exact hw.populated h hvalid
    · exact hw.allocator
  epoch := rfl
  initialized := hw.initialized
  hookHadError := rfl
  compiler := LogRelation.permuted.append (LogRelation.permuted.append
    (LogRelation.permuted.append (hw.compiler.append (hw.tagCalls_perm env env')) _) _) _

/-- From alike states, a finalization that reads every output back once it gets that far returns the
same in every order, and leaves alike states. -/
theorem Alike.finalizeLocked (runReplay : Bool) (hcap : capturedOutputs w.compiler = [])
    (hcap' : capturedOutputs w'.compiler = [])
    (hread : runReplay = true → ReadsBack env w) :
    (World.finalizeLocked F env' runReplay w').1 = (World.finalizeLocked F env runReplay w).1 ∧
      (World.finalizeLocked F env runReplay w).2.Alike .permuted
        (World.finalizeLocked F env' runReplay w').2 := by
  have hc := hvalid.consistent
  have hepoch := hw.epoch
  rcases hrec : w.epoch.recording
  · rw [finalize_idle runReplay hrec, finalize_idle runReplay (hepoch ▸ hrec)]
    exact ⟨rfl, hw⟩
  by_cases hpend : w.epoch.pendingOutputs = ∅ ∧ w.epoch.pendingMrpGroups = ∅
  · rw [finalize_drops runReplay hrec hpend,
      finalize_drops runReplay (hepoch ▸ hrec) (hepoch ▸ hpend)]
    exact ⟨rfl, hw.clearStateLocked⟩
  have hc' : w'.epoch.Consistent := hepoch ▸ hc
  have hrec' : w'.epoch.recording = true := hepoch ▸ hrec
  have hpend' : ¬ (w'.epoch.pendingOutputs = ∅ ∧ w'.epoch.pendingMrpGroups = ∅) := hepoch ▸ hpend
  by_cases hcompletes : Completes env runReplay w
  · rw [(finalize_ok_iff runReplay hc hcap hrec hpend).mpr ⟨hcompletes, rfl⟩,
      (finalize_ok_iff runReplay hc' hcap' hrec' hpend').mpr ⟨hw.completes h hvalid hcompletes, rfl⟩]
    exact ⟨rfl, hw.finalized h hvalid runReplay⟩
  -- what fails now is a step before the outputs, where the orders are not seen
  have hlog : (w'.compiler ++ tagCalls F env' w').Perm (w.compiler ++ tagCalls F env w) :=
    hw.compiler.append (hw.tagCalls_perm env env')
  have hstopped : (w'.compiler ++ tagCalls F env' w' ++ [CompilerCall.stop]).Perm
      (w.compiler ++ tagCalls F env w ++ [CompilerCall.stop]) := hlog.append_right _
  rw [finalize_run runReplay hc hrec hpend, finalize_run runReplay hc' hrec' hpend',
    doMaterialize_run (w := { w with compiler := w.compiler ++ tagCalls F env w }) runReplay hrec,
    doMaterialize_run (w := { w' with compiler := w'.compiler ++ tagCalls F env' w' }) runReplay
      hrec']
  dsimp only
  rw [h.stop, h.hook, h.replay, hw.hookHadError]
  split_ifs with hstop hflag hwrite hreplay
  · exact ⟨rfl, Alike.clearStateLocked { hw with
      hookHadError := congrArg (w.hookHadError || ·) h.hook
      compiler := hstopped }⟩
  · exact ⟨rfl, Alike.clearStateLocked { hw with hookHadError := rfl, compiler := hstopped }⟩
  · exact ⟨rfl, Alike.clearStateLocked { hw with hookHadError := rfl, compiler := hstopped }⟩
  · exact ⟨rfl, Alike.clearStateLocked { hw with
      hookHadError := rfl, compiler := hstopped.append_right _ }⟩
  · rw [Bool.not_eq_false] at hstop hwrite hreplay
    rw [Bool.not_eq_true] at hflag
    exact absurd ⟨hstop, hflag, fun _ => hreplay, fun _ => hread hwrite hstop hflag hreplay⟩ hcompletes

end

end World

open World

/-! ## Programs under other orders -/

section

variable (F : Fhetch P M) {env env' : CompilerReplies P} (h : env'.initReturns = env.initReturns)

include h

/-- A session opens alike under replies that differ in orders alone. -/
theorem World.epochSession_congr : (epochSession env' : Method P M Unit) = epochSession env := by
  unfold epochSession ensureInitialized
  rw [h]

/-- A call that does not finalize depends on the compiler only through its initialization. -/
theorem Call.run_congr {c : Call} (hc : ¬ c.Finalizes) : c.run F env' = c.run F env := by
  -- The reply that orders the outputs is read by the finalizing calls alone.
  have hsession := World.epochSession_congr (M := M) h
  have hpp : ∀ opFn, binaryPpOp F env' opFn = binaryPpOp F env opFn := fun opFn => by
    unfold binaryPpOp
    rw [hsession]
  have hpq : ∀ opFn, unaryPqOp F env' opFn = unaryPqOp F env opFn := fun opFn => by
    unfold unaryPqOp
    rw [hsession]
  have hppMrp : ∀ opFn, binaryPpOpMrp F env' opFn = binaryPpOpMrp F env opFn := fun opFn => by
    unfold binaryPpOpMrp
    rw [hsession]
  have hpMrp : ∀ opFn, unaryPOpMrp F env' opFn = unaryPOpMrp F env opFn := fun opFn => by
    unfold unaryPOpMrp
    rw [hsession]
  -- Every call opens its session with the same replies.
  cases c with
  | memcpy transfer count =>
    cases transfer <;> simp only [run, hazeMemcpy, tagH2dInput, copyDeviceToDevice, hsession]
  | memcpyMrp transfer count base =>
    simp only [run, hazeMemcpyMrp, copyH2dMrp, copyDeviceToDeviceMrp, hsession]
  | pp op dst src1 src2 modIdx =>
    cases op <;> simp only [run, hazeAdd, hazeSub, hazeMul, hazeBinaryPp, hpp]
  | ps op dst src scalar modIdx =>
    cases op <;>
      simp only [run, hazeAddScalar, hazeSubScalar, hazeMulScalar, hazeBinaryPs, binaryPsOp, hpq]
  | transform op dst src modIdx =>
    cases op <;> simp only [run, hazeNTT, hazeINTT, hazeUnaryPq, hpq]
  | automorph dst src index => simp only [run, hazeAutomorph, unaryPiOp, hsession]
  | ppMrp op dst src1 src2 base =>
    cases op <;> simp only [run, hazeAddMrp, hazeSubMrp, hazeMulMrp, hazeBinaryPpMrp, hppMrp]
  | psMrp op dst src scalars base =>
    cases op <;>
      simp only [run, hazeAddScalarMrp, hazeSubScalarMrp, hazeMulScalarMrp, hazeBinaryPsMrp,
        binaryPsOpMrp, hpMrp]
  | transformMrp op dst src base =>
    cases op <;> simp only [run, hazeNTTMrp, hazeINTTMrp, hazeUnaryPMrp, hpMrp]
  | indexMrp op dst src index base =>
    cases op <;>
      simp only [run, hazeAutomorphMrp, hazeRotAutomorphCoeffMrp, hazeUnaryPiMrp, unaryPiOpMrp, hpMrp]
  | basisConvert dst src params =>
    unfold run hazeBasisConvert World.basisConvert
    rw [hsession]
  | modDown dst src params =>
    unfold run hazeModDown World.modDown
    rw [hsession]
  | modUp dst src params =>
    unfold run hazeModUp World.modUp
    rw [hsession]
  | flush => exact absurd trivial hc
  | writeProgram => exact absurd trivial hc
  | _ => rfl

end

/-- From alike states, a call is answered alike; a flush, when it reads its outputs back. -/
theorem World.Alike.call (F : Fhetch P M) {env env' : CompilerReplies P} {w w' : World P M}
    (hw : w.Alike .permuted w') (hinv : w.Inv) (hcap : capturedOutputs w.compiler = [])
    (hcap' : capturedOutputs w'.compiler = []) {c : Call} (horders : env.SameButOrders env')
    (hread : c = .flush → ReadsBack env w) :
    (c.run F env' w').1 = (c.run F env w).1 ∧
      (c.run F env w).2.Alike .permuted (c.run F env' w').2 := by
  have hfinalize := fun runReplay => hw.finalizeLocked (F := F) horders hinv.epoch
    runReplay hcap hcap'
  by_cases hc : c.Finalizes
  · cases c with
    | flush =>
      refine Shim.replyWith_alike ?_
      unfold World.flush
      rw [Expected.get_bind_run, Expected.get_bind_run, hw.config]
      split_ifs
      · exact ⟨rfl, hw⟩
      · exact hfinalize true fun _ => hread rfl
    | writeProgram => exact Shim.replyWith_alike (hfinalize false fun hfalse => nomatch hfalse)
    | _ => exact hc.elim
  · rw [Call.run_congr F horders.init hc]
    exact Call.run_respects F env (fun h => absurd h hc) w w' hw

/-- The same call, while the compiler answers alike but for the orders of its iterations. -/
structure Invocation.SameButOrders (i i' : Invocation P) : Prop where
  call : i'.call = i.call
  env : i.env.SameButOrders i'.env

/-- The orders in which the runtime meets its pending outputs and groups are not seen from outside.
Two runs of a program that differ in them give the same replies and end alike, the compiler having
got the same calls in another order, when each flush of the first reads back all its outputs once it
gets that far. -/
theorem programs_anyOrder (F : Fhetch P M) {is is' : List (Invocation P)}
    (horders : List.Forall₂ Invocation.SameButOrders is is')
    (hread : Expected.Along (World.after F) (fun w i => i.call = .flush → ReadsBack i.env w)
      .init is) :
    World.replies F .init is' = World.replies F .init is ∧
      (World.runAll F .init is).Alike .permuted (World.runAll F .init is') := by
  -- By induction on the run, from two states that are alike.
  have hall : ∀ {w w' : World P M}, w.Inv → w'.Inv → capturedOutputs w.compiler = [] →
      capturedOutputs w'.compiler = [] → w.Alike .permuted w' →
      Expected.Along (World.after F) (fun w i => i.call = .flush → ReadsBack i.env w) w is →
      World.replies F w' is' = World.replies F w is ∧
        (World.runAll F w is).Alike .permuted (World.runAll F w' is') := by
    clear hread
    induction horders with
    | nil => exact fun _ _ _ _ hw _ => ⟨rfl, hw⟩
    | @cons i i' is is' hi _ ih =>
      intro w w' hinv hinv' hcap hcap' hw hread
      obtain ⟨env, c⟩ := i
      obtain ⟨env', c'⟩ := i'
      obtain ⟨rfl, henv⟩ := hi
      obtain ⟨hreply, hstate⟩ := hw.call F hinv hcap hcap' henv hread.1
      obtain ⟨hreplies, hrun⟩ := ih (hinv.after _) (hinv'.after _) (captured_after hinv hcap _)
        (captured_after hinv' hcap' _) hstate hread.2
      exact ⟨congrArg₂ List.cons hreply hreplies, hrun⟩
  exact hall inv_init inv_init rfl rfl ⟨rfl, .refl _, rfl, rfl, rfl, .refl _⟩ hread

/-- A compiler that meets the outputs and the groups in the opposite order. -/
def reversedReplies : CompilerReplies UInt64 :=
  { scalarReplies with
    outputOrder := ⟨List.reverse, List.reverse_perm⟩
    groupOrder := ⟨List.reverse, List.reverse_perm⟩ }

/-- The replies that meet everything backwards differ in orders alone. -/
theorem scalarReplies_sameButOrders : scalarReplies.SameButOrders reversedReplies where
  init := rfl
  stop := rfl
  hook := rfl
  replay := rfl
  result _ _ name hnodup hperm := by
    refine congrArg (Option.map Prod.snd) (List.find?_eq_find?_of_perm hperm ?_)
    rintro x ⟨hx, hxname⟩ y ⟨hy, hyname⟩
    have hname : x.1 = y.1 := (of_decide_eq_true hxname).trans (of_decide_eq_true hyname).symm
    exact List.inj_on_of_nodup_map ((hperm.map Prod.fst).nodup_iff.mpr hnodup) hx hy hname
  savedValues := rfl

/-- Two uploads, the second doubled over the first, and both read back. -/
def doubledBack : List Call :=
  [.setRingDimension 1, .config (.setCiphertextModulus 0 17), .malloc true 8, .malloc true 8,
    uploadFive, .pp .add ⟨kHbmBase + 8⟩ ⟨kHbmBase⟩ ⟨kHbmBase⟩ 0, .tagOutput ⟨kHbmBase⟩,
    .tagOutput ⟨kHbmBase + 8⟩, .flush]

/-- The program replies and ends the same when its two outputs are met backwards. -/
theorem programs_anyOrder_example :
    World.replies scalarRing .init (doubledBack.map (⟨reversedReplies, ·⟩)) =
        World.replies scalarRing .init (scalarProgram doubledBack) ∧
      (World.runAll scalarRing .init (scalarProgram doubledBack)).Alike .permuted
        (World.runAll scalarRing .init (doubledBack.map (⟨reversedReplies, ·⟩))) := by
  refine programs_anyOrder scalarRing ?_ ?_
  · exact List.forall₂_map_left_iff.mpr (List.forall₂_map_right_iff.mpr
      (List.forall₂_same.mpr fun _ _ => ⟨rfl, scalarReplies_sameButOrders⟩))
  · refine ⟨?_, ?_, ?_, ?_, ?_, ?_, ?_, ?_, ?_, trivial⟩
    iterate 8 rintro ⟨⟩
    intro _ _ _ _
    decide +kernel

/-! ## Writing the program and flushing it -/

/-- A recording is open, and in it an output or a group is tagged. -/
def World.RecordingTagged (w : World P M) : Prop :=
  w.epoch.recording = true ∧ ¬ (w.epoch.pendingOutputs = ∅ ∧ w.epoch.pendingMrpGroups = ∅)

instance (w : World P M) : Decidable w.RecordingTagged :=
  inferInstanceAs (Decidable (_ ∧ ¬ (_ ∧ _)))

section

variable {F : Fhetch P M} {env : CompilerReplies P} {w : World P M}

variable (env w) in
/-- Reading the outputs back changes the allocator, and drops the epoch in any case. -/
theorem populate_ends (entries : List (Sigma fun _ : DevAddr => ProbeName)) :
    ∃ s, ((Expected.forEach (populateShadow env) entries >>= fun _ =>
      Expected.modify clearStateLocked : Method P M Unit) w).2 =
        clearStateLocked { w with allocator := s } := by
  -- An output that cannot be stored clears the state at once.
  let Kept : World P M → Prop := fun v => ∃ s, v = { w with allocator := s }
  let Ended : World P M → Prop := fun v => ∃ s, v = clearStateLocked { w with allocator := s }
  have hpopulate : ∀ entry, Expected.Triple Kept (populateShadow env entry : Method P M Unit)
      (fun _ => Kept) (fun _ => Ended) := by
    rintro entry v ⟨s, hv⟩
    unfold populateShadow
    rw [Expected.get_bind_run]
    rcases env.result (capturedOutputs v.compiler) entry.2 with _ | poly
    · exact ⟨s, congrArg clearStateLocked hv⟩
    dsimp only
    rcases env.extractPolynomialValues poly entry.2 with _ | values
    · exact ⟨s, congrArg clearStateLocked hv⟩
    dsimp only
    rw [Expected.attempt_bind_run]
    subst hv
    rcases (onAllocator (DeviceAllocator.updateShadow entry.1 values) _).1 with e | _
    · exact ⟨_, rfl⟩
    · exact ⟨_, rfl⟩
  -- The loop ends in a state that is cleared either way.
  have htriple : Expected.Triple Kept (Expected.forEach (populateShadow env) entries >>= fun _ =>
      Expected.modify clearStateLocked : Method P M Unit) (fun _ => Ended) (fun _ => Ended) := by
    refine Expected.Triple.bind (Expected.Triple.forEach fun entry _ => hpopulate entry) ?_
    rintro _ _ ⟨s, rfl⟩
    exact ⟨s, rfl⟩
  have hrun := htriple w ⟨w.allocator, rfl⟩
  revert hrun
  rcases (Expected.forEach (populateShadow env) entries >>= fun _ =>
    Expected.modify clearStateLocked : Method P M Unit) w with ⟨e | _, v⟩ <;> exact id

/-- After writing the program, as after flushing it, there is nothing left to finalize. -/
theorem finalizations_idle {is : List (Invocation P)}
    (hformat : w.config.unsupportedDataFormat = false) (hrec : w.epoch.recording = false)
    (his : ∀ i ∈ is, i.call.Finalizes) :
    World.runAll F w is = w ∧ World.replies F w is = is.map fun _ => Reply.setError .success := by
  -- Nothing is recorded, so each call succeeds without doing anything.
  have hrun : ∀ i ∈ is, i.run F w = (Reply.setError .success, w) := by
    intro i hi
    have hcall := his i hi
    obtain ⟨env, c⟩ := i
    cases c with
    | flush =>
      refine (hazeFlush_run hformat).trans ?_
      unfold Shim.setInternalResult Shim.replyWith
      rw [finalize_idle true hrec]
    | writeProgram =>
      change Shim.replyWith _ (finalizeLocked F env false) w = _
      unfold Shim.replyWith
      rw [finalize_idle false hrec]
    | _ => exact hcall.elim
  -- By induction on the calls.
  clear his
  induction is with
  | nil => exact ⟨rfl, rfl⟩
  | cons i is ih =>
    have hfirst := hrun i (List.mem_cons_self ..)
    obtain ⟨hstate, hreplies⟩ := ih fun j hj => hrun j (List.mem_cons_of_mem _ hj)
    have hafter : w.after F i = w := congrArg Prod.snd hfirst
    refine ⟨?_, ?_⟩
    · change World.runAll F (w.after F i) is = w
      rw [hafter, hstate]
    · change (i.run F w).1 :: World.replies F (w.after F i) is = _
      rw [hafter, hreplies, hfirst]
      rfl

/-- An entry returns success when its method does. -/
theorem setInternalResult_success {x : Method P M Unit} :
    (Shim.setInternalResult x w).1.code = .success ↔ (x w).1 = .ok () := by
  constructor
  · intro h
    obtain ⟨_, ha⟩ := Shim.replyWith_success h
    exact ha
  · intro h
    unfold Shim.setInternalResult Shim.replyWith
    rcases hx : x w with ⟨e | _, v⟩
    · rw [hx] at h
      cases h
    · rfl

/-- A finalization with a replay, compared with one without. -/
structure Compared (w : World P M)
    (written flushed : Except HazeInternalError Unit × World P M) : Prop where
  succeeds : flushed.1 = .ok () → written.1 = .ok ()
  allocator : written.2.allocator = w.allocator
  config : written.2.config = w.config
  recording : written.2.epoch.recording = false
  state : ∃ s cs, flushed.2 = { written.2 with allocator := s, compiler := cs }
  compiler : ∃ cs ds, written.2.compiler = w.compiler ++ cs ++ ds ∧ flushed.2.compiler =
    w.compiler ++ cs ++ (if w.RecordingTagged ∧ written.1 = .ok () then [.replay] else []) ++ ds

variable (F env) in
/-- Two finalizations from one state compare as `Compared` says. -/
theorem finalizeLocked_compared (hc : w.epoch.Consistent) :
    Compared w (finalizeLocked F env false w) (finalizeLocked F env true w) := by
  -- Without a recording both calls do nothing.
  rcases hrec : w.epoch.recording
  · have htagged : ¬ w.RecordingTagged := fun h => Bool.noConfusion (hrec.symm.trans h.1)
    rw [finalize_idle false hrec, finalize_idle true hrec]
    refine ⟨id, rfl, rfl, hrec, ⟨_, _, rfl⟩, [], [], ?_, ?_⟩
    · simp only [List.append_nil]
    · rw [if_neg fun h => htagged h.1]
      simp only [List.append_nil]
  -- Without a tag both drop what is recorded, and call nothing but the clearing.
  by_cases hpend : w.epoch.pendingOutputs = ∅ ∧ w.epoch.pendingMrpGroups = ∅
  · rw [finalize_drops false hrec hpend, finalize_drops true hrec hpend]
    refine ⟨id, rfl, rfl, rfl, ⟨_, _, rfl⟩, [], [.clearCaptured], ?_, ?_⟩
    · rw [List.append_nil]
      rfl
    · rw [if_neg fun h => h.1.2 hpend, List.append_nil, List.append_nil]
      rfl
  have htagged : w.RecordingTagged := ⟨hrec, hpend⟩
  rw [finalize_run false hc hrec hpend, finalize_run true hc hrec hpend,
    doMaterialize_run (w := { w with compiler := w.compiler ++ tagCalls F env w }) false hrec,
    doMaterialize_run (w := { w with compiler := w.compiler ++ tagCalls F env w }) true hrec]
  -- The two logs, with the part that is different set off.
  have hlog : ∀ cs : List (CompilerCall P M),
      w.compiler ++ tagCalls F env w ++ [.stop] ++ cs ++ [.clearCaptured] =
        w.compiler ++ (tagCalls F env w ++ [.stop]) ++ cs ++ [.clearCaptured] := fun cs =>
    congrArg (· ++ cs ++ [CompilerCall.clearCaptured]) (List.append_assoc ..)
  have hwritten : w.compiler ++ tagCalls F env w ++ [.stop] ++ [.clearCaptured] =
      w.compiler ++ (tagCalls F env w ++ [.stop]) ++ [.clearCaptured] :=
    congrArg (· ++ [CompilerCall.clearCaptured]) (List.append_assoc ..)
  have hnone : w.compiler ++ tagCalls F env w ++ [.stop] ++ [.clearCaptured] =
      w.compiler ++ (tagCalls F env w ++ [.stop]) ++ [] ++ [.clearCaptured] := by
    rw [List.append_nil, hwritten]
  simp only [eq_self, reduceCtorEq, if_true, if_false]
  -- From here on the calls differ only in the replay.
  split_ifs with hstop hflag hreplay
  · refine ⟨id, rfl, rfl, rfl, ⟨_, _, rfl⟩, tagCalls F env w ++ [.stop], [.clearCaptured], ?_, ?_⟩
    · exact hwritten
    · rw [if_neg fun h => nomatch h.2]
      exact hnone
  · refine ⟨id, rfl, rfl, rfl, ⟨_, _, rfl⟩, tagCalls F env w ++ [.stop], [.clearCaptured], ?_, ?_⟩
    · exact hwritten
    · rw [if_neg fun h => nomatch h.2]
      exact hnone
  · refine ⟨fun _ => rfl, rfl, rfl, rfl, ⟨_, _, rfl⟩, tagCalls F env w ++ [.stop],
      [.clearCaptured], ?_, ?_⟩
    · exact hwritten
    · rw [if_pos ⟨htagged, rfl⟩]
      exact hlog [.replay]
  · obtain ⟨s, hs⟩ := populate_ends env { w with
      hookHadError := false
      compiler := w.compiler ++ tagCalls F env w ++ [.stop] ++ [.replay] } (outputs env w)
    refine ⟨fun _ => rfl, rfl, rfl, rfl, ?_, tagCalls F env w ++ [.stop], [.clearCaptured], ?_, ?_⟩
    · exact ⟨s, _, hs⟩
    · exact hwritten
    · rw [if_pos ⟨htagged, rfl⟩]
      exact (congrArg (·.compiler) hs).trans (hlog [.replay])

/-- Writing the program makes the calls that a flush makes before its replay, which a flush asks for
exactly when something is tagged in an open recording and writing it succeeds. It leaves the words
alone, and otherwise the state of a flush. After either there is nothing left to finalize, so that
the outputs of a program that was written are never read back. -/
theorem writeProgram_flush (hw : w.Reachable F) (hformat : w.config.unsupportedDataFormat = false)
    (env : CompilerReplies P) :
    let written := hazeWriteProgram F env w
    let flushed := hazeFlush F env w
    (flushed.1.code = .success → written.1.code = .success) ∧
    written.2.allocator = w.allocator ∧
    (∃ s cs, flushed.2 = { written.2 with allocator := s, compiler := cs }) ∧
    (∃ cs ds, written.2.compiler = w.compiler ++ cs ++ ds ∧ flushed.2.compiler = w.compiler ++ cs ++
      (if w.RecordingTagged ∧ written.1.code = .success then [.replay] else []) ++ ds) ∧
    ∀ is : List (Invocation P), (∀ i ∈ is, i.call.Finalizes) →
      World.runAll F written.2 is = written.2 ∧ World.runAll F flushed.2 is = flushed.2 ∧
      World.replies F written.2 is = is.map (fun _ => Reply.setError .success) ∧
      World.replies F flushed.2 is = is.map (fun _ => Reply.setError .success) := by
  intro written flushed
  -- The format is supported, so the flush finalizes too.
  have hflushed : flushed = Shim.setInternalResult (finalizeLocked F env true) w :=
    hazeFlush_run hformat
  have hcompared := finalizeLocked_compared F env hw.inv.epoch.consistent
  have hwritten : written.1.code = .success ↔ (finalizeLocked F env false w).1 = .ok () :=
    setInternalResult_success
  have hstate : written.2 = (finalizeLocked F env false w).2 := Shim.replyWith_state ..
  have hstate' : flushed.2 = (finalizeLocked F env true w).2 := by
    rw [hflushed]
    exact Shim.replyWith_state ..
  -- The two states differ in the words and in the log.
  obtain ⟨s, cs, hends⟩ := hcompared.state
  have hformat' : written.2.config.unsupportedDataFormat = false := by
    rw [hstate, hcompared.config]
    exact hformat
  have hrec' : written.2.epoch.recording = false := by
    rw [hstate]
    exact hcompared.recording
  rw [← hstate'] at hends
  rw [← hstate] at hends
  have hformat'' : flushed.2.config.unsupportedDataFormat = false := by
    rw [hends]
    exact hformat'
  have hrec'' : flushed.2.epoch.recording = false := by
    rw [hends]
    exact hrec'
  refine ⟨fun h => hwritten.mpr (hcompared.succeeds ?_), ?_, ⟨s, cs, hends⟩, ?_, fun is his => ?_⟩
  · rw [hflushed] at h
    exact setInternalResult_success.mp h
  · rw [hstate]
    exact hcompared.allocator
  · rw [hstate, hstate']
    simp only [hwritten]
    exact hcompared.compiler
  -- After either call nothing is recorded, so further ones do nothing.
  · obtain ⟨hrun, hreplies⟩ := finalizations_idle hformat' hrec' his
    obtain ⟨hrun', hreplies'⟩ := finalizations_idle hformat'' hrec'' his
    exact ⟨hrun, hrun', hreplies, hreplies'⟩

end

/-- A program with one tagged upload, written and flushed. -/
theorem writeProgram_flush_example :
    let written := hazeWriteProgram scalarRing scalarReplies taggedUpload
    let flushed := hazeFlush scalarRing scalarReplies taggedUpload
    (flushed.1.code = .success → written.1.code = .success) ∧
    written.2.allocator = taggedUpload.allocator ∧
    (∃ s cs, flushed.2 = { written.2 with allocator := s, compiler := cs }) ∧
    (∃ cs ds, written.2.compiler = taggedUpload.compiler ++ cs ++ ds ∧
      flushed.2.compiler = taggedUpload.compiler ++ cs ++
        (if taggedUpload.RecordingTagged ∧ written.1.code = .success then [.replay] else []) ++ ds) ∧
    ∀ is : List (Invocation UInt64), (∀ i ∈ is, i.call.Finalizes) →
      World.runAll scalarRing written.2 is = written.2 ∧
      World.runAll scalarRing flushed.2 is = flushed.2 ∧
      World.replies scalarRing written.2 is = is.map (fun _ => Reply.setError .success) ∧
      World.replies scalarRing flushed.2 is = is.map (fun _ => Reply.setError .success) :=
  writeProgram_flush (w := taggedUpload) ⟨_, rfl⟩ (by decide +kernel) scalarReplies

end Haze
