import Haze.Runtime.Flush

/-!
# Failures of the post-recording hook

The hook's failure flag outlives the epoch. A finalization takes it after `stop` succeeded, and
leaves it alone when `stop` failed: a failure of the hook during such a `stop` stays in the flag,
and the next finalization that stops its recording reports it as its own. `hook_attributed` says
that no other call does this.
-/

namespace Haze

variable {P M : Type}

/-- The internal result of a call that finalizes the epoch. -/
def Call.finalized (F : Fhetch P M) (env : CompilerReplies P) (w : World P M) :
    Call → Option (Except HazeInternalError Unit)
  | .flush => some (World.flush F env w).1
  | .writeProgram => some (World.writeProgram F env w).1
  | _ => none

/-- A call that stops the recording: it finalizes an epoch with tagged outputs, and a flush does so
only under a data format that the target supports. -/
def Call.Stops (w : World P M) (c : Call) : Prop :=
  (c = .writeProgram ∨ c = .flush ∧ w.config.unsupportedDataFormat = false) ∧
    w.epoch.recording = true ∧ ¬ (w.epoch.pendingOutputs = ∅ ∧ w.epoch.pendingMrpGroups = ∅)

namespace Invocation

/-- The call asked the compiler to stop, and the compiler did. -/
def Stopped (F : Fhetch P M) (w : World P M) (i : Invocation P) : Prop :=
  i.env.stopSucceeds = true ∧
    ∃ cs, (w.after F i).compiler = w.compiler ++ cs ∧ CompilerCall.stop ∈ cs

/-- A finalization that stopped the recording fails with the hook's failure exactly when the hook
reported one to this call. -/
def Attributed (F : Fhetch P M) (w : World P M) (i : Invocation P) : Prop :=
  ∀ result, i.call.finalized F i.env w = some result → i.Stopped F w →
    (result = .error .bridgeHookFailed ↔ i.env.hookFails = true)

/-- A call whose `stop` fails while the hook reports a failure inside it. -/
def LosesHookFailure (w : World P M) (i : Invocation P) : Prop :=
  i.call.Stops w ∧ i.env.stopSucceeds = false ∧ i.env.hookFails = true

end Invocation

namespace World

section

variable {F : Fhetch P M} (env : CompilerReplies P) {w : World P M}

/-! ## The flag during a finalization -/

/-- Reading outputs back leaves the flag as it is, whether it succeeds or ends the epoch, and it
never reports a failure of the hook. -/
theorem populateShadow_hook (flag : Bool) (entry : Sigma fun _ : DevAddr => ProbeName) :
    Expected.Triple (fun v : World P M => v.hookHadError = flag) (populateShadow env entry)
      (fun _ v => v.hookHadError = flag)
      (fun e v => e ≠ .bridgeHookFailed ∧ v.hookHadError = flag) := by
  intro v hv
  unfold populateShadow
  rw [Expected.get_bind_run]
  rcases env.result (capturedOutputs v.compiler) entry.2 with _ | poly
  · exact ⟨by decide, hv⟩
  dsimp only
  rcases env.extractPolynomialValues poly entry.2 with _ | values
  · exact ⟨by decide, hv⟩
  dsimp only
  rw [Expected.attempt_bind_run, onAllocator, Expected.zoom_run, DeviceAllocator.updateShadow]
  split_ifs
  · exact hv
  · exact ⟨by decide, hv⟩

/-- Where a materialization leaves the flag, and when it reports a failure of the hook. -/
theorem doMaterialize_hook (runReplay : Bool) (hrec : w.epoch.recording = true) :
    (doMaterializeLocked env runReplay w).2.hookHadError =
        (!env.stopSucceeds && (w.hookHadError || env.hookFails)) ∧
      ((doMaterializeLocked env runReplay w).1 = .error .bridgeHookFailed ↔
        env.stopSucceeds = true ∧ (w.hookHadError || env.hookFails) = true) := by
  -- Once the flag has been taken, the outputs neither set it nor report it.
  have hreplayed : ∀ v : World P M, v.hookHadError = false →
      ((Expected.forEach (populateShadow env) (outputs env w) >>= fun _ =>
        Expected.modify clearStateLocked : Method P M Unit) v).2.hookHadError = false ∧
      ((Expected.forEach (populateShadow env) (outputs env w) >>= fun _ =>
        Expected.modify clearStateLocked : Method P M Unit) v).1 ≠ .error .bridgeHookFailed := by
    intro v hv
    have hend : ∀ _ : Unit, Expected.Triple (fun u : World P M => u.hookHadError = false)
        (Expected.modify clearStateLocked) (fun (_ : Unit) u => u.hookHadError = false)
        (fun e u => e ≠ HazeInternalError.bridgeHookFailed ∧ u.hookHadError = false) :=
      fun _ u hu => hu
    have hloop := Expected.Triple.bind (Expected.Triple.forEach
      fun entry (_ : entry ∈ outputs env w) => populateShadow_hook env false entry) hend
    rcases hr : (Expected.forEach (populateShadow env) (outputs env w) >>= fun _ =>
        Expected.modify clearStateLocked : Method P M Unit) v with ⟨e | _, u⟩
    · obtain ⟨he, hu⟩ := hloop.error hv hr
      exact ⟨hu, fun h => he (Except.error.inj h)⟩
    · exact ⟨hloop.ok hv hr, nofun⟩
  rw [doMaterialize_run runReplay hrec]
  -- The failed stop comes before the flag is taken, every other way out after it.
  split_ifs with hstop hhook hrun hreplay
  · rw [hstop]
    exact ⟨rfl, by simp⟩
  · rw [Bool.not_eq_false] at hstop
    rw [hstop]
    exact ⟨rfl, by simp [hhook]⟩
  all_goals rw [Bool.not_eq_false] at hstop
  · rw [hstop]
    exact ⟨rfl, by simp [hhook]⟩
  · rw [hstop]
    exact ⟨rfl, by simp [hhook]⟩
  · obtain ⟨hflag, hresult⟩ := hreplayed { w with
      compiler := w.compiler ++ [.stop] ++ [.replay], hookHadError := false } rfl
    rw [hstop, hflag]
    exact ⟨rfl, fun h => absurd h hresult, fun h => absurd h.2 hhook⟩

/-- A finalization of a recorded epoch with tagged outputs handles the flag as its materialization
does. -/
theorem finalize_hook (runReplay : Bool) (hc : w.epoch.Consistent)
    (hrec : w.epoch.recording = true)
    (hpend : ¬ (w.epoch.pendingOutputs = ∅ ∧ w.epoch.pendingMrpGroups = ∅)) :
    (finalizeLocked F env runReplay w).2.hookHadError =
        (!env.stopSucceeds && (w.hookHadError || env.hookFails)) ∧
      ((finalizeLocked F env runReplay w).1 = .error .bridgeHookFailed ↔
        env.stopSucceeds = true ∧ (w.hookHadError || env.hookFails) = true) := by
  rw [finalize_run runReplay hc hrec hpend]
  exact doMaterialize_hook env (w := { w with compiler := w.compiler ++ tagCalls F env w }) runReplay
    hrec

/-- A materialization of a recorded epoch calls `stop`, whatever happens after. -/
theorem doMaterialize_stops (runReplay : Bool) (hrec : w.epoch.recording = true) :
    ∃ cs, (doMaterializeLocked env runReplay w).2.compiler = w.compiler ++ [.stop] ++ cs := by
  -- After the stop only the replay and the clearing are called.
  let After : World P M → Prop := fun v => ∃ cs, v.compiler = w.compiler ++ [.stop] ++ cs
  have happend : ∀ (v : World P M) cs, After v → After { v with compiler := v.compiler ++ cs } := by
    rintro v cs ⟨ds, hds⟩
    exact ⟨ds ++ cs, by rw [hds, List.append_assoc]⟩
  have hpopulate : ∀ entry, Expected.Triple After (populateShadow env entry : Method P M Unit)
      (fun _ => After) (fun _ => After) := by
    intro entry v hv
    unfold populateShadow
    rw [Expected.get_bind_run]
    rcases env.result (capturedOutputs v.compiler) entry.2 with _ | poly
    · exact happend v [.clearCaptured] hv
    dsimp only
    rcases env.extractPolynomialValues poly entry.2 with _ | values
    · exact happend v [.clearCaptured] hv
    dsimp only
    rw [Expected.attempt_bind_run, onAllocator, Expected.zoom_run]
    rcases (DeviceAllocator.updateShadow entry.1 values v.allocator).1 with e | _
    · exact happend v [.clearCaptured] hv
    · exact hv
  have hend : Expected.Triple After (Expected.modify clearStateLocked : Method P M Unit)
      (fun _ => After) (fun _ => After) := fun v hv => happend v [.clearCaptured] hv
  have hloop := Expected.Triple.bind (Expected.Triple.forEach
    fun entry (_ : entry ∈ outputs env w) => hpopulate entry) fun _ => hend
  rw [doMaterialize_run runReplay hrec]
  -- Four ways out, and then the outputs.
  split_ifs
  · exact ⟨[.clearCaptured], rfl⟩
  · exact ⟨[.clearCaptured], rfl⟩
  · exact ⟨[.clearCaptured], rfl⟩
  · exact ⟨[.replay, .clearCaptured], by simp [clearStateLocked]⟩
  · have hstart : After { w with
        compiler := w.compiler ++ [.stop] ++ [.replay], hookHadError := false } := ⟨[.replay], rfl⟩
    rcases hr : (Expected.forEach (populateShadow env) (outputs env w) >>= fun _ =>
        Expected.modify clearStateLocked : Method P M Unit) { w with
          compiler := w.compiler ++ [.stop] ++ [.replay], hookHadError := false } with ⟨e | _, u⟩
    · exact hloop.error hstart hr
    · exact hloop.ok hstart hr

/-- A finalization of a recorded epoch with tagged outputs calls `stop`. -/
theorem finalize_stops (runReplay : Bool) (hc : w.epoch.Consistent)
    (hrec : w.epoch.recording = true)
    (hpend : ¬ (w.epoch.pendingOutputs = ∅ ∧ w.epoch.pendingMrpGroups = ∅)) :
    ∃ cs, (finalizeLocked F env runReplay w).2.compiler = w.compiler ++ cs ∧
      CompilerCall.stop ∈ cs := by
  rw [finalize_run runReplay hc hrec hpend]
  obtain ⟨cs, hcs⟩ := doMaterialize_stops env
    (w := { w with compiler := w.compiler ++ tagCalls F env w }) runReplay hrec
  exact ⟨tagCalls F env w ++ [.stop] ++ cs, by rw [hcs]; simp, by simp⟩

/-- Any other finalization touches no flag and makes no call but to drop the captures. -/
theorem finalize_stopless (runReplay : Bool) (h : ¬ (w.epoch.recording = true ∧
      ¬ (w.epoch.pendingOutputs = ∅ ∧ w.epoch.pendingMrpGroups = ∅))) :
    (finalizeLocked F env runReplay w).2.hookHadError = w.hookHadError ∧
      ∃ cs, (finalizeLocked F env runReplay w).2.compiler = w.compiler ++ cs ∧
        CompilerCall.stop ∉ cs := by
  by_cases hrec : w.epoch.recording = true
  · rw [finalize_drops runReplay hrec (by_contra fun hpend => h ⟨hrec, hpend⟩)]
    exact ⟨rfl, [.clearCaptured], rfl, by simp⟩
  · rw [finalize_idle runReplay (Bool.eq_false_iff.mpr hrec)]
    exact ⟨rfl, [], (List.append_nil _).symm, List.not_mem_nil⟩

end

/-! ## The flag between the calls -/

/-- Only a finalization and a reset change the flag. -/
theorem hookHadError_act (F : Fhetch P M) (w : World P M) (x : Action P M) :
    (w.act F x).hookHadError = match x with
      | .hook hadError => hadError
      | .reset => false
      | _ => w.hookHadError := by
  cases x with
  | session env =>
    obtain ⟨_, _, _, -, he⟩ := session_frame (F := F) env w
    rw [he]
  | _ => rfl

/-- A call that does not finalize the epoch takes no action on the flag. -/
theorem acts_hook {F : Fhetch P M} {pending : DevAddr → Prop} {c : Call} {hadError : Bool}
    (hflush : c ≠ .flush) (hwrite : c ≠ .writeProgram)
    (h : c.Acts F pending (.hook hadError)) : False := by
  cases c with
  | flush => exact hflush rfl
  | writeProgram => exact hwrite rfl
  | memcpy transfer count => cases transfer <;> exact h.elim
  | memcpyMrp transfer count base => cases transfer <;> exact h.elim
  | config call =>
    obtain ⟨_, hx⟩ := h
    cases hx
  | tagOutput ptr => cases h
  | deviceReset => cases h
  | setRingDimension n => cases h
  | _ => exact h.elim

end World

open World

namespace Invocation

section

variable {F : Fhetch P M} {w : World P M} {i : Invocation P}

/-- A call that stops the recording is a finalization. -/
theorem stops_run (h : i.call.Stops w) : ∃ runReplay,
    w.after F i = (finalizeLocked F i.env runReplay w).2 ∧
      i.call.finalized F i.env w = some (finalizeLocked F i.env runReplay w).1 := by
  obtain ⟨env, call⟩ := i
  obtain ⟨hcall | ⟨hcall, hformat⟩, -⟩ := h <;> dsimp only at hcall <;> subst hcall
  · exact ⟨false, Shim.replyWith_state _ _ w, rfl⟩
  · have hflush : flush F env w = finalizeLocked F env true w := by
      unfold flush
      rw [Expected.get_bind_run, hformat]
      rfl
    refine ⟨true, (Shim.replyWith_state _ _ w).trans (congrArg _ hflush), ?_⟩
    exact congrArg (fun r => some r.1) hflush

/-- What a call that stops the recording returns, and where it leaves the flag. -/
theorem stops_hook (hc : w.epoch.Consistent) (h : i.call.Stops w) :
    (w.after F i).hookHadError =
        (!i.env.stopSucceeds && (w.hookHadError || i.env.hookFails)) ∧
      ∀ result, i.call.finalized F i.env w = some result → (result = .error .bridgeHookFailed ↔
        i.env.stopSucceeds = true ∧ (w.hookHadError || i.env.hookFails) = true) := by
  obtain ⟨runReplay, hafter, hresult⟩ := stops_run (F := F) h
  obtain ⟨hflag, hreported⟩ := finalize_hook (F := F) i.env runReplay hc h.2.1 h.2.2
  rw [hafter, hresult]
  refine ⟨hflag, fun result hr => ?_⟩
  rw [← Option.some.inj hr]
  exact hreported

/-- A call that stops the recording, when `stop` succeeds. -/
theorem stopped_of_stops (hc : w.epoch.Consistent) (h : i.call.Stops w)
    (hstop : i.env.stopSucceeds = true) : i.Stopped F w := by
  obtain ⟨runReplay, hafter, -⟩ := stops_run (F := F) h
  obtain ⟨cs, hcs, hmem⟩ := finalize_stops (F := F) i.env runReplay hc h.2.1 h.2.2
  exact ⟨hstop, cs, hafter ▸ hcs, hmem⟩

/-- Another call that finalizes the epoch leaves the flag alone and does not stop. -/
theorem stopless_hook (hcall : i.call = .flush ∨ i.call = .writeProgram)
    (h : ¬ i.call.Stops w) :
    (w.after F i).hookHadError = w.hookHadError ∧
      ∃ cs, (w.after F i).compiler = w.compiler ++ cs ∧ CompilerCall.stop ∉ cs := by
  obtain ⟨env, call⟩ := i
  -- Without a stop the call is refused, or there is nothing tagged.
  rcases hcall with hcall | hcall <;> dsimp only at hcall <;> subst hcall
  · by_cases hformat : w.config.unsupportedDataFormat = true
    · have hfail : w.after F ⟨env, .flush⟩ = w := by
        refine (Shim.replyWith_state _ _ w).trans ?_
        unfold flush
        rw [Expected.get_bind_run, hformat]
        rfl
      rw [hfail]
      exact ⟨rfl, [], (List.append_nil _).symm, List.not_mem_nil⟩
    · rw [Bool.not_eq_true] at hformat
      have hflush : w.after F ⟨env, .flush⟩ = (finalizeLocked F env true w).2 := by
        change (hazeFlush F env w).2 = _
        rw [hazeFlush_run hformat]
        exact Shim.replyWith_state _ _ w
      rw [hflush]
      exact finalize_stopless env true fun hr => h ⟨.inr ⟨rfl, hformat⟩, hr⟩
  · have hwrite : w.after F ⟨env, .writeProgram⟩ = (finalizeLocked F env false w).2 :=
      Shim.replyWith_state _ _ w
    rw [hwrite]
    exact finalize_stopless env false fun hr => h ⟨.inl rfl, hr⟩

/-- A call leaves the flag clear where it was, unless it loses a failure of the hook. -/
theorem hookHadError_clear (hc : w.epoch.Consistent) (hflag : w.hookHadError = false)
    (h : ¬ i.LosesHookFailure w) : (w.after F i).hookHadError = false := by
  by_cases hstops : i.call.Stops w
  · rw [(stops_hook hc hstops).1, hflag, Bool.false_or]
    -- Either `stop` succeeded and the flag was taken, or the hook reported nothing to it.
    rcases hstop : i.env.stopSucceeds
    · rw [Bool.eq_false_iff.mpr fun hfails => h ⟨hstops, hstop, hfails⟩]
      rfl
    · rfl
  by_cases hcall : i.call = .flush ∨ i.call = .writeProgram
  · exact (stopless_hook hcall hstops).1.trans hflag
  rw [not_or] at hcall
  refine (Call.performs i.env i.call w).preserves (I := fun w => w.hookHadError = false)
    (fun v x hx hv => ?_) hflag
  rw [hookHadError_act]
  cases x with
  | hook hadError => exact (acts_hook hcall.1 hcall.2 hx.1).elim
  | reset => rfl
  | _ => exact hv

/-- The failures of the hook are attributed where the flag is clear before the call. -/
theorem attributed_of_clear (hc : w.epoch.Consistent) (hflag : w.hookHadError = false) :
    i.Attributed F w := by
  intro result hresult ⟨hstop, cs, hcs, hmem⟩
  by_cases hstops : i.call.Stops w
  · rw [(stops_hook hc hstops).2 result hresult, hflag, Bool.false_or]
    exact and_iff_right hstop
  have hcall : i.call = .flush ∨ i.call = .writeProgram := by
    cases hi : i.call <;> rw [hi] at hresult <;>
      first | exact .inl rfl | exact .inr rfl | cases hresult
  -- A finalization that is not one of these makes no call to `stop`.
  obtain ⟨-, ds, hds, hnot⟩ := stopless_hook (F := F) hcall hstops
  rw [hds] at hcs
  exact absurd (List.append_cancel_left hcs ▸ hmem) hnot

end

end Invocation

/-- In a program without a finalization whose `stop` fails while the hook reports a failure, every
finalization that stopped its recording fails with the hook's failure exactly when the hook reported
one to that call, and so does every finalization after the program. -/
theorem hook_attributed (F : Fhetch P M) (is : List (Invocation P))
    (h : Expected.Along (World.after F) (fun w i => ¬ i.LosesHookFailure w) .init is) :
    Expected.Along (World.after F) (fun w i => i.Attributed F w) .init is ∧
      ∀ i : Invocation P, i.Attributed F (World.runAll F .init is) := by
  let Clear : World P M → Prop := fun w => w.Inv ∧ w.hookHadError = false
  have hstep : ∀ (w : World P M) (i : Invocation P), ¬ i.LosesHookFailure w → Clear w →
      Clear (w.after F i) := fun w i hi hw =>
    ⟨hw.1.after i, i.hookHadError_clear hw.1.epoch.consistent hw.2 hi⟩
  have hattributed : ∀ (w : World P M) (i : Invocation P), Clear w → i.Attributed F w :=
    fun w i hw => i.attributed_of_clear hw.1.epoch.consistent hw.2
  have hinit : Clear .init := ⟨inv_init, rfl⟩
  exact ⟨h.mono_of_invariant hstep (fun w i hw _ => hattributed w i hw) hinit,
    fun i => hattributed _ i (h.invariant hstep hinit)⟩

/-- A tagged upload flushed while the hook fails, and then uploaded and tagged again. -/
def reportedFailure : List (Invocation UInt64) :=
  scalarProgram [.setRingDimension 1, .malloc true 8, uploadFive, .tagOutput ⟨kHbmBase⟩] ++
    [⟨{ scalarReplies with hookFails := true }, .flush⟩] ++
    scalarProgram [uploadFive, .tagOutput ⟨kHbmBase⟩]

/-- The failure is reported by the flush that it comes up in, and by no later call. -/
theorem hook_attributed_example :
    Expected.Along (World.after scalarRing) (fun w (i : Invocation UInt64) =>
        i.Attributed scalarRing w) .init reportedFailure ∧
      ∀ i : Invocation UInt64,
        i.Attributed scalarRing (World.runAll scalarRing .init reportedFailure) := by
  refine hook_attributed scalarRing reportedFailure ?_
  unfold reportedFailure scalarProgram
  -- Only the flush stops, and its `stop` succeeds.
  simp [Expected.Along, Invocation.LosesHookFailure, scalarReplies]

/-- The flush after a failed `stop` fails with the failure that the hook reported to that one, and
the hook reports none to it. -/
theorem hook_attributed_counterexample :
    staleFailure.Reachable scalarRing ∧
      ¬ (⟨scalarReplies, .flush⟩ : Invocation UInt64).Attributed scalarRing staleFailure := by
  have hreach : staleFailure.Reachable scalarRing := ⟨_, rfl⟩
  refine ⟨hreach, fun h => ?_⟩
  have hc := hreach.inv.epoch.consistent
  have hstops : Call.flush.Stops staleFailure :=
    ⟨.inr ⟨rfl, by decide +kernel⟩, by decide +kernel, by decide +kernel⟩
  have hstopped : (⟨scalarReplies, .flush⟩ : Invocation UInt64).Stopped scalarRing staleFailure :=
    Invocation.stopped_of_stops hc hstops rfl
  have hreported := (Invocation.stops_hook (F := scalarRing)
    (i := ⟨scalarReplies, .flush⟩) hc hstops).2 _ rfl
  have hflag : staleFailure.hookHadError = true := by decide +kernel
  have hfails := (h _ rfl hstopped).mp (hreported.mpr ⟨rfl, by rw [hflag]; rfl⟩)
  exact Bool.noConfusion hfails

end Haze
