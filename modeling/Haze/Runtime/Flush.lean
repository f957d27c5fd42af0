import Haze.Core.ScalarRing
import Haze.Runtime.Finalize

/-!
# Materializing the outputs

A finalization with tagged outputs goes through the compiler's steps in order, and reads each output
back under its own name. `doMaterialize_run` says where it ends, `finalize_ok` what a successful one
leaves. `flush_materializes` says when a flush whose own steps all succeed does succeed: the hook's
failure flag must be clear, which an earlier flush whose trace could not be written may have left
set.
-/

namespace Haze

variable {P M : Type}

namespace World

section Populate

variable (env : CompilerReplies P)

/-- The values read back under the name of an output, when `outs` were captured. -/
def decoded (outs : List (ProbeName × P)) (entry : Sigma fun _ : DevAddr => ProbeName) :
    Option (List UInt64) :=
  (env.result outs entry.2).bind fun poly => env.extractPolynomialValues poly entry.2

/-- The words of one output replaced by the values read back. -/
def populate (outs : List (ProbeName × P)) (s : DeviceAllocator)
    (entry : Sigma fun _ : DevAddr => ProbeName) : DeviceAllocator :=
  let values := (decoded env outs entry).getD []
  { s with shadowData := AList.insert entry.1 (values.takeD s.wantElems 0) s.shadowData }

/-- The words of every output replaced, one after the other. -/
def populated (outs : List (ProbeName × P)) (entries : List (Sigma fun _ : DevAddr => ProbeName))
    (s : DeviceAllocator) : DeviceAllocator :=
  entries.foldl (populate env outs) s

/-- The pending outputs' names with the polynomials bound to their addresses. -/
def taggedOutputs (w : World P M) : List (ProbeName × P) :=
  (outputs env w).filterMap fun entry => (w.binding entry.1).map (entry.2, ·)

variable {env} {outs : List (ProbeName × P)}

/-- Populating one output succeeds when its values are read back and its address is live. -/
theorem populateShadow_ok {entry : Sigma fun _ : DevAddr => ProbeName} {w w' : World P M}
    (hw : capturedOutputs w.compiler = outs) :
    populateShadow env entry w = (.ok (), w') ↔
      (decoded env outs entry).isSome ∧ entry.1 ∈ w.allocator.allocSet ∧
        w' = { w with allocator := populate env outs w.allocator entry } := by
  unfold populateShadow populate decoded
  rw [Expected.get_bind_run, hw]
  rcases env.result outs entry.2 with _ | poly
  · simp [abortEpoch]
  dsimp only [Option.bind_some]
  rcases env.extractPolynomialValues poly entry.2 with _ | values
  · simp [abortEpoch]
  dsimp only
  rw [Expected.attempt_bind_run, onAllocator, Expected.zoom_run, DeviceAllocator.updateShadow]
  split_ifs with hlive
  · simp [hlive, eq_comm]
  · simp [hlive, abortEpoch]

/-- Populating changes words alone. -/
theorem populated_frame (entries : List (Sigma fun _ : DevAddr => ProbeName)) (s : DeviceAllocator) :
    populated env outs entries s =
      { s with shadowData := (populated env outs entries s).shadowData } := by
  induction entries generalizing s with
  | nil => rfl
  | cons entry entries ih => exact ih (populate env outs s entry)

/-- Populating the outputs succeeds when it does for each. -/
theorem forEach_populateShadow_ok {entries : List (Sigma fun _ : DevAddr => ProbeName)}
    {w w' : World P M} (hw : capturedOutputs w.compiler = outs) :
    Expected.forEach (populateShadow env) entries w = (.ok (), w') ↔
      (∀ entry ∈ entries, (decoded env outs entry).isSome ∧ entry.1 ∈ w.allocator.allocSet) ∧
        w' = { w with allocator := populated env outs entries w.allocator } := by
  -- By induction on the outputs; the captures are the same throughout.
  induction entries generalizing w with
  | nil =>
    constructor
    · intro h
      cases h
      exact ⟨fun e he => absurd he List.not_mem_nil, rfl⟩
    · rintro ⟨-, rfl⟩
      rfl
  | cons entry entries ih =>
    have ih := ih (w := { w with allocator := populate env outs w.allocator entry }) hw
    rw [Expected.forEach_cons, Expected.bind_eq_ok]
    constructor
    · rintro ⟨_, w₁, h₁, h⟩
      obtain ⟨hd, hlive, rfl⟩ := (populateShadow_ok hw).mp h₁
      obtain ⟨hrest, rfl⟩ := ih.mp h
      refine ⟨fun e he => ?_, rfl⟩
      rcases List.mem_cons.mp he with rfl | he
      · exact ⟨hd, hlive⟩
      · exact hrest e he
    · rintro ⟨hall, rfl⟩
      obtain ⟨hd, hlive⟩ := hall entry (List.mem_cons_self ..)
      refine ⟨(), _, (populateShadow_ok hw).mpr ⟨hd, hlive, rfl⟩, ih.mpr ⟨fun e he => ?_, rfl⟩⟩
      exact hall e (List.mem_cons_of_mem _ he)

/-- An address that is no output keeps its words. -/
theorem shadow_populated_of_notMem {entries : List (Sigma fun _ : DevAddr => ProbeName)}
    {s : DeviceAllocator} {a : DevAddr} (ha : ∀ entry ∈ entries, a ≠ entry.1) :
    (populated env outs entries s).shadow a = s.shadow a := by
  induction entries generalizing s with
  | nil => rfl
  | cons entry entries ih =>
    refine (ih fun e he => ha e (List.mem_cons_of_mem _ he)).trans ?_
    exact UMap.lookup_insert_ite.trans (if_neg (ha entry (List.mem_cons_self ..)))

/-- An output has the values that were read back under its name. -/
theorem shadow_populated_of_mem {entries : List (Sigma fun _ : DevAddr => ProbeName)}
    {s : DeviceAllocator} (hnodup : (entries.map Sigma.fst).Nodup)
    {entry : Sigma fun _ : DevAddr => ProbeName} (hentry : entry ∈ entries) :
    (populated env outs entries s).shadow entry.1 =
      some (((decoded env outs entry).getD []).takeD s.wantElems 0) := by
  induction entries generalizing s with
  | nil => exact absurd hentry List.not_mem_nil
  | cons e entries ih =>
    rw [List.map_cons, List.nodup_cons] at hnodup
    rcases List.mem_cons.mp hentry with rfl | hentry
    · change (populated env outs entries (populate env outs s entry)).shadow entry.1 = _
      have hother : ∀ e' ∈ entries, entry.1 ≠ e'.1 := fun e' he' heq =>
        hnodup.1 (List.mem_map.mpr ⟨e', he', heq.symm⟩)
      rw [shadow_populated_of_notMem hother]
      exact AList.lookup_insert _
    · exact ih hnodup.2 hentry

end Populate

section Run

variable {F : Fhetch P M} {env : CompilerReplies P} {w : World P M}

/-- An address has one output at most. -/
theorem outputs_keys_nodup (env : CompilerReplies P) (w : World P M) :
    ((outputs env w).map Sigma.fst).Nodup :=
  ((env.outputOrder.perm w.epoch.pendingOutputs.entries).map Sigma.fst).nodup_iff.mpr
    (AList.keys_nodup w.epoch.pendingOutputs)

/-- What is captured when the outputs were tagged. -/
theorem captured_tagCalls (h : capturedOutputs w.compiler = []) :
    capturedOutputs (w.compiler ++ tagCalls F env w) = taggedOutputs env w := by
  -- Each output that is bound is captured under its name.
  have houtputs : ∀ (entries : List (Sigma fun _ : DevAddr => ProbeName)) (outs : List (ProbeName × P)),
      (entries.filterMap (outputCall (M := M) w.epoch)).foldl CompilerCall.capture outs =
        outs ++ entries.filterMap fun entry => (w.binding entry.1).map (entry.2, ·) := by
    intro entries
    induction entries with
    | nil => exact fun outs => (List.append_nil outs).symm
    | cons entry entries ih =>
      intro outs
      unfold binding at ih ⊢
      rcases hp : AList.lookup entry.1 w.epoch.polyMap with _ | poly
      · rw [List.filterMap_cons_none (by rw [outputCall, hp, Option.map_none]), ih,
          List.filterMap_cons_none (by rw [hp, Option.map_none])]
      · rw [List.filterMap_cons_some (by rw [outputCall, hp, Option.map_some]), List.foldl_cons, ih,
          List.filterMap_cons_some (by rw [hp, Option.map_some]), CompilerCall.capture,
          List.append_assoc, List.singleton_append]
  -- A group's call captures nothing.
  have hgroups : ∀ names : List ProbeName, Quiet (names.filterMap (groupCall F w.epoch)) := by
    intro names outs
    induction names with
    | nil => rfl
    | cons name names ih =>
      rcases hg : AList.lookup name w.epoch.knownMrpGroups with _ | group
      · rw [List.filterMap_cons_none (by rw [groupCall, hg, Option.map_none])]
        exact ih
      · rw [List.filterMap_cons_some (by rw [groupCall, hg, Option.map_some])]
        exact ih
  rw [capturedOutputs_append, h, tagCalls, List.foldl_append, hgroups]
  exact houtputs _ []

/-- The names of the pending outputs are distinct. -/
theorem outputs_names_nodup (env : CompilerReplies P) (h : w.epoch.Valid) :
    ((outputs env w).map Sigma.snd).Nodup := by
  refine List.Nodup.map_on (fun e he e' he' heq => ?_) (List.Nodup.of_map _ (outputs_keys_nodup env w))
  have hl := mem_outputs.mp he
  have hl' := mem_outputs.mp he'
  rw [← heq] at hl'
  exact Sigma.ext (h.outputsNamed.injective _ _ _ hl hl') (heq_of_eq heq)

/-- The names of the captured outputs are distinct. -/
theorem taggedOutputs_nodup (h : w.epoch.Valid) :
    ((taggedOutputs env w).map Prod.fst).Nodup := by
  have hmap : (taggedOutputs env w).map Prod.fst = (outputs env w).map Sigma.snd := by
    have hbound : ∀ entry ∈ outputs env w, entry.1 ∈ w.epoch.polyMap := fun entry he =>
      h.consistent.pending_bound entry.1 (UMap.mem_of_lookup (mem_outputs.mp he))
    unfold taggedOutputs
    generalize outputs env w = entries at hbound
    induction entries with
    | nil => rfl
    | cons entry entries ih =>
      obtain ⟨poly, hp⟩ := UMap.mem_iff_lookup.mp (hbound entry (List.mem_cons_self ..))
      rw [List.filterMap_cons_some (by rw [binding, hp, Option.map_some]), List.map_cons,
        ih fun e he => hbound e (List.mem_cons_of_mem _ he), List.map_cons]
  rw [hmap]
  exact outputs_names_nodup env h

/-- A pending output that is bound is tagged with its polynomial. -/
theorem mem_taggedOutputs {a : DevAddr} {name : ProbeName} {poly : P}
    (ha : AList.lookup a w.epoch.pendingOutputs = some name) (hp : w.binding a = some poly) :
    (name, poly) ∈ taggedOutputs env w :=
  List.mem_filterMap.mpr ⟨⟨a, name⟩, mem_outputs.mpr ha, by rw [hp, Option.map_some]⟩

/-- The state that the trace was written in. -/
def stopped (env : CompilerReplies P) (w : World P M) : World P M :=
  { w with compiler := w.compiler ++ [.stop], hookHadError := w.hookHadError || env.hookFails }

/-- The steps of a materialization. -/
theorem doMaterialize_run (runReplay : Bool) (hrec : w.epoch.recording = true) :
    doMaterializeLocked env runReplay w =
      if env.stopSucceeds = false then
        (.error .backendReplayFailed, clearStateLocked (stopped env w))
      else if (w.hookHadError || env.hookFails) = true then
        (.error .bridgeHookFailed, clearStateLocked { stopped env w with hookHadError := false })
      else if runReplay = false then
        (.ok (), clearStateLocked { stopped env w with hookHadError := false })
      else if env.replaySucceeds = false then
        (.error .backendReplayFailed, clearStateLocked { w with
          compiler := w.compiler ++ [.stop] ++ [.replay], hookHadError := false })
      else
        (Expected.forEach (populateShadow env) (outputs env w) >>= fun _ =>
          Expected.modify clearStateLocked : Method P M Unit) { w with
            compiler := w.compiler ++ [.stop] ++ [.replay], hookHadError := false } := by
  -- The stop and the hook's flag are taken first, in this order.
  have hstop : stopEpoch env w = (.ok env.stopSucceeds, stopped env w) := rfl
  have htake : takeHookHadError (stopped env w) =
      (.ok (w.hookHadError || env.hookFails), { stopped env w with hookHadError := false }) := rfl
  unfold doMaterializeLocked
  rw [Expected.get_bind_run, hrec]
  change (stopEpoch env >>= _ : Method P M Unit) w = _
  rw [Expected.bind_run_ok hstop]
  rcases env.stopSucceeds
  · rfl
  change (takeHookHadError >>= _ : Method P M Unit) (stopped env w) = _
  rw [Expected.bind_run_ok htake]
  -- The flag is looked at before the replay is.
  rcases w.hookHadError || env.hookFails
  · rcases runReplay
    · rfl
    change (replay env >>= _ : Method P M Unit) _ = _
    unfold replay
    rcases env.replaySucceeds <;> rfl
  · rfl

/-- A finalization without a recording does nothing. -/
theorem finalize_idle (runReplay : Bool) (hrec : w.epoch.recording = false) :
    finalizeLocked F env runReplay w = (.ok (), w) := by
  unfold finalizeLocked
  rw [Expected.get_bind_run, hrec]
  rfl

/-- A finalization without tagged outputs only drops the epoch. -/
theorem finalize_drops (runReplay : Bool) (hrec : w.epoch.recording = true)
    (hpend : w.epoch.pendingOutputs = ∅ ∧ w.epoch.pendingMrpGroups = ∅) :
    finalizeLocked F env runReplay w = (.ok (), clearStateLocked w) := by
  unfold finalizeLocked
  rw [Expected.get_bind_run, hrec, if_pos hpend]
  rfl

/-- A finalization with tagged outputs tags them and materializes. -/
theorem finalize_run (runReplay : Bool) (hc : w.epoch.Consistent) (hrec : w.epoch.recording = true)
    (hpend : ¬ (w.epoch.pendingOutputs = ∅ ∧ w.epoch.pendingMrpGroups = ∅)) :
    finalizeLocked F env runReplay w = doMaterializeLocked env runReplay
      { w with compiler := w.compiler ++ tagCalls F env w } := by
  unfold finalizeLocked
  rw [Expected.get_bind_run, hrec, if_neg hpend]
  exact Expected.bind_run_ok (tagPendingOutputs_run env hc)

/-- What a finalization with a replay that succeeds leaves of a recorded epoch: the words of the
outputs are what was read back for them, and nothing else of the allocator changed. -/
theorem finalize_ok {w' : World P M} (hc : w.epoch.Consistent)
    (hcap : capturedOutputs w.compiler = []) (hrec : w.epoch.recording = true)
    (h : finalizeLocked F env true w = (.ok (), w')) :
    (∀ entry ∈ outputs env w, (decoded env (taggedOutputs env w) entry).isSome ∧
        entry.1 ∈ w.allocator.allocSet) ∧
      w'.allocator = populated env (taggedOutputs env w) (outputs env w) w.allocator ∧
      w'.epoch = .init ∧ w'.config = w.config ∧ w'.initialized = w.initialized := by
  -- Nothing is tagged, and so there is no output.
  by_cases hpend : w.epoch.pendingOutputs = ∅ ∧ w.epoch.pendingMrpGroups = ∅
  · rw [finalize_drops true hrec hpend] at h
    cases h
    have hnone : outputs env w = [] := by
      rw [outputs, hpend.1]
      exact List.perm_nil.mp (env.outputOrder.perm [])
    rw [hnone]
    exact ⟨fun e he => absurd he List.not_mem_nil, rfl, rfl, rfl, rfl⟩
  rw [finalize_run true hc hrec hpend, doMaterialize_run
    (w := { w with compiler := w.compiler ++ tagCalls F env w }) true hrec] at h
  -- Every stage that fails is excluded by the success.
  split_ifs at h with hstop hflag hfalse hreplay
  · cases h
  · cases h
  · exact hfalse.elim
  · cases h
  obtain ⟨_, v, hpop, h⟩ := Expected.bind_eq_ok.mp h
  cases h
  have hcap' : capturedOutputs (w.compiler ++ tagCalls F env w ++ [.stop] ++ [.replay]) =
      taggedOutputs env w := by
    rw [capturedOutputs_append, capturedOutputs_append]
    exact captured_tagCalls hcap
  obtain ⟨hall, rfl⟩ := (forEach_populateShadow_ok hcap').mp hpop
  exact ⟨hall, rfl, rfl, rfl, rfl⟩

end Run

end World

open World

/-- A flush whose own steps all succeed: outputs are tagged at live addresses, the target supports
the data format, the trace is written without a failure of the hook, the replay succeeds, and under
each tagged name the values `value` of its polynomial are read back, a word for each component. -/
structure FlushReady (F : Fhetch P M) (env : CompilerReplies P) (value : ProbeName → P → List UInt64)
    (w : World P M) : Prop where
  recording : w.epoch.recording = true
  pending : w.epoch.pendingOutputs ≠ ∅
  live : ∀ a ∈ w.epoch.pendingOutputs, a ∈ w.allocator.allocSet
  format : w.config.unsupportedDataFormat = false
  stop : env.stopSucceeds = true
  hook : env.hookFails = false
  replay : env.replaySucceeds = true
  values : ∀ output ∈ taggedOutputs env w, ∃ poly,
    env.result (taggedOutputs env w) output.1 = some poly ∧
    env.extractPolynomialValues poly output.1 = some (value output.1 output.2) ∧
    (value output.1 output.2).length = w.allocator.wantElems

/-- A flush materializes exactly the tagged outputs: it succeeds, the words of each pending address
become the values of the polynomial that it is bound to, read back under its own name, and otherwise
only the epoch changes, which is as at start. -/
structure Materializes (value : ProbeName → P → List UInt64) (w : World P M)
    (r : Reply × World P M) : Prop where
  succeeds : r.1.code = .success
  outputs : ∀ a name, AList.lookup a w.epoch.pendingOutputs = some name →
    ∃ poly, w.binding a = some poly ∧ r.2.shadow a = some (value name poly)
  others : ∀ a ∉ w.epoch.pendingOutputs, r.2.shadow a = w.shadow a
  allocSet : r.2.allocator.allocSet = w.allocator.allocSet
  poolFree : r.2.allocator.poolFree = w.allocator.poolFree
  nextAddr : r.2.allocator.nextAddr = w.allocator.nextAddr
  polyBytes : r.2.allocator.polyBytes = w.allocator.polyBytes
  config : r.2.config = w.config
  epoch : r.2.epoch = .init

section

variable {F : Fhetch P M} {env : CompilerReplies P} {w : World P M}
  {value : ProbeName → P → List UInt64}

/-- With a supported data format a flush is a finalization with a replay. -/
theorem hazeFlush_run (hformat : w.config.unsupportedDataFormat = false) :
    hazeFlush F env w = Shim.setInternalResult (finalizeLocked F env true) w := by
  have : flush F env w = finalizeLocked F env true w := by
    unfold flush
    rw [Expected.get_bind_run, hformat]
    rfl
  unfold hazeFlush Shim.setInternalResult Shim.replyWith
  rw [this]

/-- A flush that is ready and finds the hook's flag clear succeeds. -/
theorem FlushReady.finalize (hw : w.Reachable F) (h : FlushReady F env value w)
    (hflag : w.hookHadError = false) : ∃ w', finalizeLocked F env true w = (.ok (), w') := by
  have hc := hw.inv.epoch.consistent
  -- Something is tagged, so the finalization goes all the way.
  have hpend : ¬ (w.epoch.pendingOutputs = ∅ ∧ w.epoch.pendingMrpGroups = ∅) := fun hp =>
    h.pending hp.1
  rw [finalize_run true hc h.recording hpend,
    doMaterialize_run (w := { w with compiler := w.compiler ++ tagCalls F env w }) true h.recording,
    h.stop, h.replay, h.hook]
  dsimp only
  rw [hflag]
  -- Every capture is an output that is bound now.
  have hcap : capturedOutputs (w.compiler ++ tagCalls F env w ++ [.stop] ++ [.replay]) =
      taggedOutputs env w := by
    rw [capturedOutputs_append, capturedOutputs_append]
    exact captured_tagCalls hw.captured
  have hready : ∀ entry ∈ World.outputs env w,
      (decoded env (taggedOutputs env w) entry).isSome ∧ entry.1 ∈ w.allocator.allocSet := ?_
  · exact ⟨_, Expected.bind_run_ok ((forEach_populateShadow_ok (w := { w with
      compiler := w.compiler ++ tagCalls F env w ++ [.stop] ++ [.replay]
      hookHadError := false }) hcap).mpr ⟨hready, rfl⟩)⟩
  -- An output is bound, its result is there, and its values can be extracted.
  intro entry he
  have hname := mem_outputs.mp he
  refine ⟨?_, h.live entry.1 (UMap.mem_of_lookup hname)⟩
  obtain ⟨poly, hp⟩ := UMap.mem_iff_lookup.mp (hc.pending_bound entry.1 (UMap.mem_of_lookup hname))
  obtain ⟨result, hr, hv, -⟩ := h.values (entry.2, poly) (mem_taggedOutputs hname hp)
  rw [decoded, hr, Option.bind_some, hv]
  rfl

/-- A list of the right length is not cut and not padded. -/
theorem takeD_length_self {n : ℕ} {values : List UInt64} (h : values.length = n) :
    values.takeD n 0 = values := by
  rw [← h, List.takeD_eq_take 0 (Nat.le_refl _), List.take_length]

/-- A flush whose own steps all succeed materializes the tagged outputs exactly when no earlier
failure of the hook was left to be reported. -/
theorem flush_materializes (hw : w.Reachable F) (h : FlushReady F env value w) :
    Materializes value w (hazeFlush F env w) ↔ w.hookHadError = false := by
  have hc := hw.inv.epoch.consistent
  have hpend : ¬ (w.epoch.pendingOutputs = ∅ ∧ w.epoch.pendingMrpGroups = ∅) := fun hp =>
    h.pending hp.1
  rw [hazeFlush_run h.format]
  constructor
  -- With the flag set the finalization fails, whatever the backend answers.
  · intro hm
    by_contra hflag
    have hfails := hm.succeeds
    unfold Shim.setInternalResult Shim.replyWith at hfails
    rw [finalize_run true hc h.recording hpend,
      doMaterialize_run (w := { w with compiler := w.compiler ++ tagCalls F env w }) true h.recording,
      h.stop] at hfails
    dsimp only at hfails
    rw [Bool.not_eq_false] at hflag
    rw [hflag] at hfails
    exact HazeError.noConfusion hfails
  intro hflag
  obtain ⟨w', hok⟩ := h.finalize hw hflag
  obtain ⟨-, hallocator, hepoch, hconfig, -⟩ := finalize_ok hc hw.captured h.recording hok
  have hframe : populated env (taggedOutputs env w) (World.outputs env w) w.allocator = _ :=
    populated_frame _ _
  unfold Shim.setInternalResult Shim.replyWith
  rw [hok]
  refine ⟨rfl, fun a name ha => ?_, fun a ha => ?_, ?_, ?_, ?_, ?_, hconfig, hepoch⟩
  -- A tagged output has the words of its result.
  · obtain ⟨poly, hp⟩ := UMap.mem_iff_lookup.mp (hc.pending_bound a (UMap.mem_of_lookup ha))
    obtain ⟨result, hr, hv, hl⟩ := h.values (name, poly) (mem_taggedOutputs ha hp)
    refine ⟨poly, hp, ?_⟩
    change w'.allocator.shadow a = _
    have hmem : (⟨a, name⟩ : Sigma fun _ : DevAddr => ProbeName) ∈ World.outputs env w :=
      mem_outputs.mpr ha
    rw [hallocator, shadow_populated_of_mem (outputs_keys_nodup env w) hmem, decoded, hr,
      Option.bind_some, hv, Option.getD_some, takeD_length_self hl]
  -- Any other address keeps its words.
  · change w'.allocator.shadow a = _
    rw [hallocator, shadow_populated_of_notMem fun entry he heq => ha ?_]
    · rfl
    · exact heq ▸ UMap.mem_of_lookup (mem_outputs.mp he)
  all_goals
    dsimp only
    rw [hallocator, hframe]

end

/-! ## A failure left by an earlier flush -/

/-- The values of a polynomial at ring dimension one. -/
def scalarValue (_ : ProbeName) (x : UInt64) : List UInt64 := [x]

/-- The checks that make a flush ready at ring dimension one. -/
theorem FlushReady.scalar {w : World UInt64 (List (UInt64 × UInt64))}
    (hrec : w.epoch.recording = true) (hformat : w.config.unsupportedDataFormat = false)
    (hpend : w.epoch.pendingOutputs.keys ≠ [])
    (hlive : ∀ a ∈ w.epoch.pendingOutputs.keys, a ∈ w.allocator.allocSet)
    (hvalues : ∀ output ∈ taggedOutputs scalarReplies w,
      scalarReplies.result (taggedOutputs scalarReplies w) output.1 = some output.2)
    (hsize : w.allocator.wantElems = 1) : FlushReady scalarRing scalarReplies scalarValue w where
  recording := hrec
  pending h := hpend (congrArg AList.keys h)
  live a ha := hlive a (AList.mem_keys.mp ha)
  format := hformat
  stop := rfl
  hook := rfl
  replay := rfl
  values output ho := ⟨output.2, hvalues output ho, rfl, hsize.symm⟩

/-- An upload of five to the first address. -/
def uploadFive : Call := .memcpy (.hostToDevice ⟨kHbmBase⟩ (some [5, 0, 0, 0, 0, 0, 0, 0])) 8

/-- A tagged upload. -/
def taggedUpload : World UInt64 (List (UInt64 × UInt64)) :=
  .runAll scalarRing .init
    (scalarProgram [.setRingDimension 1, .malloc true 8, uploadFive, .tagOutput ⟨kHbmBase⟩])

/-- Two residues are uploaded and added to themselves, and the group is tagged. -/
def pairTagged : World UInt64 (List (UInt64 × UInt64)) :=
  let group := some [⟨kHbmBase⟩, ⟨kHbmBase + 8⟩]
  .runAll scalarRing .init (scalarProgram [.setRingDimension 1, .mallocMrp true 2 8,
    .memcpyMrp (.hostToDevice group (some [some [5, 0, 0, 0, 0, 0, 0, 0],
      some [6, 0, 0, 0, 0, 0, 0, 0]])) 8 (some [17, 19]),
    .ppMrp .add group group group (some [17, 19]), .tagOutput ⟨kHbmBase⟩])

/-- Both residues of the group are materialized. -/
theorem flush_materializes_example :
    Materializes scalarValue pairTagged (hazeFlush scalarRing scalarReplies pairTagged) :=
  (flush_materializes (w := pairTagged) ⟨_, rfl⟩
    (.scalar (by decide +kernel) (by decide +kernel) (by decide +kernel) (by decide +kernel)
      (by decide +kernel) (by decide +kernel))).mpr (by decide +kernel)

/-- The tagged upload flushed while the trace cannot be written and the hook fails, and then
uploaded and tagged again. -/
def staleFailure : World UInt64 (List (UInt64 × UInt64)) :=
  .runAll scalarRing .init
    (scalarProgram [.setRingDimension 1, .malloc true 8, uploadFive, .tagOutput ⟨kHbmBase⟩] ++
      [⟨{ scalarReplies with stopSucceeds := false, hookFails := true }, .flush⟩] ++
      scalarProgram [uploadFive, .tagOutput ⟨kHbmBase⟩])

/-- The next flush fails, although each of its own steps succeeds. -/
theorem flush_materializes_counterexample :
    staleFailure.Reachable scalarRing ∧
      FlushReady scalarRing scalarReplies scalarValue staleFailure ∧
      ¬ Materializes scalarValue staleFailure (hazeFlush scalarRing scalarReplies staleFailure) :=
  ⟨⟨_, rfl⟩,
    .scalar (by decide +kernel) (by decide +kernel) (by decide +kernel) (by decide +kernel)
      (by decide +kernel) (by decide +kernel),
    fun h => absurd h.succeeds (by decide +kernel)⟩

end Haze
