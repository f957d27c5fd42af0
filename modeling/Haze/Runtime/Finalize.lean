import Haze.Runtime.Invariant

/-!
# Finalizing an epoch

What a finalization does where the epoch's invariant holds: every pending output is tagged under its
name with its current binding, every pending group with those of its residues, and the words of the
outputs become the values that the replay has under their names.
-/

namespace Haze

variable {P M : Type}

namespace World

/-! ## Tagging the outputs -/

section Tagging

variable (F : Fhetch P M)

/-- The call that tags a pending output with its binding. -/
def outputCall (s : EpochState P) (entry : Sigma fun _ : DevAddr => ProbeName) :
    Option (CompilerCall P M) :=
  (AList.lookup entry.1 s.polyMap).map (.tagOutput entry.2 ·)

/-- The bindings of a group's residues with their moduli. -/
def groupPairs (s : EpochState P) (group : MrpGroup) : List (P × UInt64) :=
  (group.addrs.zip group.moduli).filterMap fun r => (AList.lookup r.1 s.polyMap).map (·, r.2)

/-- The call that tags a pending group. -/
def groupCall (s : EpochState P) (name : ProbeName) : Option (CompilerCall P M) :=
  (AList.lookup name s.knownMrpGroups).map fun group =>
    .tagOutputMrp name (F.fromPairs (groupPairs s group))

/-- The calls that tag the pending outputs and groups. -/
def tagCalls (env : CompilerReplies P) (w : World P M) : List (CompilerCall P M) :=
  (outputs env w).filterMap (outputCall w.epoch) ++
    (env.groupOrder.order w.epoch.pendingMrpGroups.keys).filterMap (groupCall F w.epoch)

variable {F}

/-- A loop whose every round makes one call to the compiler makes these calls. -/
theorem forEach_calls {β : Type} {f : β → Method P M Unit} {g : β → Option (CompilerCall P M)}
    {s : EpochState P} {bs : List β}
    (h : ∀ b ∈ bs, ∀ w : World P M, w.epoch = s → ∃ c, g b = some c ∧
      f b w = (.ok (), { w with compiler := w.compiler ++ [c] })) {w : World P M}
    (hw : w.epoch = s) :
    Expected.forEach f bs w = (.ok (), { w with compiler := w.compiler ++ bs.filterMap g }) := by
  induction bs generalizing w with
  | nil => rw [List.filterMap_nil, List.append_nil]; rfl
  | cons b bs ih =>
    obtain ⟨c, hc, hrun⟩ := h b (List.mem_cons_self ..) w hw
    rw [Expected.forEach_cons, Expected.bind_run_ok hrun, List.filterMap_cons_some hc]
    refine (ih (fun b' hb' => h b' (List.mem_cons_of_mem _ hb'))
      (w := { w with compiler := w.compiler ++ [c] }) hw).trans ?_
    simp only [List.append_assoc, List.singleton_append]

/-- The bound outputs are tagged, one call for each. -/
theorem forEach_tagPendingOutput {entries : List (Sigma fun _ : DevAddr => ProbeName)}
    {w : World P M} (h : ∀ entry ∈ entries, entry.1 ∈ w.epoch.polyMap) :
    Expected.forEach tagPendingOutput entries w =
      (.ok (), { w with compiler := w.compiler ++ entries.filterMap (outputCall w.epoch) }) := by
  refine forEach_calls (s := w.epoch) (fun entry hentry v hv => ?_) rfl
  obtain ⟨poly, hp⟩ := UMap.mem_iff_lookup.mp (h entry hentry)
  refine ⟨.tagOutput entry.2 poly, by rw [outputCall, hp, Option.map_some], ?_⟩
  rw [← hv] at hp
  unfold tagPendingOutput
  rw [Expected.get_bind_run, hp]
  rfl

/-- The bindings of bound members are found, with their moduli. -/
theorem mapEach_memberBinding {residues : List (DevAddr × UInt64)} {w : World P M}
    (h : ∀ r ∈ residues, r.1 ∈ w.epoch.polyMap) :
    Expected.mapEach memberBinding residues w =
      (.ok (residues.filterMap fun r => (AList.lookup r.1 w.epoch.polyMap).map (·, r.2)), w) := by
  induction residues with
  | nil => rfl
  | cons r rs ih =>
    obtain ⟨poly, hp⟩ := UMap.mem_iff_lookup.mp (h r (List.mem_cons_self ..))
    have hrun : memberBinding r w = (.ok (poly, r.2), w) := by
      unfold memberBinding
      rw [Expected.get_bind_run, hp]
      rfl
    rw [Expected.mapEach_cons, Expected.bind_run_ok hrun,
      Expected.bind_run_ok (ih fun r' hr' => h r' (List.mem_cons_of_mem _ hr')),
      List.filterMap_cons_some (by rw [hp, Option.map_some])]
    rfl

/-- The groups that are known are tagged, one call for each. -/
theorem forEach_tagPendingGroup {names : List ProbeName} {w : World P M}
    (hc : w.epoch.Consistent) (h : ∀ name ∈ names, name ∈ w.epoch.knownMrpGroups) :
    Expected.forEach (tagPendingGroup F) names w =
      (.ok (), { w with compiler := w.compiler ++ names.filterMap (groupCall F w.epoch) }) := by
  refine forEach_calls (s := w.epoch) (fun name hname v hv => ?_) rfl
  obtain ⟨group, hg⟩ := UMap.mem_iff_lookup.mp (h name hname)
  have hbound : ∀ r ∈ group.addrs.zip group.moduli, r.1 ∈ v.epoch.polyMap := fun r hr =>
    hv ▸ hc.member_bound name r.1 ⟨group, hg, (List.of_mem_zip hr).1⟩
  refine ⟨.tagOutputMrp name (F.fromPairs (groupPairs w.epoch group)), by
    rw [groupCall, hg, Option.map_some], ?_⟩
  rw [← hv] at hg ⊢
  unfold tagPendingGroup
  rw [Expected.get_bind_run, hg]
  exact Expected.bind_run_ok (mapEach_memberBinding hbound)

/-- The outputs are the pending ones. -/
theorem mem_outputs {env : CompilerReplies P} {w : World P M}
    {entry : Sigma fun _ : DevAddr => ProbeName} :
    entry ∈ outputs env w ↔ AList.lookup entry.1 w.epoch.pendingOutputs = some entry.2 := by
  rw [outputs, IterationOrder.mem_order]
  exact UMap.mem_entries_iff

/-- Where the epoch's invariant holds, tagging succeeds, and makes the calls for the pending outputs
and groups. -/
theorem tagPendingOutputs_run (env : CompilerReplies P) {w : World P M} (hc : w.epoch.Consistent) :
    tagPendingOutputsLocked F env w =
      (.ok (), { w with compiler := w.compiler ++ tagCalls F env w }) := by
  have houtputs : ∀ entry ∈ outputs env w, entry.1 ∈ w.epoch.polyMap := fun entry hentry =>
    hc.pending_bound entry.1 (UMap.mem_of_lookup (mem_outputs.mp hentry))
  have hgroups : ∀ name ∈ env.groupOrder.order w.epoch.pendingMrpGroups.keys,
      name ∈ w.epoch.knownMrpGroups := fun name hname => by
    rw [IterationOrder.mem_order] at hname
    exact hc.pending_known name (AList.mem_keys.mpr hname)
  unfold tagPendingOutputsLocked
  rw [Expected.get_bind_run, Expected.bind_run_ok (forEach_tagPendingOutput houtputs)]
  refine (forEach_tagPendingGroup (F := F)
    (w := { w with compiler := w.compiler ++ (outputs env w).filterMap (outputCall w.epoch) })
    hc hgroups).trans ?_
  rw [tagCalls, ← List.append_assoc]

end Tagging

end World

/-- The epoch's representation. After every sequence of critical sections, and so after every
sequence of public calls, the epoch's invariant holds; tagging the pending outputs finds a binding
for each; and an address in the reverse index is there with exactly one name. -/
theorem epoch_representation (F : Fhetch P M) (xs : List (CriticalSection P)) :
    let w := xs.foldl (CriticalSection.run F) (World.init : World P M)
    w.epoch.Consistent ∧
      (∀ env, (World.tagPendingOutputsLocked F env w).1 = .ok ()) ∧
      ∀ a names, AList.lookup a w.epoch.addrToMrpGroups = some names → names.keys.length = 1 := by
  intro w
  have h : w.epoch.Consistent := (CriticalSection.runAll_valid xs).consistent
  refine ⟨h, fun env => ?_, fun a names hl => ?_⟩
  · rw [World.tagPendingOutputs_run env h]
  · obtain ⟨name, hkeys, -⟩ := h.claimed hl
    rw [hkeys]
    rfl

/-! ## The captured outputs -/

/-- The actions that make no call that captures an output. -/
def Action.Silent : Action P M → Prop
  | .calls cs => Quiet cs
  | _ => True

namespace World

/-- The captured outputs after more calls continue those before. -/
theorem capturedOutputs_append (cs ds : List (CompilerCall P M)) :
    capturedOutputs (cs ++ ds) = ds.foldl CompilerCall.capture (capturedOutputs cs) := by
  rw [capturedOutputs, List.foldl_append]
  rfl

/-- An action that is silent leaves no captured outputs where there were none. -/
theorem captured_act {F : Fhetch P M} {w : World P M} {x : Action P M} (hx : x.Silent)
    (h : capturedOutputs w.compiler = []) : capturedOutputs (w.act F x).compiler = [] := by
  cases x with
  | promote a => exact (capturedOutputs_append w.compiler _).trans h
  | session env =>
    obtain ⟨_, _, cs, hcs, he⟩ := session_frame (F := F) env w
    rw [he]
    exact (capturedOutputs_append w.compiler cs).trans ((Quiet.of_opens hcs _).trans h)
  | calls cs => exact (capturedOutputs_append w.compiler cs).trans ((hx _).trans h)
  | clearState => exact capturedOutputs_append w.compiler [.clearCaptured]
  | reset => exact capturedOutputs_append (clearStateLocked w).compiler [.reset]
  | _ => exact h

/-- Only a finalization makes a call that is not silent. -/
theorem acts_silent {F : Fhetch P M} {pending : DevAddr → Prop} {c : Call} {x : Action P M}
    (hflush : c ≠ .flush) (hwrite : c ≠ .writeProgram) (h : c.Acts F pending x) : x.Silent := by
  cases x with
  | calls cs =>
    cases c with
    | memcpy transfer count => cases transfer <;> first | exact h | exact h.elim
    | memcpyMrp transfer count base => cases transfer <;> first | exact h | exact h.elim
    | flush => exact absurd rfl hflush
    | writeProgram => exact absurd rfl hwrite
    | tagOutput ptr => cases h
    | deviceReset => cases h
    | setRingDimension n => cases h
    | config call =>
      obtain ⟨c, hc⟩ := h
      cases hc
    | malloc ptr size => exact h.elim
    | free ptr => exact h.elim
    | mallocMrp ptrs count size => exact h.elim
    | freeMrp ptrs count => exact h.elim
    | memset devPtr value count => exact h.elim
    | _ => exact h
  | _ => trivial

/-- A cleared state has no outputs captured. -/
theorem captured_clearState (w : World P M) : capturedOutputs (clearStateLocked w).compiler = [] :=
  capturedOutputs_append w.compiler [.clearCaptured]

/-- The multi-residue outputs that were tagged, in order. -/
def groupOutputs (cs : List (CompilerCall P M)) : List (ProbeName × M) :=
  cs.filterMap fun
    | .tagOutputMrp name mrp => some (name, mrp)
    | _ => none

/-- The group outputs of more calls come behind those before. -/
theorem groupOutputs_append (cs ds : List (CompilerCall P M)) :
    groupOutputs (cs ++ ds) = groupOutputs cs ++ groupOutputs ds :=
  List.filterMap_append

/-- However a materialization ends, it ends by dropping the epoch, after it wrote the trace and
perhaps replayed it. -/
theorem doMaterialize_ends (env : CompilerReplies P) (runReplay : Bool) {w : World P M}
    (h : w.epoch.recording = true) :
    ∃ (v : World P M) (ds : List (CompilerCall P M)),
      (doMaterializeLocked env runReplay w).2 = clearStateLocked v ∧
        v.compiler = w.compiler ++ ds ∧ ds <+: [.stop, .replay] := by
  -- The log grows by the calls made so far; every way out clears the state.
  let Made : List (CompilerCall P M) → World P M → Prop := fun ds v => v.compiler = w.compiler ++ ds
  let Ended : World P M → Prop := fun u => ∃ v ds, u = clearStateLocked v ∧ Made ds v ∧
    ds <+: [.stop, .replay]
  have hcall : ∀ ds c (v : World P M), Made ds v → v.compiler ++ [c] = w.compiler ++ (ds ++ [c]) :=
    fun ds c v hv => by rw [← List.append_assoc, ← hv]
  have habort : ∀ ds e (Q : Unit → World P M → Prop), ds <+: [.stop, .replay] →
      Expected.Triple (Made ds) (abortEpoch e : Method P M Unit) Q (fun _ => Ended) :=
    fun ds e Q hds v hv => ⟨v, ds, rfl, hv, hds⟩
  have hclear : ∀ ds, ds <+: [.stop, .replay] →
      Expected.Triple (Made ds) (Expected.modify clearStateLocked : Method P M Unit)
        (fun _ => Ended) (fun _ => Ended) := fun ds hds v hv => ⟨v, ds, rfl, hv, hds⟩
  have hstop : [.stop] <+: ([.stop, .replay] : List (CompilerCall P M)) := List.prefix_append _ _
  have hboth : [.stop, .replay] <+: ([.stop, .replay] : List (CompilerCall P M)) :=
    List.prefix_rfl
  -- The words of one output: each way of failing aborts the epoch, the other goes on.
  have hpopulate : ∀ entry, Expected.Triple (Made [.stop, .replay])
      (populateShadow env entry : Method P M Unit) (fun _ => Made [.stop, .replay])
      (fun _ => Ended) := by
    intro entry v hv
    unfold populateShadow
    rw [Expected.get_bind_run]
    rcases env.result (capturedOutputs v.compiler) entry.2 with _ | poly
    · exact ⟨v, _, rfl, hv, hboth⟩
    dsimp only
    rcases env.extractPolynomialValues poly entry.2 with _ | values
    · exact ⟨v, _, rfl, hv, hboth⟩
    dsimp only
    rw [Expected.attempt_bind_run]
    rcases (onAllocator (DeviceAllocator.updateShadow entry.1 values) v).1 with e | _
    · exact ⟨_, _, rfl, hv, hboth⟩
    · exact hv
  have htriple : Expected.Triple (· = w) (doMaterializeLocked env runReplay)
      (fun _ => Ended) (fun _ => Ended) := by
    intro v hv
    subst hv
    -- The stop, the hook's flag, the replay and the outputs, each with its way out.
    unfold doMaterializeLocked
    rw [Expected.get_bind_run, h]
    refine Expected.Triple.bind (P := Made []) (Q := fun _ => Made [.stop])
      (fun u hu => hcall [] .stop u hu) (fun stopOk => ?_) v (List.append_nil _).symm
    split
    · exact habort _ _ _ hstop
    refine Expected.Triple.bind (Q := fun _ => Made [.stop]) (fun u hu => hu) fun hookHadError => ?_
    split
    · exact habort _ _ _ hstop
    split
    · exact hclear _ hstop
    refine Expected.Triple.bind (Q := fun _ => Made [.stop, .replay])
      (fun u hu => hcall [.stop] .replay u hu) fun replayOk => ?_
    split
    · exact habort _ _ _ hboth
    · exact Expected.Triple.bind (Expected.Triple.forEach fun entry _ => hpopulate entry)
        fun _ => hclear _ hboth
  rcases hr : doMaterializeLocked env runReplay w with ⟨e | u, w'⟩
  · exact htriple.error rfl hr
  · exact htriple.ok rfl hr

/-- A finalization of a recorded epoch tags its outputs and ends by dropping it. -/
theorem finalize_ends {F : Fhetch P M} (env : CompilerReplies P) (runReplay : Bool) {w : World P M}
    (hc : w.epoch.Consistent) (h : w.epoch.recording = true) :
    ∃ (v : World P M) (ds : List (CompilerCall P M)),
      (finalizeLocked F env runReplay w).2 = clearStateLocked v ∧
        v.compiler = w.compiler ++ tagCalls F env w ++ ds ∧ ds <+: [.stop, .replay] := by
  unfold finalizeLocked
  rw [Expected.get_bind_run, h, if_neg (by simp)]
  split_ifs with hpend
  · have houtputs : outputs env w = [] := by
      rw [outputs, hpend.1]
      exact List.perm_nil.mp (env.outputOrder.perm [])
    have hgroups : env.groupOrder.order w.epoch.pendingMrpGroups.keys = [] := by
      rw [hpend.2]
      exact List.perm_nil.mp (env.groupOrder.perm [])
    refine ⟨w, [], rfl, ?_, List.nil_prefix⟩
    rw [tagCalls, houtputs, hgroups, List.filterMap_nil, List.filterMap_nil]
    simp only [List.append_nil]
  · rw [Expected.bind_run_ok (tagPendingOutputs_run env hc)]
    exact doMaterialize_ends env runReplay (w := { w with compiler := w.compiler ++ tagCalls F env w })
      h

/-- The pending groups under their names, each with the bindings of its residues. -/
def taggedGroups (F : Fhetch P M) (env : CompilerReplies P) (w : World P M) : List (ProbeName × M) :=
  (env.groupOrder.order w.epoch.pendingMrpGroups.keys).filterMap fun name =>
    (AList.lookup name w.epoch.knownMrpGroups).map fun group =>
      (name, F.fromPairs (groupPairs w.epoch group))

/-- The groups that the tagging calls tag. -/
theorem groupOutputs_tagCalls (F : Fhetch P M) (env : CompilerReplies P) (w : World P M) :
    groupOutputs (tagCalls F env w) = taggedGroups F env w := by
  have houtputs : ∀ entries : List (Sigma fun _ : DevAddr => ProbeName),
      groupOutputs (entries.filterMap (outputCall (M := M) w.epoch)) = [] := by
    intro entries
    unfold groupOutputs
    rw [List.filterMap_filterMap, List.filterMap_eq_nil_iff]
    intro entry _
    unfold outputCall
    rcases AList.lookup entry.1 w.epoch.polyMap with _ | poly <;> rfl
  rw [tagCalls, groupOutputs_append, houtputs, List.nil_append]
  unfold groupOutputs taggedGroups
  rw [List.filterMap_filterMap]
  refine List.filterMap_congr fun name _ => ?_
  unfold groupCall
  rcases AList.lookup name w.epoch.knownMrpGroups with _ | group <;> rfl

/-- The groups that are tagged when a finalization drops a recorded epoch. -/
theorem finalize_groups {F : Fhetch P M} (env : CompilerReplies P) (runReplay : Bool) {w : World P M}
    (hc : w.epoch.Consistent) (h : w.epoch.recording = true) :
    ∃ v : World P M, (finalizeLocked F env runReplay w).2 = clearStateLocked v ∧
      groupOutputs v.compiler = groupOutputs w.compiler ++ taggedGroups F env w := by
  obtain ⟨v, ds, hv, hlog, hds⟩ := finalize_ends (F := F) env runReplay hc h
  have hprefixed : groupOutputs ds <+: groupOutputs [.stop, .replay] := hds.filterMap _
  have hquiet : groupOutputs ds = [] := List.prefix_nil.mp hprefixed
  refine ⟨v, hv, ?_⟩
  rw [hlog, groupOutputs_append, groupOutputs_append, groupOutputs_tagCalls, hquiet,
    List.append_nil]

/-- A finalization leaves no outputs captured. -/
theorem captured_finalize {F : Fhetch P M} (env : CompilerReplies P) (runReplay : Bool)
    {w : World P M} (hc : w.epoch.Consistent) (h : capturedOutputs w.compiler = []) :
    capturedOutputs (finalizeLocked F env runReplay w).2.compiler = [] := by
  rcases hrec : w.epoch.recording
  · unfold finalizeLocked
    rw [Expected.get_bind_run, hrec]
    exact h
  · obtain ⟨v, -, hv, -⟩ := finalize_ends (F := F) env runReplay hc hrec
    rw [hv]
    exact captured_clearState v

/-- Between the calls no output is captured. -/
theorem captured_after {F : Fhetch P M} {w : World P M} (hw : w.Inv)
    (h : capturedOutputs w.compiler = []) (i : Invocation P) :
    capturedOutputs (w.after F i).compiler = [] := by
  -- A flush and a write clear the captures themselves; no other call captures an output.
  by_cases hflush : i.call = .flush
  · have : w.after F i = (flush F i.env w).2 := by
      unfold World.after Invocation.run
      rw [hflush]
      exact Shim.replyWith_state _ (flush F i.env) w
    rw [this]
    unfold flush
    rw [Expected.get_bind_run]
    split
    · exact h
    · exact captured_finalize i.env true hw.epoch.consistent h
  by_cases hwrite : i.call = .writeProgram
  · have : w.after F i = (finalizeLocked F i.env false w).2 := by
      unfold World.after Invocation.run
      rw [hwrite]
      exact Shim.replyWith_state _ (finalizeLocked F i.env false) w
    rw [this]
    exact captured_finalize i.env false hw.epoch.consistent h
  · exact (Call.performs i.env i.call w).preserves (I := fun w => capturedOutputs w.compiler = [])
      (fun _ _ hx => captured_act (acts_silent hflush hwrite hx.1)) h

/-- In a reachable state no outputs are captured. -/
theorem Reachable.captured {F : Fhetch P M} {w : World P M} (h : w.Reachable F) :
    capturedOutputs w.compiler = [] := by
  obtain ⟨is, rfl⟩ := h
  have hall : ∀ w : World P M, w.Inv → capturedOutputs w.compiler = [] →
      capturedOutputs (runAll F w is).compiler = [] := by
    induction is with
    | nil => exact fun w _ h => h
    | cons i is ih => exact fun w hw h => ih _ (hw.after i) (captured_after hw h i)
  exact hall _ inv_init rfl

end World

end Haze
