import Haze.Runtime.Interleaving

/-!
# An address between the steps of calls on it

What is read of an address, by a copy to the host or as an operand of an operation, depends on its
words and its binding. An address is `Fresh` when it is no output and is bound to its words, or to
nothing: two states where it is fresh and has the same words are read alike. Tagging an upload and
dropping an address leave it fresh, and so does the end of an epoch.

`World.Mirrors` relates a state between the steps of calls to one where the calls are over. An
upload, a set and a flush that are not interrupted lead from the words of their first step to a
state where the address is fresh.
-/

namespace Haze

variable {P M : Type}

open World

namespace World

/-! ## The words and the binding of the address -/

/-- The configuration, the live addresses and the size of an allocation stay. -/
structure SameSizes (w w' : World P M) : Prop where
  config : w'.config = w.config
  allocSet : w'.allocator.allocSet = w.allocator.allocSet
  polyBytes : w'.allocator.polyBytes = w.allocator.polyBytes

/-- The words of an address are those of one allocation. -/
def SizedAt (w : World P M) (a : DevAddr) : Prop :=
  ∃ values, w.shadow a = some values ∧ values.length = w.allocator.wantElems

/-- The words of one allocation at the address can be read as a polynomial. -/
def Fits (w : World P M) (a : DevAddr) : Prop :=
  w.config.ringDim ≠ 0 ∧ a ∈ w.allocator.allocSet ∧
    ¬ w.allocator.polyBytes < w.config.ringDim * 8 ∧
    w.allocator.wantElems = w.config.ringDim.toNat

/-- An address is not tagged, and is bound to its words if it is bound. -/
structure Fresh (F : Fhetch P M) (a : DevAddr) (w : World P M) : Prop where
  untagged : a ∉ w.epoch.pendingOutputs
  bound : w.binding a = none ∨
    ∃ values, DeviceAllocator.components a w.config.ringDim w.allocator = .ok values ∧
      w.binding a = some (F.fromData values w.config.ringDim)

/-- No copy of an address to the host and no operand there tells two states apart. -/
structure ReadAlike (F : Fhetch P M) (a : DevAddr) (w w' : World P M) : Prop where
  host : ∀ env dst count, (hazeMemcpy F env (.deviceToHost dst a) count w).1 =
    (hazeMemcpy F env (.deviceToHost dst a) count w').1
  operand : (lookupOrCreateLocked F a w).1 = (lookupOrCreateLocked F a w').1

section

variable {F : Fhetch P M} {w w' v : World P M} {a : DevAddr}

/-- A state has its own sizes. -/
theorem SameSizes.refl (w : World P M) : w.SameSizes w := ⟨rfl, rfl, rfl⟩

/-- The same allocator and the same configuration give the same sizes. -/
theorem SameSizes.of_eq (hallocator : w'.allocator = w.allocator) (hconfig : w'.config = w.config) :
    w.SameSizes w' :=
  ⟨hconfig, congrArg _ hallocator, congrArg _ hallocator⟩

/-- Sameness of sizes is transitive. -/
theorem SameSizes.trans (h : w.SameSizes w') (h' : w'.SameSizes v) : w.SameSizes v :=
  ⟨h'.config.trans h.config, h'.allocSet.trans h.allocSet, h'.polyBytes.trans h.polyBytes⟩

/-- It is symmetric. -/
theorem SameSizes.symm (h : w.SameSizes w') : w'.SameSizes w :=
  ⟨h.config.symm, h.allocSet.symm, h.polyBytes.symm⟩

/-- An allocation has the same number of words. -/
theorem SameSizes.wantElems (h : w.SameSizes w') :
    w'.allocator.wantElems = w.allocator.wantElems := by
  unfold DeviceAllocator.wantElems
  rw [h.polyBytes]

/-- Ranges are checked alike. -/
theorem SameSizes.checkRange (h : w.SameSizes w') (count : UInt64) :
    w'.allocator.checkRange a count = w.allocator.checkRange a count := by
  unfold DeviceAllocator.checkRange
  rw [h.allocSet, h.polyBytes]

/-- The same words are the same components. -/
theorem SameSizes.components (h : w.SameSizes w') (hs : w'.shadow a = w.shadow a) :
    DeviceAllocator.components a w'.config.ringDim w'.allocator =
      DeviceAllocator.components a w.config.ringDim w.allocator := by
  unfold World.shadow at hs
  unfold DeviceAllocator.components
  rw [h.config, h.allocSet, h.polyBytes, hs]

/-- The same words have the same storage to write to. -/
theorem SameSizes.sizedShadow (h : w.SameSizes w') (hs : w'.shadow a = w.shadow a) :
    w'.allocator.sizedShadow a = w.allocator.sizedShadow a := by
  unfold World.shadow at hs
  unfold DeviceAllocator.sizedShadow
  rw [hs, h.wantElems]

/-- The words fit in one state when they fit in the other. -/
theorem SameSizes.fits (h : w.SameSizes w') : w'.Fits a ↔ w.Fits a := by
  unfold Fits
  rw [h.config, h.allocSet, h.polyBytes, h.wantElems]

/-- The words of one allocation can be read exactly where they fit. -/
theorem SizedAt.fits_iff (h : w.SizedAt a) :
    w.Fits a ↔
      ∃ values, DeviceAllocator.components a w.config.ringDim w.allocator = .ok values := by
  obtain ⟨values, hs, hlen⟩ := h
  unfold World.shadow at hs
  unfold Fits DeviceAllocator.components
  rw [hs, ← hlen]
  by_cases hdim : w.config.ringDim = 0
  · simp [hdim]
  by_cases hlive : a ∈ w.allocator.allocSet
  · by_cases hsize : w.allocator.polyBytes < w.config.ringDim * 8
    · simp [hdim, hlive, hsize]
    · by_cases hcount : values.length = w.config.ringDim.toNat
      · simp [hdim, hlive, hsize, hcount]
      · simp [hdim, hlive, hsize, hcount]
  · simp [hdim, hlive]

/-- After the end of an epoch every address is fresh. -/
theorem fresh_of_init (F : Fhetch P M) (a : DevAddr) (h : w.epoch = .init) : w.Fresh F a := by
  refine ⟨fun hmem => ?_, .inl ?_⟩
  · rw [h] at hmem
    exact absurd hmem (AList.notMem_empty a)
  · unfold binding
    rw [h]
    rfl

/-- What stays in the epoch, or is dropped with it, leaves a fresh address fresh. -/
theorem Fresh.of_epoch (h : w.Fresh F a) (hsizes : w.SameSizes w') (hs : w'.shadow a = w.shadow a)
    (hepoch : w'.epoch = w.epoch ∨ w'.epoch = .init) : w'.Fresh F a := by
  rcases hepoch with hepoch | hepoch
  · refine ⟨hepoch ▸ h.untagged, h.bound.imp (fun hb => ?_) ?_⟩
    · unfold binding
      rw [hepoch]
      exact hb
    · rintro ⟨values, hc, hb⟩
      refine ⟨values, (hsizes.components hs).trans hc, ?_⟩
      unfold binding
      rw [hepoch, hsizes.config]
      exact hb
  · exact fresh_of_init F a hepoch

/-- A fresh address resolves to the polynomial of its words, whether it is bound or not. -/
theorem Fresh.operand (h : w.Fresh F a) : (lookupOrCreateLocked F a w).1 =
    match DeviceAllocator.components a w.config.ringDim w.allocator with
    | .ok values => .ok (F.fromData values w.config.ringDim)
    | .error e => .error (if e = .noData then .sourceUnavailable else e) := by
  rcases h.bound with hb | ⟨values, hc, hb⟩
  · rcases hc : DeviceAllocator.components a w.config.ringDim w.allocator with e | values
    · rw [lookup_fails hb hc]
    · rw [lookup_promotes hb hc, shadowPoly, World.shadow, (components_ok hc).2.2.1]
      rfl
  · rw [lookup_bound hb, hc]

/-- Two states where the address is fresh and has the same words are read alike. -/
theorem ReadAlike.of_fresh (h : w.Fresh F a) (h' : w'.Fresh F a) (hsizes : w.SameSizes w')
    (hs : w'.shadow a = w.shadow a) : ReadAlike F a w w' where
  host env dst count := by
    have hcopy : DeviceAllocator.copyToHost dst a count w.allocator =
        DeviceAllocator.copyToHost dst a count w'.allocator := by
      unfold World.shadow at hs
      unfold DeviceAllocator.copyToHost
      rw [hsizes.checkRange, hs]
    unfold hazeMemcpy Shim.guarded
    dsimp only
    split_ifs
    · rfl
    · unfold Shim.replyWith onAllocator
      rw [Expected.zoom_run, Expected.zoom_run, Expected.query_run, Expected.query_run, hcopy]
      rcases DeviceAllocator.copyToHost dst a count w'.allocator with e | bytes <;> rfl
  operand := by rw [h.operand, h'.operand, hsizes.components hs, hsizes.config]

/-- A state reads like itself. -/
theorem ReadAlike.refl (w : World P M) : ReadAlike F a w w := ⟨fun _ _ _ => rfl, rfl⟩

/-! ## The effect of a step on them -/

/-- Overwriting bytes changes no size. -/
theorem overwriting_sizes (a : DevAddr) (bytes : List UInt8) (w : World P M) :
    w.SameSizes (w.overwriting a bytes) := ⟨rfl, rfl, rfl⟩

/-- The overwritten address holds its storage with the first bytes replaced. -/
theorem shadow_overwriting (a : DevAddr) (bytes : List UInt8) (w : World P M) :
    (w.overwriting a bytes).shadow a =
      some (Limbs.overwrite bytes (w.allocator.sizedShadow a)) :=
  AList.lookup_insert _

/-- Bytes that passed the range check leave the words of one allocation. -/
theorem overwriting_sized {bytes : List UInt8} {count : UInt64}
    (hrange : w.allocator.checkRange a count = .ok ()) (hlen : bytes.length = count.toNat) :
    (w.overwriting a bytes).SizedAt a := by
  refine ⟨_, shadow_overwriting a bytes w, ?_⟩
  refine (DeviceAllocator.length_written (a := a) ?_).trans
    (overwriting_sizes a bytes w).wantElems.symm
  rw [hlen]
  exact UInt64.le_iff_toNat_le.mp (DeviceAllocator.checkRange_ok hrange).2

/-- Tagging an upload whose words can be read leaves the address fresh. -/
theorem tagH2dInput_fresh (env : CompilerReplies P) {values : List UInt64}
    (hc : DeviceAllocator.components a w.config.ringDim w.allocator = .ok values) :
    ∃ w', tagH2dInput F env a w = (.ok (), w') ∧ w'.allocator = w.allocator ∧
      w'.config = w.config ∧ w'.Fresh F a := by
  obtain ⟨recording, initialized, cs, -, hsession⟩ := session_frame (F := F) env w
  have hrun : tagH2dInput F env a w = tagH2dInputLocked F a (w.act F (.session env)) := rfl
  rw [hsession] at hrun
  refine ⟨_, hrun.trans (tagH2dInput_binds hc), rfl, rfl, fun hmem => ?_,
    .inr ⟨values, hc, AList.lookup_insert _⟩⟩
  change a ∈ AList.erase a w.epoch.pendingOutputs at hmem
  exact (AList.mem_erase.mp hmem).1 rfl

/-- Words that cannot be read are not tagged. -/
theorem tagH2dInput_refused (env : CompilerReplies P) {e : HazeInternalError}
    (hc : DeviceAllocator.components a w.config.ringDim w.allocator = .error e) :
    ∃ e' w', tagH2dInput F env a w = (.error e', w') := by
  obtain ⟨recording, initialized, cs, -, hsession⟩ := session_frame (F := F) env w
  have hrun : tagH2dInput F env a w = tagH2dInputLocked F a (w.act F (.session env)) := rfl
  rw [hsession] at hrun
  obtain ⟨e', hfails⟩ := tagH2dInput_fails (F := F) (a := a) (w := { w with
    epoch := { w.epoch with recording := recording }
    initialized := initialized
    compiler := w.compiler ++ cs }) hc
  exact ⟨e', _, hrun.trans hfails⟩

/-- An address that was dropped from the epoch is fresh. -/
theorem invalidate_fresh (F : Fhetch P M) (w : World P M) (a : DevAddr) :
    ({ w with epoch := w.epoch.invalidate a } : World P M).Fresh F a := by
  refine ⟨fun hmem => ?_, .inl (AList.lookup_erase a (w.epoch.evictGroupsOf a).polyMap)⟩
  change a ∈ AList.erase a (w.epoch.evictGroupsOf a).pendingOutputs at hmem
  exact (AList.mem_erase.mp hmem).1 rfl

/-- Finalizing other addresses leaves the words of an address, and its epoch or none. -/
theorem finalizes_keeps {α : Type} {pending : DevAddr → Prop} {x : Method P M α}
    (hx : Expected.PerformsAt (act F) (In (Action.Finalizes pending)) x w) (ha : ¬ pending a) :
    w.SameSizes (x w).2 ∧ (x w).2.shadow a = w.shadow a ∧
      ((x w).2.epoch = w.epoch ∨ (x w).2.epoch = .init) := by
  refine hx.preserves (I := fun v => w.SameSizes v ∧ v.shadow a = w.shadow a ∧
    (v.epoch = w.epoch ∨ v.epoch = .init)) (fun v x hx hv => ?_) ⟨.refl w, rfl, .inl rfl⟩
  obtain ⟨hsizes, hs, hepoch⟩ := hv
  cases x with
  | allocator x =>
    cases x with
    | write b values =>
      refine ⟨⟨hsizes.config, hsizes.allocSet, hsizes.polyBytes⟩, ?_, hepoch⟩
      have hb : a ≠ b := fun heq => ha (heq ▸ hx.1)
      exact ((shadow_allocator_act v.allocator (.write b values) a).trans (if_neg hb)).trans hs
    | _ => exact hx.1.elim
  | calls cs => exact ⟨⟨hsizes.config, hsizes.allocSet, hsizes.polyBytes⟩, hs, hepoch⟩
  | hook hadError => exact ⟨⟨hsizes.config, hsizes.allocSet, hsizes.polyBytes⟩, hs, hepoch⟩
  | clearState => exact ⟨⟨hsizes.config, hsizes.allocSet, hsizes.polyBytes⟩, hs, .inr rfl⟩
  | _ => exact hx.1.elim

/-- A flush that reads back no output of an address leaves its words and drops its binding, or
leaves that too. -/
theorem flush_keeps (env : CompilerReplies P) (ha : a ∉ w.epoch.pendingOutputs) :
    w.SameSizes (flush F env w).2 ∧ (flush F env w).2.shadow a = w.shadow a ∧
      ((flush F env w).2.epoch = w.epoch ∨ (flush F env w).2.epoch = .init) :=
  finalizes_keeps (flush_finalizes env w) ha

/-- An output of another address is read back without a change of the words. -/
theorem populateShadow_others {env : CompilerReplies P} {entry : Sigma fun _ : DevAddr => ProbeName}
    (h : populateShadow env entry w = (.ok (), w')) (ha : a ≠ entry.1) :
    w.SameSizes w' ∧ w'.shadow a = w.shadow a ∧ w'.epoch = w.epoch := by
  obtain ⟨-, -, rfl⟩ := (populateShadow_ok rfl).mp h
  exact ⟨⟨rfl, rfl, rfl⟩, UMap.lookup_insert_ite.trans (if_neg ha), rfl⟩

/-- Outputs of other addresses are read back without a change of the words. -/
theorem readBack_keeps (F : Fhetch P M) (env : CompilerReplies P)
    {outputs : List (Sigma fun _ : DevAddr => ProbeName)} (ha : ∀ entry ∈ outputs, entry.1 ≠ a)
    (w : World P M) :
    w.SameSizes (readBack env outputs w).2 ∧ (readBack env outputs w).2.shadow a = w.shadow a := by
  have hperforms : Expected.Performs (act F) (In (Action.Finalizes (· ≠ a)))
      (readBack env outputs : Method P M Unit) :=
    .bind (.forEach fun entry hentry => populateShadow_finalizes env (ha entry hentry)) fun _ =>
      .of_action (fun _ => .clearState) (fun _ => ⟨trivial, trivial⟩) fun _ => rfl
  obtain ⟨hsizes, hs, -⟩ := finalizes_keeps (hperforms w) (not_not.mpr rfl)
  exact ⟨hsizes, hs⟩

/-- Getting the outputs ready changes neither words nor bindings, and finds the pending ones. -/
theorem materializedOutputs_ok {env : CompilerReplies P}
    {found : Option (List (Sigma fun _ : DevAddr => ProbeName))}
    (h : materializedOutputs env w = (.ok found, w')) :
    w'.allocator = w.allocator ∧ w'.config = w.config ∧ w'.epoch = w.epoch ∧
      ∀ outs, found = some outs → outs = outputs env w := by
  -- The stages in the order of the source; only one that has gone through all of them finds
  -- outputs.
  unfold materializedOutputs at h
  rw [Expected.get_bind_run] at h
  split_ifs at h
  · cases h
    exact ⟨rfl, rfl, rfl, nofun⟩
  obtain ⟨stopOk, v, hstop, h⟩ := Expected.bind_eq_ok.mp h
  cases hstop
  split_ifs at h
  · cases h
  obtain ⟨hookHadError, v, hhook, h⟩ := Expected.bind_eq_ok.mp h
  cases hhook
  split_ifs at h
  · cases h
  obtain ⟨replayOk, v, hreplay, h⟩ := Expected.bind_eq_ok.mp h
  cases hreplay
  split_ifs at h
  · cases h
  cases h
  refine ⟨rfl, rfl, rfl, ?_⟩
  rintro outs ⟨⟩
  rfl

/-- A flush up to the outputs that it reads back, which are those that were tagged. -/
theorem flushedOutputs_ok {env : CompilerReplies P}
    {found : Option (List (Sigma fun _ : DevAddr => ProbeName))}
    (h : flushedOutputs F env w = (.ok found, w')) :
    w'.allocator = w.allocator ∧ w'.config = w.config ∧
      (w'.epoch = w.epoch ∨ w'.epoch = .init) ∧
      ∀ outs, found = some outs → outs = outputs env w := by
  unfold flushedOutputs at h
  rw [Expected.get_bind_run] at h
  split_ifs at h
  · cases h
  · cases h
    exact ⟨rfl, rfl, .inl rfl, nofun⟩
  · cases h
    exact ⟨rfl, rfl, .inr rfl, nofun⟩
  -- The tag calls change the log alone.
  obtain ⟨_, v, htags, h⟩ := Expected.bind_eq_ok.mp h
  have hsame := (tagPendingOutputs_tags (F := F) env w).preserves
    (I := fun v => v.allocator = w.allocator ∧ v.config = w.config ∧ v.epoch = w.epoch)
    (fun _ x hx hI => by cases x <;> first | exact hx.1.elim | exact hI) ⟨rfl, rfl, rfl⟩
  rw [htags] at hsame
  obtain ⟨hallocator, hconfig, hepoch⟩ := hsame
  obtain ⟨hallocator', hconfig', hepoch', houts⟩ := materializedOutputs_ok h
  refine ⟨hallocator'.trans hallocator, hconfig'.trans hconfig, .inl (hepoch'.trans hepoch), ?_⟩
  intro outs hfound
  rw [houts outs hfound, outputs, outputs, hepoch]

end

end World

section

variable {F : Fhetch P M} {w w' v : World P M} {a : DevAddr}

/-- A tag that succeeds changes neither sizes nor words, and leaves the address fresh. -/
theorem World.tagH2dInput_ok {env : CompilerReplies P} (h : tagH2dInput F env a w = (.ok (), w')) :
    w'.allocator = w.allocator ∧ w'.config = w.config ∧ w'.Fresh F a := by
  rcases hc : DeviceAllocator.components a w.config.ringDim w.allocator with e | values
  · obtain ⟨e', v, hfails⟩ := tagH2dInput_refused (F := F) env hc
    cases hfails.symm.trans h
  · obtain ⟨v, hrun, hrest⟩ := tagH2dInput_fresh (F := F) env hc
    cases hrun.symm.trans h
    exact hrest

/-- No step changes the sizes, and words of one allocation stay such words. -/
theorem Turn.Does.sizes {turn : Turn P} {progress : Progress P}
    (h : turn.Does F a w progress w') : w.SameSizes w' ∧ (w.SizedAt a → w'.SizedAt a) := by
  -- Most turns change neither the words nor the sizes.
  have hsame : w'.allocator = w.allocator → w'.config = w.config →
      w.SameSizes w' ∧ (w.SizedAt a → w'.SizedAt a) := by
    intro hallocator hconfig
    refine ⟨.of_eq hallocator hconfig, ?_⟩
    rintro ⟨values, hs, hlen⟩
    exact ⟨values, (congrArg (DeviceAllocator.shadow · a) hallocator).trans hs,
      hlen.trans (congrArg DeviceAllocator.wantElems hallocator).symm⟩
  cases h with
  | copies env bytes nonnull range =>
    -- A copy and a fill write words of the right length.
    exact ⟨overwriting_sizes .., fun _ => overwriting_sized range (List.takeD_length ..)⟩
  | sets env value nonnull range =>
    exact ⟨overwriting_sizes .., fun _ => overwriting_sized range List.length_replicate⟩
  | flushes run => exact hsame (flushedOutputs_ok run).1 (flushedOutputs_ok run).2.1
  | materializes run => exact hsame (flushedOutputs_ok run).1 (flushedOutputs_ok run).2.1
  | tags run => exact hsame (tagH2dInput_ok run).1 (tagH2dInput_ok run).2.1
  | invalidates => exact hsame rfl rfl
  -- So does an output, to its own address.
  | @populates env _ entry outputs run =>
    obtain ⟨-, -, rfl⟩ := (populateShadow_ok rfl).mp run
    refine ⟨⟨rfl, rfl, rfl⟩, ?_⟩
    rintro ⟨values, hs, hlen⟩
    by_cases ha : a = entry.1
    · subst ha
      exact ⟨_, AList.lookup_insert _, List.takeD_length ..⟩
    · exact ⟨values, (UMap.lookup_insert_ite.trans (if_neg ha)).trans hs, hlen⟩
  | clears env => exact hsame rfl rfl

/-! ## The calls in order -/

/-- In the state of the calls in order, the address has the words that it has in the process, and is
fresh. -/
structure World.Mirrors (F : Fhetch P M) (a : DevAddr) (w v : World P M) : Prop where
  sizes : w.SameSizes v
  words : v.shadow a = w.shadow a
  fresh : v.Fresh F a

/-- An upload that is not interrupted has the words of its first step. -/
theorem World.upload_mirrors (hsizes : w.SameSizes v) (hwords : v.shadow a = w.shadow a)
    (env : CompilerReplies P) (bytes : List UInt8) {count : UInt64} (hnull : a ≠ .null)
    (hrange : w.allocator.checkRange a count = .ok ()) (hfits : w.Fits a) :
    Mirrors F a (w.overwriting a (bytes.takeD count.toNat 0))
      (v.after F (Job.invocation a ⟨env, .upload (some bytes) count⟩)) := by
  have hrange' := (hsizes.checkRange count).trans hrange
  have hcopies := Turn.Does.copies (F := F) env bytes hnull hrange'
  have hsized : (v.overwriting a (bytes.takeD count.toNat 0)).SizedAt a :=
    overwriting_sized hrange' (List.takeD_length ..)
  obtain ⟨values, hc⟩ := hsized.fits_iff.mp
    ((overwriting_sizes ..).fits.mpr (hsizes.fits.mpr hfits))
  obtain ⟨v', htag, hallocator, hconfig, hfresh⟩ := tagH2dInput_fresh (F := F) env hc
  have hlast := ((Job.completes F a ⟨env, .upload (some bytes) count⟩ v).next
    hcopies.run_eq).last (Turn.Does.tags htag).run_eq
  rw [hlast]
  refine ⟨?_, ?_, hfresh⟩
  · exact ((overwriting_sizes ..).symm.trans hsizes).trans
      ((overwriting_sizes ..).trans (.of_eq hallocator hconfig))
  · refine (congrArg (DeviceAllocator.shadow · a) hallocator).trans ?_
    rw [shadow_overwriting, ← hsizes.sizedShadow hwords]
    exact shadow_overwriting ..

/-- A set that is not interrupted has the words of its first step. -/
theorem World.set_mirrors (hsizes : w.SameSizes v) (hwords : v.shadow a = w.shadow a)
    (env : CompilerReplies P) (value : ℤ) {count : UInt64} (hnull : a ≠ .null)
    (hrange : w.allocator.checkRange a count = .ok ()) :
    Mirrors F a (w.overwriting a (List.replicate count.toNat (UInt8.ofInt value)))
      (v.after F (Job.invocation a ⟨env, .memset value count⟩)) := by
  have hsets := Turn.Does.sets (F := F) env value hnull ((hsizes.checkRange count).trans hrange)
  have hlast := ((Job.completes F a ⟨env, .memset value count⟩ v).next
    hsets.run_eq).last Turn.Does.invalidates.run_eq
  rw [hlast]
  refine ⟨?_, ?_, invalidate_fresh F _ a⟩
  · exact ((overwriting_sizes ..).symm.trans hsizes).trans
      ((overwriting_sizes ..).trans ⟨rfl, rfl, rfl⟩)
  · refine Eq.trans ?_ (shadow_overwriting ..).symm
    rw [← hsizes.sizedShadow hwords]
    exact shadow_overwriting ..

/-- A step of the process that leaves the words of the address. -/
theorem World.Mirrors.of_same (h : Mirrors F a w v) (hsizes : w.SameSizes w')
    (hs : w'.shadow a = w.shadow a) : Mirrors F a w' v :=
  ⟨hsizes.symm.trans h.sizes, h.words.trans hs.symm, h.fresh⟩

/-- A flush leaves an address that is not tagged with its words. -/
theorem World.Mirrors.flush (h : Mirrors F a w v) (env : CompilerReplies P) :
    Mirrors F a w (v.after F (Job.invocation a ⟨env, .flush⟩)) := by
  have hstate : v.after F (Job.invocation a ⟨env, .flush⟩) = (World.flush F env v).2 :=
    Shim.replyWith_state ..
  obtain ⟨hsizes, hs, hepoch⟩ := flush_keeps (F := F) env h.fresh.untagged
  rw [hstate]
  exact ⟨h.sizes.trans hsizes, hs.trans h.words, h.fresh.of_epoch hsizes hs hepoch⟩

end

end Haze
