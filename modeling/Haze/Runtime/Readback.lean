import Haze.Runtime.Flush
import Mathlib.Data.List.TakeWhile

/-!
# Reading the outputs back

After a replay the outputs are read back one after the other, in the order of an unordered map, and
the words of each are replaced before the next is read. The loop ends at the first output that is
missing, cannot be decoded or is tagged at an address that is not live; what was stored before
stays. `flush_stores` says which words change, whatever the flush returns. From it follow when a
flush that fails changed nothing, and when values of the wrong length do not become an address's
words: no step compares their number with the ring dimension, and `update_shadow` cuts or pads them.
-/

namespace Haze

namespace World

variable {P M : Type}

section

variable (env : CompilerReplies P) (w : World P M)

/-- The compiler returns values for the output, and its address is live. -/
def Readable (entry : Sigma fun _ : DevAddr => ProbeName) : Prop :=
  (decoded env (taggedOutputs env w) entry).isSome ∧ entry.1 ∈ w.allocator.allocSet

instance (entry : Sigma fun _ : DevAddr => ProbeName) : Decidable (Readable env w entry) :=
  inferInstanceAs (Decidable (_ ∧ _))

/-- The words that an output is stored as: its values, cut or padded to the size of an
allocation. -/
def storedWords (entry : Sigma fun _ : DevAddr => ProbeName) : List UInt64 :=
  ((decoded env (taggedOutputs env w) entry).getD []).takeD w.allocator.wantElems 0

/-- The outputs that the loop stores, those before the first that cannot be read back. -/
def storedOutputs : List (Sigma fun _ : DevAddr => ProbeName) :=
  (outputs env w).takeWhile fun entry => Readable env w entry

/-- A flush gets as far as its outputs: the data format is supported, the epoch is recorded and has
outputs, and the steps before the loop succeed. -/
structure Replayed : Prop where
  format : w.config.unsupportedDataFormat = false
  recording : w.epoch.recording = true
  tagged : ¬ (w.epoch.pendingOutputs = ∅ ∧ w.epoch.pendingMrpGroups = ∅)
  stop : env.stopSucceeds = true
  hook : (w.hookHadError || env.hookFails) = false
  replay : env.replaySucceeds = true

end

section

variable {F : Fhetch P M} {env : CompilerReplies P} {w : World P M}

/-! ## The loop -/

/-- An output that cannot be read back ends the loop, and leaves the allocator as it is. -/
theorem populateShadow_unreadable {outs : List (ProbeName × P)}
    {entry : Sigma fun _ : DevAddr => ProbeName} {v : World P M}
    (hv : capturedOutputs v.compiler = outs)
    (h : ¬ ((decoded env outs entry).isSome ∧ entry.1 ∈ v.allocator.allocSet)) :
    ∃ e u, populateShadow env entry v = (.error e, u) ∧ u.allocator = v.allocator := by
  rcases hr : populateShadow env entry v with ⟨e | ⟨⟩, u⟩
  · refine ⟨e, u, rfl, ?_⟩
    unfold populateShadow at hr
    rw [Expected.get_bind_run] at hr
    -- The three ways of failing, before anything is written.
    rcases hresult : env.result (capturedOutputs v.compiler) entry.2 with _ | poly
    · rw [hresult] at hr
      cases hr
      rfl
    rcases hvalues : env.extractPolynomialValues poly entry.2 with _ | values
    · rw [hresult] at hr
      dsimp only at hr
      rw [hvalues] at hr
      cases hr
      rfl
    rw [hresult] at hr
    dsimp only at hr
    rw [hvalues] at hr
    dsimp only at hr
    rw [Expected.attempt_bind_run, onAllocator, Expected.zoom_run, DeviceAllocator.updateShadow] at hr
    split_ifs at hr with hlive
    · cases hr
    · cases hr
      rfl
  · obtain ⟨hd, hlive, -⟩ := (populateShadow_ok hv).mp hr
    exact absurd ⟨hd, hlive⟩ h

/-- The loop over the outputs stores those before the first that cannot be read back, and succeeds
when there is none. -/
theorem forEach_populateShadow {v : World P M}
    (hv : capturedOutputs v.compiler = taggedOutputs env w)
    (hlive : v.allocator.allocSet = w.allocator.allocSet) :
    (Expected.forEach (populateShadow env) (outputs env w) v).2.allocator =
        populated env (taggedOutputs env w) (storedOutputs env w) v.allocator ∧
      ((Expected.forEach (populateShadow env) (outputs env w) v).1 = .ok () ↔
        ∀ entry ∈ outputs env w, Readable env w entry) := by
  -- As long as outputs can be read, each round stores one.
  let store : World P M → (Sigma fun _ : DevAddr => ProbeName) → World P M := fun v entry =>
    { v with allocator := populate env (taggedOutputs env w) v.allocator entry }
  let Before : World P M → Prop := fun v => capturedOutputs v.compiler = taggedOutputs env w ∧
    v.allocator.allocSet = w.allocator.allocSet
  have hround : ∀ entry v, Before v → decide (Readable env w entry) = true →
      populateShadow env entry v = (.ok (), store v entry) ∧ Before (store v entry) := by
    intro entry v hb hr
    obtain ⟨hd, ha⟩ := of_decide_eq_true hr
    rw [← hb.2] at ha
    exact ⟨(populateShadow_ok hb.1).mpr ⟨hd, ha, rfl⟩, hb⟩
  have hstored : ∀ (entries : List (Sigma fun _ : DevAddr => ProbeName)) (v : World P M),
      (entries.foldl store v).allocator =
        populated env (taggedOutputs env w) entries v.allocator := by
    intro entries
    induction entries with
    | nil => exact fun v => rfl
    | cons entry entries ih => exact fun v => ih (store v entry)
  -- The loop stops at the first one that cannot be read.
  obtain ⟨hrun, hbefore⟩ := Expected.forEach_dropWhile hround (outputs env w) (s := v)
    ⟨hv, hlive⟩
  rw [hrun]
  rcases hrest : (outputs env w).dropWhile fun entry => Readable env w entry with _ | ⟨entry, rest⟩
  · refine ⟨hstored _ v, iff_of_true rfl fun entry he => ?_⟩
    exact of_decide_eq_true (List.dropWhile_eq_nil_iff.mp hrest entry he)
  · -- The first element of the rest is the output that ends the loop.
    have hentry : ¬ Readable env w entry := by
      have hne := List.head_dropWhile_not (fun entry => decide (Readable env w entry))
        (l := outputs env w) (hrest ▸ List.cons_ne_nil _ _)
      simp only [hrest, List.head_cons, decide_eq_false_iff_not] at hne
      exact hne
    have hmem : entry ∈ outputs env w :=
      (List.dropWhile_suffix _).mem (hrest ▸ List.mem_cons_self ..)
    have hdead : ¬ ((decoded env (taggedOutputs env w) entry).isSome ∧ entry.1 ∈
        (((outputs env w).takeWhile fun entry => Readable env w entry).foldl store
          v).allocator.allocSet) := by
      rw [hbefore.2]
      exact hentry
    obtain ⟨e, u, hfail, hu⟩ := populateShadow_unreadable hbefore.1 hdead
    rw [Expected.forEach_cons, Expected.bind_run_error hfail]
    refine ⟨hu.trans (hstored _ v), iff_of_false ?_ fun h => hentry (h entry hmem)⟩
    exact fun h => nomatch h

/-! ## The flush -/

/-- A flush that does not get as far as its outputs leaves the allocator as it is. It succeeds where
the epoch is not recorded or has no outputs. -/
theorem flush_unreplayed (hc : w.epoch.Consistent) (h : ¬ Replayed env w) :
    (hazeFlush F env w).2.allocator = w.allocator ∧
      ((hazeFlush F env w).1.code = .success → w.epoch.recording = true →
        w.epoch.pendingOutputs = ∅) := by
  -- A flush that fails leaves the words.
  have hfails : ∀ {e : HazeInternalError} {v : World P M}, flush F env w = (.error e, v) →
      v.allocator = w.allocator → (hazeFlush F env w).2.allocator = w.allocator ∧
        ((hazeFlush F env w).1.code = .success → w.epoch.recording = true →
          w.epoch.pendingOutputs = ∅) := by
    intro e v hrun hv
    unfold hazeFlush Shim.setInternalResult Shim.replyWith
    rw [hrun]
    exact ⟨hv, fun hsuccess => absurd hsuccess (toPublicError_ne_success e)⟩
  -- So does one that succeeds without a replay.
  have hsucceeds : ∀ {v : World P M}, flush F env w = (.ok (), v) → v.allocator = w.allocator →
      (w.epoch.recording = true → w.epoch.pendingOutputs = ∅) →
      (hazeFlush F env w).2.allocator = w.allocator ∧
        ((hazeFlush F env w).1.code = .success → w.epoch.recording = true →
          w.epoch.pendingOutputs = ∅) := by
    intro v hrun hv hpending
    unfold hazeFlush Shim.setInternalResult Shim.replyWith
    rw [hrun]
    exact ⟨hv, fun _ => hpending⟩
  have hflush : flush F env w = if w.config.unsupportedDataFormat then
      (.error .unsupportedDataFormat, w) else finalizeLocked F env true w := by
    unfold flush
    rw [Expected.get_bind_run]
    split_ifs <;> rfl
  -- The checks in the order of the source.
  by_cases hformat : w.config.unsupportedDataFormat = true
  · exact hfails (hflush.trans (if_pos hformat)) rfl
  rw [if_neg hformat] at hflush
  rw [Bool.not_eq_true] at hformat
  rcases hrec : w.epoch.recording
  · refine hrec ▸ hsucceeds (hflush.trans (finalize_idle true hrec)) rfl fun h => ?_
    exact absurd (hrec.symm.trans h) Bool.false_ne_true
  by_cases htagged : w.epoch.pendingOutputs = ∅ ∧ w.epoch.pendingMrpGroups = ∅
  · exact hrec ▸ hsucceeds (hflush.trans (finalize_drops true hrec htagged)) rfl fun _ => htagged.1
  rw [finalize_run true hc hrec htagged,
    doMaterialize_run (w := { w with compiler := w.compiler ++ tagCalls F env w }) true hrec]
    at hflush
  split_ifs at hflush with hstop hhook hfalse hreplay
  · exact hrec ▸ hfails hflush rfl
  · exact hrec ▸ hfails hflush rfl
  · exact hfalse.elim
  · exact hrec ▸ hfails hflush rfl
  · rw [Bool.not_eq_false] at hstop hreplay
    rw [Bool.not_eq_true] at hhook
    exact absurd ⟨hformat, hrec, htagged, hstop, hhook, hreplay⟩ h

/-- The words that a flush changes are those of the outputs before the first that cannot be read
back, and it succeeds when there is none. -/
theorem flush_stores (hw : w.Reachable F) (h : Replayed env w) :
    (hazeFlush F env w).2.allocator =
        populated env (taggedOutputs env w) (storedOutputs env w) w.allocator ∧
      ((hazeFlush F env w).1.code = .success ↔ ∀ entry ∈ outputs env w, Readable env w entry) := by
  -- The state after the replay has the captures of the tagged outputs.
  let v : World P M := { w with
    compiler := w.compiler ++ tagCalls F env w ++ [.stop] ++ [.replay], hookHadError := false }
  have hrun : finalizeLocked F env true w =
      (Expected.forEach (populateShadow env) (outputs env w) >>= fun _ =>
        Expected.modify clearStateLocked : Method P M Unit) v := by
    rw [finalize_run true hw.inv.epoch.consistent h.recording h.tagged,
      doMaterialize_run (w := { w with compiler := w.compiler ++ tagCalls F env w }) true h.recording,
      h.stop, h.replay]
    dsimp only
    rw [h.hook]
    rfl
  have hcap : capturedOutputs v.compiler = taggedOutputs env w := by
    change capturedOutputs (w.compiler ++ tagCalls F env w ++ [.stop] ++ [.replay]) = _
    rw [capturedOutputs_append, capturedOutputs_append]
    exact captured_tagCalls hw.captured
  obtain ⟨hallocator, hcode⟩ := forEach_populateShadow (w := w) (v := v) hcap rfl
  rw [hazeFlush_run h.format]
  unfold Shim.setInternalResult Shim.replyWith
  rw [hrun, ← hallocator, ← hcode]
  -- The loop fails or goes on, and the state is cleared either way.
  rcases hloop : Expected.forEach (populateShadow env) (outputs env w) v with ⟨e | ⟨⟩, u⟩
  · rw [Expected.bind_run_error hloop]
    exact ⟨rfl, iff_of_false (toPublicError_ne_success e) fun h => nomatch h⟩
  · rw [Expected.bind_run_ok hloop]
    exact ⟨rfl, iff_of_true rfl rfl⟩

/-- The words of a stored output after the flush. -/
theorem shadow_storedOutput (hw : w.Reachable F) (h : Replayed env w)
    {entry : Sigma fun _ : DevAddr => ProbeName} (he : entry ∈ storedOutputs env w) :
    (hazeFlush F env w).2.shadow entry.1 = some (storedWords env w entry) := by
  have hnodup : ((storedOutputs env w).map Sigma.fst).Nodup :=
    (outputs_keys_nodup env w).sublist ((List.takeWhile_sublist _).map _)
  rw [shadow, (flush_stores hw h).1, shadow_populated_of_mem hnodup he]
  rfl

/-- The words of an address that no stored output is tagged at. -/
theorem shadow_unstored (hw : w.Reachable F) (h : Replayed env w) {a : DevAddr}
    (ha : ∀ entry ∈ storedOutputs env w, a ≠ entry.1) :
    (hazeFlush F env w).2.shadow a = w.shadow a := by
  rw [shadow, (flush_stores hw h).1, shadow_populated_of_notMem ha]
  rfl

/-! ## All or nothing -/

/-- A flush that fails changes no words exactly when it does not get as far as its outputs, or every
output is read back, or what is stored before the first that is not is what the addresses hold. -/
theorem flush_allOrNothing (hw : w.Reachable F) :
    ((hazeFlush F env w).1.code ≠ .success → ∀ a, (hazeFlush F env w).2.shadow a = w.shadow a) ↔
      (Replayed env w → (∀ entry ∈ outputs env w, Readable env w entry) ∨
        ∀ entry ∈ storedOutputs env w, w.shadow entry.1 = some (storedWords env w entry)) := by
  constructor
  · intro h hreplayed
    -- A failed flush stores a beginning of the outputs, so these had their words before.
    by_cases hall : ∀ entry ∈ outputs env w, Readable env w entry
    · exact .inl hall
    · have hfails : (hazeFlush F env w).1.code ≠ .success := fun hcode =>
        hall ((flush_stores hw hreplayed).2.mp hcode)
      refine .inr fun entry he => ?_
      rw [← h hfails entry.1]
      exact shadow_storedOutput hw hreplayed he
  · intro h hfails a
    by_cases hreplayed : Replayed env w
    · rcases h hreplayed with hall | hsame
      · exact absurd ((flush_stores hw hreplayed).2.mpr hall) hfails
      -- An address is among the stored ones, or keeps its words anyway.
      by_cases ha : ∃ entry ∈ storedOutputs env w, a = entry.1
      · obtain ⟨entry, he, rfl⟩ := ha
        rw [hsame entry he]
        exact shadow_storedOutput hw hreplayed he
      · exact shadow_unstored hw hreplayed fun entry he heq => ha ⟨entry, he, heq⟩
    · have hsame : (hazeFlush F env w).2.allocator = w.allocator :=
        (flush_unreplayed hw.inv.epoch.consistent hreplayed).1
      rw [shadow, hsame]
      rfl

/-! ## Values of the wrong length -/

/-- The values that the compiler returns for an output are not one for each component. -/
def WrongLength (env : CompilerReplies P) (w : World P M)
    (entry : Sigma fun _ : DevAddr => ProbeName) : Prop :=
  ∃ values, decoded env (taggedOutputs env w) entry = some values ∧
    values.length ≠ w.config.ringDim.toNat

/-- A flush that reads back values of the wrong length fails, and the words of their address
stay. -/
def RejectsWrongLength (F : Fhetch P M) (env : CompilerReplies P) (w : World P M) : Prop :=
  Replayed env w → ∀ entry ∈ outputs env w, WrongLength env w entry →
    (hazeFlush F env w).1.code ≠ .success ∧
      (hazeFlush F env w).2.shadow entry.1 = w.shadow entry.1

/-- Values of the wrong length are rejected exactly when, beside each output that has them, some
output cannot be read back, and that one comes first or the address holds these words already. -/
theorem flush_wrongLength (hw : w.Reachable F) :
    RejectsWrongLength F env w ↔
      (Replayed env w → ∀ entry ∈ outputs env w, WrongLength env w entry →
        (∃ other ∈ outputs env w, ¬ Readable env w other) ∧
          (entry ∈ storedOutputs env w → w.shadow entry.1 = some (storedWords env w entry))) := by
  refine forall_congr' fun h => ?_
  have hfails : (hazeFlush F env w).1.code ≠ .success ↔
      ∃ other ∈ outputs env w, ¬ Readable env w other := by
    rw [Ne, (flush_stores hw h).2]
    push Not
    rfl
  refine forall_congr' fun entry => imp_congr_right fun he => imp_congr_right fun _ =>
    and_congr hfails ?_
  by_cases hstored : entry ∈ storedOutputs env w
  · rw [shadow_storedOutput hw h hstored]
    exact ⟨fun heq _ => heq.symm, fun heq => (heq hstored).symm⟩
  · refine iff_of_true (shadow_unstored hw h fun other ho heq => ?_) fun h => absurd h hstored
    -- The addresses of the outputs are distinct, so that the stored one would be `entry`.
    have hout : other ∈ outputs env w := (List.takeWhile_sublist _).mem ho
    exact hstored (List.inj_on_of_nodup_map (outputs_keys_nodup env w) he hout heq ▸ ho)

end

end World

open World

/-! ## A group of which one residue is missing -/

/-- A compiler that returns every output but one. -/
def missing (output : ProbeName) : CompilerReplies UInt64 :=
  { scalarReplies with
    result := fun outputs name => if name = output then none else scalarReplies.result outputs name }

/-- When the residue that is read back first is missing, the flush fails and changes nothing. -/
theorem flush_allOrNothing_example :
    (hazeFlush scalarRing (missing (.hazeOut 1)) pairTagged).1.code = .internal ∧
      ∀ a, (hazeFlush scalarRing (missing (.hazeOut 1)) pairTagged).2.shadow a =
        pairTagged.shadow a :=
  ⟨by decide +kernel, (flush_allOrNothing (w := pairTagged) ⟨_, rfl⟩).mpr
    (fun _ => .inr (by decide +kernel)) (by decide +kernel)⟩

/-- When it is the residue that is read back last, the flush fails and leaves this one with its old
value and the other with its new one. -/
theorem flush_allOrNothing_counterexample :
    pairTagged.Reachable scalarRing ∧
      (hazeFlush scalarRing (missing (.hazeOut 0)) pairTagged).1.code = .internal ∧
      pairTagged.shadow ⟨kHbmBase⟩ = some [5] ∧ pairTagged.shadow ⟨kHbmBase + 8⟩ = some [6] ∧
      (hazeFlush scalarRing (missing (.hazeOut 0)) pairTagged).2.shadow ⟨kHbmBase⟩ = some [5] ∧
      (hazeFlush scalarRing (missing (.hazeOut 0)) pairTagged).2.shadow ⟨kHbmBase + 8⟩ = some [12] :=
  ⟨⟨_, rfl⟩, by decide +kernel, by decide +kernel, by decide +kernel, by decide +kernel,
    by decide +kernel⟩

/-! ## A result that is too long -/

/-- A compiler that returns two values for a polynomial with one component. -/
def twoValues : CompilerReplies UInt64 := { scalarReplies with savedValues := fun _ _ => some [7, 9] }

/-- Values of the right length are stored. -/
theorem flush_wrongLength_example : RejectsWrongLength scalarRing scalarReplies taggedUpload :=
  (flush_wrongLength (w := taggedUpload) ⟨_, rfl⟩).mpr fun _ entry he hwrong => by
    have hlength : ∀ entry ∈ outputs scalarReplies taggedUpload, ∀ values ∈
        decoded scalarReplies (taggedOutputs scalarReplies taggedUpload) entry,
        values.length = taggedUpload.config.ringDim.toNat := by decide +kernel
    obtain ⟨values, hvalues, hne⟩ := hwrong
    exact absurd (hlength entry he values hvalues) hne

/-- The flush succeeds with two values for one component, and the first of them is copied to the
host. -/
theorem flush_wrongLength_counterexample :
    taggedUpload.Reachable scalarRing ∧ ¬ RejectsWrongLength scalarRing twoValues taggedUpload ∧
      (hazeFlush scalarRing twoValues taggedUpload).1.code = .success ∧
      (hazeMemcpy scalarRing twoValues (.deviceToHost true ⟨kHbmBase⟩) 8
        (hazeFlush scalarRing twoValues taggedUpload).2).1.bytes = [[7, 0, 0, 0, 0, 0, 0, 0]] := by
  refine ⟨⟨_, rfl⟩, fun h => ?_, by decide +kernel, by decide +kernel⟩
  have hreplayed : Replayed twoValues taggedUpload :=
    ⟨by decide +kernel, by decide +kernel, by decide +kernel, rfl, by decide +kernel, rfl⟩
  have hout : (⟨⟨kHbmBase⟩, .hazeOut 0⟩ : Sigma fun _ : DevAddr => ProbeName) ∈
      outputs twoValues taggedUpload := by decide +kernel
  exact (h hreplayed _ hout ⟨[7, 9], by decide +kernel, by decide +kernel⟩).1 (by decide +kernel)

end Haze
