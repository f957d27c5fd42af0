import Haze.Epoch.Journal
import Haze.Runtime.Finalize
import Haze.Runtime.Recording

/-!
# The events of the public calls

Each public call goes through a plan of events, known from its arguments and the state that it is
made in, up to the first reference to an address that is neither bound nor has words. So the epoch
after every program is what the journal says that was kept along the program's events.
-/

namespace Haze

variable {P M : Type}

open World (takePtrs)

namespace World

/-- The code of a call that stopped for a reason, or did not. -/
def replyCode : Option HazeInternalError → HazeError
  | none => .success
  | some e => toPublicError e

/-- Why the words of an unbound address cannot be taken for it, if they cannot. -/
def wordsError (w : World P M) (a : DevAddr) : Option HazeInternalError :=
  match DeviceAllocator.components a w.config.ringDim w.allocator with
  | .ok _ => none
  | .error e => some (if e = .noData then .sourceUnavailable else e)

/-- The events that calls go through in this state. -/
def machine (w : World P M) : EventMachine Journal EpochEvent HazeInternalError :=
  Journal.machine w.wordsError

/-- The events of an upload. The words that were copied are read back as a polynomial of the ring
dimension, which fails where there is none or where its size in bytes wraps. -/
def uploadEvents (w : World P M) (residues : List (DevAddr × Option (List UInt8)))
    (count : UInt64) : List EpochEvent :=
  if residues.all (fun r => r.2.isSome && (w.allocator.checkRange r.1 count).isOk) ∧
      w.config.ringDim ≠ 0 ∧ w.config.ringDim.toNat < 2^61
  then residues.map (.upload ·.1) else []

end World

/-- The events of a multi-residue source. -/
def resolveEvents (src : List DevAddr) (base : List UInt64) : List EpochEvent :=
  (takePtrs base.length src).map .resolve

/-- The registration of the destinations of a write; a single residue is no group. -/
def groupEvents (addrs : List DevAddr) (base : List UInt64) : List EpochEvent :=
  if 1 < base.length then [.register addrs base] else []

/-- The events of a multi-residue write. -/
def writeEvents (write : List DevAddr × List UInt64) : List EpochEvent :=
  (write.1.zip write.2).map (fun r => .compute r.1 r.2) ++ groupEvents write.1 write.2

/-- The events of a multi-residue copy. -/
def copyEvents (dst src : List DevAddr) (base : List UInt64) : List EpochEvent :=
  (((takePtrs base.length dst).zip (takePtrs base.length src)).zip base).flatMap
      (fun r => [.resolve r.1.2, .copy r.1.1 r.1.2 r.2]) ++
    groupEvents (takePtrs base.length dst) base

/-- The events of a basis conversion, whose parameters are checked first. -/
def conversionEvents (srcBase : Except HazeInternalError (List UInt64)) (src : List DevAddr)
    (writes : List (List DevAddr × List UInt64)) : List EpochEvent :=
  match srcBase with
  | .ok base => resolveEvents src base ++ writes.flatMap writeEvents
  | .error _ => []

/-- The plan of a call. -/
def Call.events (w : World P M) : Call → List EpochEvent
  | .free ptr => if ptr = .null then [] else [.invalidate ptr]
  | .freeMrp (some ptrs) count => if count > kMaxCiphertextModuli then [] else
    ((takePtrs count.toNat ptrs).filter (· ≠ .null)).map .invalidate
  | .memset devPtr _ count =>
    if devPtr ≠ .null ∧ (w.allocator.checkRange devPtr count).isOk then [.invalidate devPtr] else []
  | .memcpy (.hostToDevice dst src) count =>
    if dst = .null then [] else w.uploadEvents [(dst, src)] count
  | .memcpy (.deviceToDevice dst src) _ =>
    if dst = .null ∨ src = .null then [] else [.resolve src, .copy dst src kCopyModulus]
  | .memcpyMrp (.hostToDevice (some dst) (some src)) count (some base) =>
    w.uploadEvents ((takePtrs base.length dst).zip (src.takeD base.length none)) count
  | .memcpyMrp (.deviceToDevice (some dst) (some src)) _ (some base) => copyEvents dst src base
  | .pp _ dst src1 src2 modIdx =>
    if dst = .null ∨ src1 = .null ∨ src2 = .null ∨ w.config.modulus modIdx = 0 then [] else
      [.resolve src1, .resolve src2, .compute dst (w.config.modulus modIdx)]
  | .ps _ dst src _ modIdx =>
    if dst = .null ∨ src = .null ∨ w.config.modulus modIdx = 0 then [] else
      [.resolve src, .compute dst (w.config.modulus modIdx)]
  | .transform _ dst src modIdx =>
    if dst = .null ∨ src = .null ∨ w.config.modulus modIdx = 0 then [] else
      [.resolve src, .compute dst (w.config.modulus modIdx)]
  | .automorph dst src _ => if dst = .null ∨ src = .null then [] else [.resolve src, .rotate dst src]
  | .ppMrp _ (some dst) (some src1) (some src2) (some base) =>
    resolveEvents src1 base ++ resolveEvents src2 base ++
      writeEvents (takePtrs base.length dst, base)
  | .psMrp _ (some dst) (some src) (some _) (some base) =>
    resolveEvents src base ++ writeEvents (takePtrs base.length dst, base)
  | .transformMrp _ (some dst) (some src) (some base) =>
    resolveEvents src base ++ writeEvents (takePtrs base.length dst, base)
  | .indexMrp _ (some dst) (some src) _ (some base) =>
    resolveEvents src base ++ writeEvents (takePtrs base.length dst, base)
  | .basisConvert (some dst) (some src) (some p) =>
    conversionEvents (p.validate.map Prod.fst) src (p.writes dst)
  | .modDown (some dst) (some src) (some p) =>
    conversionEvents (p.validate.map Prod.fst) src (p.writes dst)
  | .modUp (some dst) (some src) (some p) =>
    conversionEvents (p.validate.map Prod.fst) src (p.writes dst)
  | .tagOutput ptr => if ptr = .null then [] else [.tag ptr]
  | .flush => if w.epoch.recording && !w.config.unsupportedDataFormat then [.clear] else []
  | .writeProgram => if w.epoch.recording then [.clear] else []
  | .deviceReset => [.clear]
  | _ => []

/-- The events of a call that happen: those of its plan up to the first reference to an address that
is neither bound nor has words. -/
def Invocation.events (w : World P M) (i : Invocation P) : List EpochEvent :=
  w.machine.performed w.epoch.journal (i.call.events w)

namespace Journal

/-- The journal after an invocation. -/
def after (w : World P M) (l : Journal) (i : Invocation P) : Journal :=
  (i.events w).foldl Journal.apply l

/-- The journal after a program. -/
def runAll (F : Fhetch P M) : World P M → Journal → List (Invocation P) → Journal
  | _, l, [] => l
  | w, l, i :: is => runAll F (w.after F i) (l.after w i) is

end Journal

namespace World

/-! ## Resolving an address -/

/-- The state is what the journal says, under a configuration; `words` says why the unbound
addresses cannot be resolved, if they cannot. -/
structure Journaled (c : Config) (words : DevAddr → Option HazeInternalError) (w : World P M)
    (l : Journal) : Prop where
  config : w.config = c
  records : w.epoch.Records l
  words : ∀ a, l.cell a = none → w.wordsError a = words a

section

variable {F : Fhetch P M} {c : Config} {words : DevAddr → Option HazeInternalError}
  {w : World P M} {l : Journal}

/-- Words cause no error when they are components. -/
theorem wordsError_eq_none {a : DevAddr} : w.wordsError a = none ↔
    ∃ values, DeviceAllocator.components a w.config.ringDim w.allocator = .ok values := by
  unfold wordsError
  rcases DeviceAllocator.components a w.config.ringDim w.allocator with e | values <;> simp

/-- Taking words out of the allocator leaves the words of the other addresses. -/
theorem wordsError_evict {a b : DevAddr} (hab : b ≠ a) :
    ({ w with allocator := w.allocator.act (.evict a) } : World P M).wordsError b =
      w.wordsError b := by
  have hshadow : (w.allocator.act (.evict a)).shadow b = w.allocator.shadow b := by
    rw [shadow_allocator_act]
    exact if_neg hab
  unfold wordsError DeviceAllocator.components
  dsimp only
  rw [hshadow]
  rfl

/-- A change of the epoch and of the calls made, which the journal follows. -/
theorem Journaled.epoch (h : w.Journaled c words l) {s : EpochState P} {l' : Journal}
    (hs : s.Records l') (hcell : ∀ a, l'.cell a = none → l.cell a = none)
    (cs : List (CompilerCall P M)) :
    ({ w with epoch := s, compiler := cs } : World P M).Journaled c words l' where
  config := h.config
  records := hs
  words a ha := h.words a (hcell a ha)

/-- Opening a session is not seen in the journal. -/
theorem Journaled.session (h : w.Journaled c words l) (env : CompilerReplies P) :
    (w.act F (.session env)).Journaled c words l := by
  obtain ⟨recording, initialized, cs, -, he⟩ := session_frame (F := F) env w
  rw [he]
  exact ⟨h.config, h.records.frame recording w.epoch.mrpInputTaggedNames, h.words⟩

/-- The relation of a method to the journal, whatever it does to the rest of the state. A method
that fails may drop the words of the address that it failed on. -/
abbrev Goes (c : Config) (words : DevAddr → Option HazeInternalError) {α : Type}
    (es : List EpochEvent) (x : Method P M α) : Prop :=
  Expected.Follows (Journal.machine words) (Journaled c words) (fun w l => w.epoch.Records l) es x

/-- A reference to an address follows its event. -/
theorem lookup_follows (a : DevAddr) : Goes c words [.resolve a] (lookupOrCreateLocked F a) := by
  intro w l h
  have hrefuse : (Journal.machine words).refuse l (.resolve a) =
      if (l.cell a).isSome then none else words a := rfl
  -- An address that is not bound is looked for among the words; one that is bound is returned.
  rcases hb : w.binding a with _ | poly
  · have hunbound : a ∉ w.epoch.polyMap := fun hm => mem_polyMap.mp hm hb
    have hcell := h.records.unbound_iff.mpr hunbound
    have hwords := h.words a hcell
    rw [if_neg (by rw [hcell]; exact Bool.noConfusion), ← hwords, wordsError] at hrefuse
    -- Words that cannot be read are the refusal, and they may have been taken away.
    rcases hc : DeviceAllocator.components a w.config.ringDim w.allocator with e | values <;>
      rw [hc] at hrefuse
    · rw [lookup_fails (F := F) hb hc]
      refine ⟨EventMachine.refusal_cons_refused _ hrefuse, ?_⟩
      rw [EventMachine.performed_cons_refused _ hrefuse]
      split_ifs
      · exact h.records
      · exact h.records
    -- Those that can be read become an input.
    · rw [lookup_promotes hb hc]
      refine ⟨(EventMachine.refusal_singleton ..).trans hrefuse, h.config,
        h.records.bindInput hunbound _, fun b hbcell => ?_⟩
      change (l.resolve a).cell b = none at hbcell
      rw [Journal.cell_resolve] at hbcell
      split_ifs at hbcell with hba
      exact (wordsError_evict hba).trans (h.words b hbcell)
  · have hbound : a ∈ w.epoch.polyMap := mem_polyMap.mpr (hb ▸ Option.some_ne_none poly)
    rw [if_pos (h.records.bound_iff.mpr hbound)] at hrefuse
    rw [lookup_bound hb]
    refine ⟨(EventMachine.refusal_singleton ..).trans hrefuse, ?_⟩
    change w.Journaled c words (l.resolve a)
    rw [h.records.resolve_bound hbound]
    exact h

/-! ## Sources -/

/-- Tagging a multi-residue input goes through no events. -/
theorem tagMrpInput_goes (output : Bool) {leading : DevAddr} (mrp : M) (h : w.Journaled c words l)
    (hleading : leading ∈ w.epoch.polyMap) :
    Expected.Reaches (Journal.machine words) (Journaled c words) (fun w l => w.epoch.Records l) [] l
      ((onEpoch (EpochState.mrpGroupNameLocked output leading) >>= fun name =>
        tagMrpInputIfNewLocked name mrp >>= fun _ => pure mrp) w) := by
  -- The name is that of the leading address, old or new.
  obtain ⟨name, hname⟩ : ∃ name, (EpochState.mrpGroupNameLocked output leading w.epoch).1 =
      .ok name := by
    unfold EpochState.mrpGroupNameLocked
    split_ifs
    · rcases AList.lookup leading w.epoch.mrpOutNames with _ | name
      · exact ⟨_, rfl⟩
      · exact ⟨_, rfl⟩
    · rcases AList.lookup leading w.epoch.mrpInNames with _ | name
      · exact ⟨_, rfl⟩
      · exact ⟨_, rfl⟩
  have hnamed := h.records.nameGroup output hleading
  have hrun : onEpoch (EpochState.mrpGroupNameLocked output leading) w =
      (.ok name, { w with epoch := w.epoch.act (.nameGroup output leading) }) := by
    rw [onEpoch, Expected.zoom_run, hname]
    rfl
  rw [Expected.bind_run_ok hrun]
  unfold tagMrpInputIfNewLocked
  generalize w.epoch.act (.nameGroup output leading) = s at hnamed
  -- A name is announced once.
  by_cases hmem : name ∈ s.mrpInputTaggedNames
  · rw [Expected.bind_run_ok (a := ()) (by rw [Expected.get_bind_run, if_pos hmem]; rfl)]
    exact ⟨rfl, h.epoch hnamed (fun _ ha => ha) w.compiler⟩
  · have hframe := hnamed.frame s.recording (insert name s.mrpInputTaggedNames)
    have hjournaled := h.epoch hframe (fun _ ha => ha) (w.compiler ++ [.tagInputMrp name mrp])
    rw [Expected.bind_run_ok (a := ()) (by rw [Expected.get_bind_run, if_neg hmem]; rfl)]
    exact ⟨rfl, hjournaled⟩

/-- A multi-residue source goes through a reference to each of its residues. -/
theorem buildMrp_goes (src : List DevAddr) (base : List UInt64) :
    Goes c words (resolveEvents src base) (buildMrpLocked F src base) := by
  have hresidues : Goes (M := M) c words
      (((takePtrs base.length src).zip base).flatMap fun r => [.resolve r.1])
      (Expected.mapEach (lookupResidue F) ((takePtrs base.length src).zip base)) :=
    .mapEach fun r _ => .bind (lookup_follows r.1) fun poly _ _ _ => .pure (poly, r.2)
  have hevents : ((takePtrs base.length src).zip base).flatMap (fun r => [EpochEvent.resolve r.1]) ++
      [] = resolveEvents src base := by
    rw [List.append_nil, resolveEvents, ← List.map_eq_flatMap]
    conv_rhs => rw [← map_fst_zip_takePtrs base src, List.map_map]
    rfl
  rw [← hevents]
  refine .bind hresidues fun pairs _ _ _ => ?_
  intro w l h
  rw [Expected.get_bind_run]
  split_ifs with hinput
  · exact tagMrpInput_goes false _ h (h.records.valid.consistent.input_bound _ hinput.2)
  · exact ⟨rfl, h⟩

/-! ## Destinations -/

/-- Binding residues goes through a computation into each. -/
theorem storeResidues_records {s : EpochState P} (h : s.Records l) (mrp : M)
    (residues : List (DevAddr × UInt64)) :
    (storeResidues F mrp residues s).Records
      ((Journal.machine words).after l (residues.map fun r => .compute r.1 r.2)) := by
  induction residues generalizing s l with
  | nil => exact h
  | cons r rs ih => exact ih (h.store r.1 _ r.2 r.2)

/-- Computations unbind no address of the journal. -/
theorem cell_after_computes (residues : List (DevAddr × UInt64)) (a : DevAddr)
    (h : ((Journal.machine words).after l (residues.map fun r => .compute r.1 r.2)).cell a = none) :
    l.cell a = none := by
  induction residues generalizing l with
  | nil => exact h
  | cons r rs ih =>
    have hset := ih (l := l.set r.1 (.computed r.2 r.2)) h
    unfold Journal.set at hset
    dsimp only at hset
    split_ifs at hset
    exact hset

/-- Registering destinations that are bound goes through the registration. -/
theorem registerGroup_goes {addrs : List DevAddr} {base : List UInt64}
    (hlen : addrs.length = base.length) (h : w.Journaled c words l)
    (hbound : ∀ a ∈ addrs, a ∈ w.epoch.polyMap) :
    ∃ w', registerGroup addrs base w = (.ok (), w') ∧
      w'.Journaled c words ((Journal.machine words).after l (groupEvents addrs base)) := by
  unfold groupEvents
  split_ifs with hlong
  · obtain ⟨s, name, rfl, hissued, hrun⟩ := registerGroup_run hlen hlong hbound
    have hleading : addrs.headD .null ∈ w.epoch.polyMap := by
      rcases addrs with _ | ⟨a, addrs⟩
      · rw [List.length_nil] at hlen
        omega
      · exact hbound a (List.mem_cons_self ..)
    have hnamed := h.records.nameGroup true hleading
    exact ⟨_, hrun, h.epoch (hnamed.register hissued) (fun _ ha => ha) w.compiler⟩
  · refine ⟨w, ?_, h⟩
    unfold registerGroup
    rw [if_neg hlong]
    rfl

/-- Registering a group is never refused. -/
theorem groupEvents_possible (addrs : List DevAddr) (base : List UInt64) (l : Journal) :
    (Journal.machine words).Completes l (groupEvents addrs base) := by
  unfold groupEvents
  split_ifs <;> rfl

/-- Nor is writing one. -/
theorem writeEvents_possible (write : List DevAddr × List UInt64) (l : Journal) :
    (Journal.machine words).Completes l (writeEvents write) := by
  refine EventMachine.completes_append _ |>.mpr ⟨?_, groupEvents_possible _ _ _⟩
  refine EventMachine.completes_of_possible _ (fun e he l => ?_) l
  obtain ⟨r, -, rfl⟩ := List.mem_map.mp he
  rfl

/-- A multi-residue write goes through its events. -/
theorem storeMrp_goes (dstPolys : List DevAddr) (mrp : M) {base base' : List UInt64}
    (hbase : base' = base) :
    Goes c words (writeEvents (takePtrs base.length dstPolys, base))
      (storeMrpLocked F dstPolys mrp base') := by
  subst hbase
  refine .of_ok (fun _ l _ => writeEvents_possible _ l) fun w l h => ?_
  have hrun := forEach_storeResidue (F := F) mrp ((takePtrs base'.length dstPolys).zip base') w
  have hstored : (storeResidues F mrp ((takePtrs base'.length dstPolys).zip base')
      w.epoch).Records ((Journal.machine words).after l
        (((takePtrs base'.length dstPolys).zip base').map fun r => .compute r.1 r.2)) :=
    storeResidues_records h.records mrp _
  have hjournaled := h.epoch hstored (cell_after_computes _) w.compiler
  obtain ⟨w', hregister, hw'⟩ := registerGroup_goes (length_takePtrs ..) hjournaled fun a ha =>
    storeResidues_bound (.inr (by rwa [map_fst_zip_takePtrs]))
  refine ⟨(), w', (Expected.bind_run_ok hrun).trans hregister, ?_⟩
  rw [writeEvents, EventMachine.after_append]
  exact hw'

/-! ## Copies -/

/-- The epoch after a copy of a bound source is the journal after the copy. -/
theorem copied_records {s : EpochState P} (h : s.Records l) (d : DevAddr) {src : DevAddr}
    (hsrc : src ∈ s.polyMap) (q : UInt64) (poly : P) :
    (copied F d src q poly s).Records (l.copy d src q) := by
  unfold copied copyModulus Journal.copy
  by_cases hq : q = kCopyModulus
  · -- The modulus recovered from the source, if any, is recorded for it once more.
    rw [if_pos hq, if_pos hq, h.recorded src]
    dsimp only
    split_ifs
    · exact (h.recordModulus_self hsrc).store d _ _ _
    · exact h.store d _ _ _
  · rw [if_neg hq, if_neg hq]
    dsimp only
    rw [if_pos hq]
    exact (h.annotate hsrc q).store d _ q q

/-- A copy leaves no address without a cell that had one. -/
theorem cell_copy {d src a : DevAddr} {q : UInt64} (h : (l.copy d src q).cell a = none) :
    l.cell a = none := by
  unfold Journal.copy Journal.annotate Journal.set at h
  split_ifs at h <;> dsimp only at h <;> split_ifs at h
  · exact h
  · rename_i _ _ ha
    rw [ha]
    exact Option.map_eq_none_iff.mp h
  · exact h

/-- A copy goes through a reference to its source and the copy. -/
theorem copyResult_goes (d src : DevAddr) (q : UInt64) :
    Goes c words [.resolve src, .copy d src q] (copyResultLocked F d src q) := by
  change Goes c words ([.resolve src] ++ [.copy d src q]) _
  refine .bind_run (lookup_follows src) fun poly w w' l hw h => ?_
  obtain ⟨cs, -, he⟩ := copyResult_run (d := d) (q := q) hw
  have hbound := mem_polyMap.mpr ((lookup_binds hw).symm ▸ Option.some_ne_none poly)
  rw [copyResultLocked, Expected.bind_run_ok hw] at he
  rw [he]
  exact ⟨rfl, h.epoch (copied_records h.records d hbound q poly) (fun _ => cell_copy)
    (w'.compiler ++ cs)⟩

/-- Copying residues goes as its events do, and registers the group. -/
theorem copyMrp_goes (d src : List DevAddr) (base : List UInt64) :
    Goes c words (copyEvents d src base) (Expected.forEach (copyResidue F)
      (((takePtrs base.length d).zip (takePtrs base.length src)).zip base) >>= fun _ =>
        registerGroup (takePtrs base.length d) base) := by
  have hcopies : Goes (M := M) c words ((((takePtrs base.length d).zip
      (takePtrs base.length src)).zip base).flatMap fun r =>
        [.resolve r.1.2, .copy r.1.1 r.1.2 r.2]) (Expected.forEach (copyResidue F)
          (((takePtrs base.length d).zip (takePtrs base.length src)).zip base)) :=
    .forEach fun r _ => copyResult_goes r.1.1 r.1.2 r.2
  -- The registration succeeds because the copies have bound the destinations.
  refine hcopies.bind_run fun _ w w' l hrun h => ?_
  obtain ⟨w'', hregister, hw''⟩ := registerGroup_goes (length_takePtrs ..) h (copyResidues_bound hrun)
  rw [hregister]
  exact ⟨groupEvents_possible _ _ l, hw''⟩

/-! ## Uploads -/

/-- An address holds as many words as an allocation has. -/
def Filled (w : World P M) (a : DevAddr) : Prop :=
  ∃ values, w.shadow a = some values ∧ values.length = w.allocator.wantElems

/-- The words of an allocation are those of a polynomial where there is a ring dimension whose size
in bytes does not wrap. -/
theorem components_filled (hw : w.Inv) {a : DevAddr} (ha : w.Filled a) :
    (∃ values, DeviceAllocator.components a w.config.ringDim w.allocator = .ok values) ↔
      w.config.ringDim ≠ 0 ∧ w.config.ringDim.toNat < 2^61 := by
  obtain ⟨values, hs, hlen⟩ := ha
  have hlive : a ∈ w.allocator.allocSet := hw.allocator.shadow_live a (UMap.mem_of_lookup hs)
  obtain ⟨hwant, -⟩ := hw.wantElems
  constructor
  · rintro ⟨values', hc⟩
    obtain ⟨hn, -, hs', hlen'⟩ := components_ok hc
    refine ⟨hn, ?_⟩
    change w.shadow a = some values' at hs'
    rw [hs] at hs'
    cases hs'
    omega
  · rintro ⟨hn, hsmall⟩
    unfold shadow at hs
    refine ⟨values, ?_⟩
    unfold DeviceAllocator.components
    rw [if_neg hn, if_neg (not_not.mpr hlive), if_neg (by rw [hw.size]; exact UInt64.lt_irrefl _), hs]
    exact if_neg (not_not.mpr (by omega))

/-- Copies from the host that all succeed fill their addresses. -/
theorem copyH2dAll_fills {residues : List (DevAddr × Option (List UInt8))} {count : UInt64}
    {w' : World P M} (h : Expected.forEach (fun r =>
      (onAllocator (DeviceAllocator.copyH2d r.1 r.2 count) : Method P M Unit)) residues w =
        (.ok (), w')) : ∀ r ∈ residues, w'.Filled r.1 := by
  -- A copy that succeeds writes one entry, and nothing else.
  have hwrite : ∀ (r : DevAddr × Option (List UInt8)) (v v' : World P M),
      (onAllocator (DeviceAllocator.copyH2d r.1 r.2 count) : Method P M Unit) v = (.ok (), v') →
      ∃ bytes, bytes.length ≤ v.allocator.polyBytes.toNat ∧
        v' = { v with allocator := DeviceAllocator.writeShadow r.1 bytes v.allocator } := by
    rintro ⟨a, src⟩ v v' hrun
    unfold onAllocator DeviceAllocator.copyH2d at hrun
    rw [Expected.zoom_run] at hrun
    rcases src with _ | bytes
    · cases hrun
    dsimp only at hrun
    rcases hc : v.allocator.checkRange a count with e | _
    · rw [Expected.query_bind_error hc] at hrun
      cases hrun
    · rw [Expected.query_bind_ok hc] at hrun
      cases hrun
      refine ⟨bytes.takeD count.toNat 0, ?_, rfl⟩
      rw [List.takeD_length]
      exact UInt64.le_iff_toNat_le.mp (DeviceAllocator.checkRange_ok hc).2
  -- An entry that is written is full, and it stays so under the copies that follow.
  refine Expected.forEach_establishes (Q := fun r v => v.Filled r.1) (fun r v v' hrun => ?_)
    (fun r r' v v' hrun hfilled => ?_) h
  · obtain ⟨bytes, hlen, rfl⟩ := hwrite r v v' hrun
    exact ⟨_, AList.lookup_insert _, DeviceAllocator.length_written hlen⟩
  · obtain ⟨bytes, hlen, rfl⟩ := hwrite r v v' hrun
    obtain ⟨values, hs, hsize⟩ := hfilled
    by_cases hr : r'.1 = r.1
    · rw [hr]
      exact ⟨_, AList.lookup_insert _, DeviceAllocator.length_written hlen⟩
    · exact ⟨values, (AList.lookup_insert_ne hr).trans hs, hsize⟩

/-- The second half of an upload to addresses that were filled: each is bound where its words are
those of a polynomial, and otherwise nothing is. -/
theorem tagFilled_records (hw : w.Inv) (h : w.epoch.Records l) (env : CompilerReplies P)
    {addrs : List DevAddr} (hfilled : ∀ a ∈ addrs, w.Filled a) :
    ((epochSession env >>= fun _ => Expected.forEach (tagH2dInputLocked F) addrs : Method P M Unit)
        w).2.epoch.Records (((if w.config.ringDim ≠ 0 ∧ w.config.ringDim.toNat < 2^61
          then addrs.map .upload else []) : List EpochEvent).foldl Journal.apply l) := by
  obtain ⟨recording, initialized, cs, -, he⟩ := session_frame (F := F) env w
  -- The session opens the recording, which no entry of the journal is about.
  change (Expected.forEach (tagH2dInputLocked F) addrs (w.act F (.session env))).2.epoch.Records _
  have hrecords : (w.act F (.session env)).epoch.Records l := by
    rw [he]
    exact h.frame recording _
  have hallocator : (w.act F (.session env)).allocator = w.allocator := by rw [he]
  have hconfig : (w.act F (.session env)).config = w.config := by rw [he]
  generalize w.act F (.session env) = v at hrecords hallocator hconfig
  clear he h
  -- Full entries can be read exactly where the dimension fits their size.
  have hrun : ∀ a ∈ addrs, (∃ values,
      DeviceAllocator.components a w.config.ringDim w.allocator = .ok values) ↔
        w.config.ringDim ≠ 0 ∧ w.config.ringDim.toNat < 2^61 := fun a ha =>
    components_filled hw (hfilled a ha)
  clear hfilled
  split_ifs with hread
  -- By induction on the addresses, each of which is bound to its words.
  · induction addrs generalizing v l with
    | nil => exact hrecords
    | cons a addrs ih =>
      obtain ⟨values, hc⟩ := (hrun a (List.mem_cons_self ..)).mpr hread
      rw [← hallocator, ← hconfig] at hc
      rw [Expected.forEach_cons, Expected.bind_run_ok (tagH2dInput_binds hc)]
      exact ih _ (hrecords.upload a _) hallocator hconfig
        fun b hb => hrun b (List.mem_cons_of_mem _ hb)
  · -- The first address fails, if there is one.
    rcases addrs with _ | ⟨a, addrs⟩
    · exact hrecords
    rcases hc : DeviceAllocator.components a w.config.ringDim w.allocator with e | values
    · rw [← hallocator, ← hconfig] at hc
      obtain ⟨e', he⟩ := tagH2dInput_fails (F := F) hc
      rw [Expected.forEach_cons, Expected.bind_run_error he]
      exact hrecords
    · exact absurd ((hrun a (List.mem_cons_self ..)).mp ⟨values, hc⟩) hread

/-! ## Operations -/

/-- A session goes through no events. -/
theorem session_goes (F : Fhetch P M) {α : Type} {es : List EpochEvent} (env : CompilerReplies P)
    {x : Method P M α} (hx : Goes c words es x) :
    Goes c words es (epochSession env >>= fun _ => x) := fun w l h =>
  hx (w.act F (.session env)) l (h.session env)

/-- A modulus that the configuration has. -/
theorem resolveModulus_goes {α : Type} {es : List EpochEvent} {modIdx : ℤ}
    {f : UInt64 → Method P M α} (hq : c.modulus modIdx ≠ 0)
    (hf : Goes c words es (f (c.modulus modIdx))) :
    Goes c words es (resolveModulus modIdx >>= f) := by
  intro w l h
  have hrun : resolveModulus modIdx w = (.ok (c.modulus modIdx), w) := by
    unfold resolveModulus
    rw [Expected.get_bind_run, h.config, if_neg hq]
    rfl
  rw [Expected.bind_run_ok hrun]
  exact hf w l h

/-- An index without a modulus ends the call with the session. -/
theorem resolveModulus_none (F : Fhetch P M) {α : Type} {modIdx : ℤ} {f : UInt64 → Method P M α}
    (hq : w.config.modulus modIdx = 0) (env : CompilerReplies P) (h : w.epoch.Records l) :
    ((epochSession env >>= fun _ => resolveModulus modIdx >>= f : Method P M α) w).2.epoch.Records
      l := by
  obtain ⟨recording, initialized, cs, -, he⟩ := session_frame (F := F) env w
  have hrun : resolveModulus modIdx (w.act F (.session env)) =
      (.error .invalidArgument, w.act F (.session env)) := by
    unfold resolveModulus
    rw [Expected.get_bind_run, he, if_pos hq]
    rfl
  change ((resolveModulus modIdx >>= f) (w.act F (.session env))).2.epoch.Records l
  rw [Expected.bind_run_error hrun, he]
  exact h.frame recording _

/-- A store goes as its event does. -/
theorem compute_goes (dst : DevAddr) (poly : P) (q : UInt64) :
    Goes (M := M) c words [.compute dst q]
      (modifyEpoch (EpochState.storeComputeResultLocked dst poly q)) := by
  refine .of_ok (fun _ _ _ => rfl) fun w l h => ⟨(), _, rfl, ?_⟩
  refine h.epoch (h.records.store dst poly q q) (fun a ha => ?_) w.compiler
  unfold Journal.set at ha
  dsimp only at ha
  split_ifs at ha
  exact ha

/-- An operation on two residues looks both up, and stores. -/
theorem binaryPpOp_goes (opFn : P → P → UInt64 → P) (dst src1 src2 : DevAddr) (q : UInt64) :
    Goes c words [.resolve src1, .resolve src2, .compute dst q] (do
      let p1 ← lookupOrCreateLocked F src1
      let p2 ← lookupOrCreateLocked F src2
      modifyEpoch (EpochState.storeComputeResultLocked dst (opFn p1 p2 q) q)) :=
  .bind (lookup_follows src1) fun _ _ _ _ => .bind (lookup_follows src2) fun _ _ _ _ =>
    compute_goes dst _ q

/-- An operation on one looks it up, and stores. -/
theorem unaryPqOp_goes (opFn : P → UInt64 → P) (dst src : DevAddr) (q : UInt64) :
    Goes c words [.resolve src, .compute dst q] (do
      let p ← lookupOrCreateLocked F src
      modifyEpoch (EpochState.storeComputeResultLocked dst (opFn p q) q)) :=
  .bind (lookup_follows src) fun _ _ _ _ => compute_goes dst _ q

/-- An operation with an index looks its source up, and stores under the modulus recorded for it. -/
theorem unaryPiOp_goes (opFn : P → UInt64 → P) (dst src : DevAddr) (index : UInt64) :
    Goes c words [.resolve src, .rotate dst src] (do
      let p ← lookupOrCreateLocked F src
      let w ← Expected.get
      let q := w.epoch.recordedModulusLocked src
      bindModulus [p, opFn p index] q
      modifyEpoch (EpochState.storeComputeResultLocked dst (opFn p index) q)) := by
  refine .bind (lookup_follows src) fun p _ _ _ => ?_
  refine .of_ok (fun _ _ _ => rfl) fun w l h => ?_
  obtain ⟨cs, -, he⟩ := bindModulus_run [p, opFn p index] (w.epoch.recordedModulusLocked src) w
  refine ⟨(), _, Expected.bind_run_ok he, ?_⟩
  have hstore := h.records.store dst (opFn p index) (w.epoch.recordedModulusLocked src)
    (l.provenance src)
  rw [← h.records.recorded src] at hstore ⊢
  refine h.epoch hstore (fun a ha => ?_) (w.compiler ++ cs)
  unfold Journal.set at ha
  dsimp only at ha
  split_ifs at ha
  exact ha

/-- An operation on two lists looks both up, and writes the group. -/
theorem binaryPpOpMrp_goes (env : CompilerReplies P) (opFn : M → M → M)
    (dst src1 src2 : List DevAddr) (base : List UInt64) :
    Goes c words (resolveEvents src1 base ++ resolveEvents src2 base ++
      writeEvents (takePtrs base.length dst, base)) (binaryPpOpMrp F env opFn dst src1 src2 base) := by
  rw [List.append_assoc]
  exact session_goes F env (.bind (buildMrp_goes src1 base) fun _ _ _ _ =>
    .bind (buildMrp_goes src2 base) fun _ _ _ _ => storeMrp_goes dst _ rfl)

/-- An operation on one list looks it up, and writes the group. -/
theorem unaryPOpMrp_goes (env : CompilerReplies P) (opFn : M → M) (dst src : List DevAddr)
    (base : List UInt64) :
    Goes c words (resolveEvents src base ++ writeEvents (takePtrs base.length dst, base))
      (unaryPOpMrp F env opFn dst src base) :=
  session_goes F env
    (.bind (buildMrp_goes src base) fun _ _ _ _ => storeMrp_goes dst _ rfl)

/-! ## Basis conversion -/

/-- The events of one write are those of the list of it. -/
theorem flatMap_writeEvents_single (write : List DevAddr × List UInt64) :
    [write].flatMap writeEvents = writeEvents write :=
  List.flatMap_singleton ..

/-- A conversion that is accepted looks its sources up, and writes the group over the new base. -/
theorem basisConvert_goes (env : CompilerReplies P) (dst src : List DevAddr)
    {p : BasisConvertParams} {srcBase dstBase : List UInt64}
    (hp : p.validate = .ok (srcBase, dstBase)) :
    Goes c words (resolveEvents src srcBase ++ (p.writes dst).flatMap writeEvents)
      (basisConvert F env dst src p) := by
  unfold BasisConvertParams.writes basisConvert
  rw [hp]
  dsimp only
  rw [flatMap_writeEvents_single]
  exact .query_bind (session_goes F env (.bind (buildMrp_goes src srcBase) fun _ _ _ _ =>
    .get_bind fun _ => storeMrp_goes dst _ rfl))

/-- A rescaling that is accepted looks its sources up, and writes the group of what is kept. -/
theorem modDown_goes (hF : F.LawfulBase) (env : CompilerReplies P) (dst src : List DevAddr)
    {p : ModDownParams} {srcBase rescaleBase : List UInt64}
    (hp : p.validate = .ok (srcBase, rescaleBase)) :
    Goes c words (resolveEvents src srcBase ++ (p.writes dst).flatMap writeEvents)
      (modDown F env dst src p) := by
  unfold ModDownParams.writes modDown
  rw [hp]
  dsimp only
  rw [flatMap_writeEvents_single]
  refine .query_bind (session_goes F env (.bind (buildMrp_goes src srcBase) fun m v v' hm => ?_))
  obtain ⟨pairs, rfl, hpairs⟩ := buildMrp_value hm
  exact .get_bind fun _ => storeMrp_goes dst _ (base_rescaled hF hpairs ..)

/-- Storing the digits writes a group for each. -/
theorem storeDigits_goes (dst : List DevAddr) {lift : List UInt64 → M} {base : List UInt64}
    (hbase : ∀ b, F.base (lift b) = base) (k : ℕ) (digitBases : List (List UInt64)) :
    Goes c words (((List.range' k digitBases.length).map fun i =>
        (takePtrs base.length (dst.drop (i * base.length)), base)).flatMap writeEvents)
      (storeDigits F dst lift k digitBases) := by
  induction digitBases generalizing k with
  | nil => exact .pure ()
  | cons digitBase digitBases ih =>
    rw [List.length_cons, List.range'_succ, List.map_cons, List.flatMap_cons]
    refine .bind ?_ fun _ _ _ _ => ih (k + 1)
    rw [hbase digitBase]
    exact storeMrp_goes _ _ rfl

/-- A lifting that is accepted looks its sources up, and writes a group for each digit. -/
theorem modUp_goes (hF : F.LawfulBase) (env : CompilerReplies P) (dst src : List DevAddr)
    {p : ModUpParams} {srcBase digitBases lens pBase : List UInt64}
    (hp : p.validate = .ok (srcBase, digitBases, lens, pBase)) :
    Goes c words (resolveEvents src srcBase ++ (p.writes dst).flatMap writeEvents)
      (modUp F env dst src p) := by
  unfold ModUpParams.writes modUp
  rw [hp]
  refine .query_bind (session_goes F env (.bind (buildMrp_goes src srcBase) fun m v v' hm => ?_))
  obtain ⟨pairs, rfl, hpairs⟩ := buildMrp_value hm
  refine .get_bind fun v => ?_
  have hdigits : Goes c words (((List.range' 0 (sliceDigits digitBases lens).length).map fun i =>
        (takePtrs (srcBase ++ pBase).length (dst.drop (i * (srcBase ++ pBase).length)),
          srcBase ++ pBase)).flatMap writeEvents)
      (storeDigits F dst (fun digitBase => F.fastBaseConvert (F.mrSubset (F.fromPairs pairs) digitBase)
        (F.base (F.fromPairs pairs) ++ pBase) (fbcVariant v.config) (fbcCenterShape v.config)) 0
        (sliceDigits digitBases lens)) :=
    storeDigits_goes dst (fun b => base_lifted hF hpairs _ pBase _ _) 0 _
  rw [length_sliceDigits, ← List.range_eq_range'] at hdigits
  exact hdigits

/-! ## Calls -/

/-- A state that a journal records is journalled from itself. -/
theorem Journaled.self (h : w.epoch.Records l) : w.Journaled w.config w.wordsError l :=
  ⟨rfl, h, fun _ _ => rfl⟩

/-- A call left the epoch that the journal says after what happened of its plan, and if the plan
refers to an address, the call replied with the reason that it stopped for. -/
structure Obeys (w : World P M) (l : Journal) (es : List EpochEvent) (r : Reply × World P M) :
    Prop where
  records : r.2.epoch.Records ((w.machine.performed l es).foldl Journal.apply l)
  code : (∃ a, .resolve a ∈ es) → r.1.code = replyCode (w.machine.refusal l es)

/-- A call that refers to no address. -/
theorem Obeys.quiet {es : List EpochEvent} {r : Reply × World P M}
    (hes : ∀ a, .resolve a ∉ es) (h : r.2.epoch.Records (es.foldl Journal.apply l)) :
    w.Obeys l es r := by
  -- A plan of events that are always possible happens as a whole.
  have hc : w.machine.Completes l es := w.machine.completes_of_possible (fun e he l => by
    cases e with
    | resolve a => exact absurd he (hes a)
    | _ => rfl) l
  refine ⟨?_, fun ⟨a, ha⟩ => absurd ha (hes a)⟩
  rwa [w.machine.performed_of_completes hc]

/-- A call that goes through no events. -/
theorem Obeys.idle {r : Reply × World P M} (h : r.2.epoch.Records l) : w.Obeys l [] r :=
  .quiet (fun _ => List.not_mem_nil) h

/-- A call that goes through a plan, however it replies to its success. -/
theorem Goes.replies {es : List EpochEvent} {y : Method P M Unit} {onOk : Unit → Reply}
    (hok : (onOk ()).code = .success) (h : w.epoch.Records l)
    (hy : Goes w.config w.wordsError es y) : w.Obeys l es (Shim.replyWith onOk y w) where
  records := by
    rw [Shim.replyWith_state]
    exact hy.state (fun _ _ hj => hj.records) (.self h)
  code _ := by
    have hresult := hy.result (.self h)
    change w.machine.refusal l es = _ at hresult
    rw [hresult]
    unfold Shim.replyWith
    rcases y w with ⟨e | _, w'⟩
    · rfl
    · exact hok

/-- A call that goes through a plan and writes its success to the last error. -/
theorem Goes.obeys {es : List EpochEvent} {y : Method P M Unit} (h : w.epoch.Records l)
    (hy : Goes w.config w.wordsError es y) : w.Obeys l es (Shim.setInternalResult y w) :=
  hy.replies rfl h

/-- What a rejected call and one that goes through a plan leave, where the plan is empty if the call
is rejected. -/
theorem Goes.checked {es : List EpochEvent} {y : Method P M Unit} (h : w.epoch.Records l)
    {rejected : Bool} {p : Prop} [Decidable p] (hp : rejected = true ↔ p)
    (hy : Goes w.config w.wordsError es y) :
    w.Obeys l (if p then [] else es) (Shim.guarded rejected (Shim.setInternalResult y) w) := by
  split_ifs with hrej
  · rw [hp.mpr hrej]
    exact .idle h
  · rw [Bool.eq_false_iff.mpr fun hr => hrej (hp.mp hr)]
    exact hy.obeys h

/-- A call that resolves a modulus goes through its plan where there is one. -/
theorem Goes.moduled {es : List EpochEvent} {modIdx : ℤ} {f : UInt64 → Method P M Unit}
    (F : Fhetch P M) (env : CompilerReplies P) (h : w.epoch.Records l) {rejected : Bool} {p : Prop}
    [Decidable p] (hp : p ↔ rejected = true ∨ w.config.modulus modIdx = 0)
    (hf : Goes w.config w.wordsError es (f (w.config.modulus modIdx))) :
    w.Obeys l (if p then [] else es) (Shim.guarded rejected (Shim.setInternalResult
      (epochSession env >>= fun _ => resolveModulus modIdx >>= f)) w) := by
  by_cases hq : w.config.modulus modIdx = 0
  · rw [if_pos (hp.mpr (.inr hq))]
    refine .idle ?_
    cases rejected with
    | true => exact h
    | false =>
      change (Shim.setInternalResult _ w).2.epoch.Records l
      rw [Shim.setInternalResult, Shim.replyWith_state]
      exact resolveModulus_none F hq env h
  · exact Goes.checked h (by rw [hp, or_iff_left hq])
      (session_goes F env (resolveModulus_goes hq hf))

/-- A call with arrays goes through its plan where they are given. -/
theorem Goes.arrays {x : List DevAddr → List DevAddr → List UInt64 → Method P M Unit}
    (h : w.epoch.Records l) {d s : List DevAddr} {b : List UInt64} {es : List EpochEvent}
    (hes : b = [] → es = []) (hx : Goes w.config w.wordsError es (x d s b)) :
    w.Obeys l es (Haze.withArrays (some d) (some s) (some b) x w) := by
  have hchecked : w.Obeys l (if b = [] then [] else es)
      (Haze.withArrays (some d) (some s) (some b) x w) := Goes.checked h List.isEmpty_iff hx
  split_ifs at hchecked with hb
  · rw [hes hb]
    exact hchecked
  · exact hchecked

/-- A basis conversion goes through its plan where the parameters pass their check. -/
theorem conversion_obeys {T : Type} {v : Except HazeInternalError (List UInt64 × T)}
    {src : List DevAddr} {writes : List (List DevAddr × List UInt64)}
    {f : List UInt64 × T → Method P M Unit} (h : w.epoch.Records l)
    (hf : ∀ base t, v = .ok (base, t) → Goes w.config w.wordsError
      (resolveEvents src base ++ writes.flatMap writeEvents) (Expected.query (fun _ => v) >>= f)) :
    w.Obeys l (conversionEvents (v.map Prod.fst) src writes)
      (Shim.replyWith (fun _ => Reply.success) (Expected.query (fun _ => v) >>= f) w) := by
  rcases v with e | ⟨base, t⟩
  · exact .idle h
  · exact (hf base t rfl).replies rfl h

/-- A call whose actions leave the epoch's bindings, tags and groups alone. -/
theorem Records.steps {C : Action P M → Prop} {w' : World P M} (h : Steps F C w w')
    (hC : ∀ v x, C x → (act F v x).epoch = v.epoch) (hw : w.epoch.Records l) :
    w'.epoch.Records l :=
  h.preserves (I := fun v : World P M => v.epoch.Records l)
    (fun v x hx hv => by rw [hC v x hx.1]; exact hv) hw

/-- Dropping addresses goes through their invalidations. -/
theorem Records.invalidateAll {s : EpochState P} (h : s.Records l) (addrs : List DevAddr) :
    (addrs.foldl (fun s a => s.invalidate a) s).Records
      ((addrs.map .invalidate).foldl Journal.apply l) := by
  induction addrs generalizing s l with
  | nil => exact h
  | cons a addrs ih => exact ih (h.invalidate a)

/-- An upload goes through its events. -/
theorem uploads_records (hw : w.Inv) (h : w.epoch.Records l) (env : CompilerReplies P)
    (residues : List (DevAddr × Option (List UInt8))) (count : UInt64) :
    ((Expected.forEach (fun r => onAllocator (DeviceAllocator.copyH2d r.1 r.2 count)) residues
        >>= fun _ => epochSession env >>= fun _ =>
          Expected.forEach (tagH2dInputLocked F) (residues.map Prod.fst) : Method P M Unit) w).2.epoch.Records
      ((w.uploadEvents residues count).foldl Journal.apply l) := by
  obtain ⟨s, hs, hok⟩ := copyH2dAll_run (P := P) (M := M) count residues w
  -- The copies succeed exactly where each has a source and a range that is in order.
  have hcopies : w.Copies residues count ↔
      residues.all (fun r => r.2.isSome && (w.allocator.checkRange r.1 count).isOk) = true := by
    have hcheck : ∀ a, (w.allocator.checkRange a count).isOk = true ↔
        w.allocator.checkRange a count = .ok () := fun a => by
      rcases w.allocator.checkRange a count with e | _
      · exact ⟨Bool.noConfusion, nofun⟩
      · exact ⟨fun _ => rfl, fun _ => rfl⟩
    unfold Copies
    simp [Option.isSome_iff_ne_none, hcheck]
  -- The copies keep the invariant, whether all of them succeed or not.
  have hinv : ({ w with allocator := s } : World P M).Inv := by
    have hup : Expected.PerformsAt (act F) (In (Action.Uploads fun _ => True)) (Expected.forEach
        (fun r => (onAllocator (DeviceAllocator.copyH2d r.1 r.2 count) : Method P M Unit)) residues) w :=
      copyH2dAll_uploads count (fun _ _ => trivial) w
    rw [← hs]
    exact hup.preserves (I := Inv) (fun _ _ hx hv => hv.act hx.2) hw
  unfold uploadEvents
  rcases hr : (Expected.forEach (fun r => onAllocator (DeviceAllocator.copyH2d r.1 r.2 count))
    residues w : _ × World P M) with ⟨e | _, w₁⟩
  -- A copy that fails ends the call before the session is opened.
  · rw [hr] at hs hok
    subst hs
    rw [Expected.bind_run_error hr, if_neg fun hall => ?_]
    · exact h
    · cases hok.mpr (hcopies.mpr hall.1)
  -- Otherwise every destination is full when the inputs are tagged.
  · rw [hr] at hs hok
    subst hs
    rw [Expected.bind_run_ok hr]
    have hfilled := copyH2dAll_fills hr
    have htagged := tagFilled_records (F := F) hinv h env fun a ha => by
      obtain ⟨r, hr, rfl⟩ := List.mem_map.mp ha
      exact hfilled r hr
    simp only [hcopies.mp (hok.mp rfl), true_and]
    rw [List.map_map] at htagged
    exact htagged

/-- The end of an epoch that is recorded. -/
theorem finalize_records (env : CompilerReplies P) (runReplay : Bool) (h : w.epoch.Records l) :
    (finalizeLocked F env runReplay w).2.epoch.Records
      (((if w.epoch.recording then [.clear] else []) : List EpochEvent).foldl Journal.apply l) := by
  split_ifs with hrec
  · obtain ⟨v, -, hv, -⟩ := finalize_ends (F := F) env runReplay h.valid.consistent hrec
    rw [hv]
    exact EpochState.records_init
  · unfold finalizeLocked
    rw [Expected.get_bind_run, if_pos (by simpa using hrec)]
    exact h

/-- The events of an upload are uploads. -/
theorem uploadEvents_ne_resolve {residues : List (DevAddr × Option (List UInt8))} {count : UInt64}
    {e : EpochEvent} (he : e ∈ w.uploadEvents residues count) (a : DevAddr) : e ≠ .resolve a := by
  unfold uploadEvents at he
  split_ifs at he
  · obtain ⟨r, -, rfl⟩ := List.mem_map.mp he
    exact EpochEvent.noConfusion
  · exact absurd he List.not_mem_nil

/-- Every call obeys its plan. -/
theorem obeys_after (hF : F.LawfulBase) (hw : w.Inv) (h : w.epoch.Records l)
    (i : Invocation P) : w.Obeys l (i.call.events w) (i.run F w) := by
  obtain ⟨env, c⟩ := i
  -- A call without events leaves the epoch as it is.
  have hkeep : ∀ {C : Action P M → Prop}, Steps F C w (c.run F env w).2 →
      (∀ v x, C x → (act F v x).epoch = v.epoch) → w.Obeys l [] (c.run F env w) :=
    fun hsteps hC => .idle (Records.steps hsteps hC h)
  cases c with
  | pp op dst src1 src2 modIdx =>
    cases op <;> exact Goes.moduled F env h (by simp [or_assoc])
      (binaryPpOp_goes _ dst src1 src2 _)
  | ps op dst src scalar modIdx =>
    cases op <;> exact Goes.moduled F env h (by simp [or_assoc]) (unaryPqOp_goes _ dst src _)
  | transform op dst src modIdx =>
    cases op <;> exact Goes.moduled F env h (by simp [or_assoc]) (unaryPqOp_goes _ dst src _)
  | automorph dst src index =>
    exact Goes.checked h (by simp) (session_goes F env (unaryPiOp_goes _ dst src index))
  | ppMrp op dst src1 src2 base =>
    -- The arrays are refused in the order of the source, before there is a session.
    rcases src2 with _ | src2
    · cases op <;> rcases dst with _ | dst <;> rcases src1 with _ | src1 <;> exact .idle h
    rcases dst with _ | dst
    · cases op <;> exact .idle h
    rcases src1 with _ | src1
    · cases op <;> exact .idle h
    rcases base with _ | base
    · cases op <;> exact .idle h
    · cases op <;> exact Goes.arrays h (by rintro rfl; rfl)
        (binaryPpOpMrp_goes env _ dst src1 src2 base)
  | psMrp op dst src scalars base =>
    rcases scalars with _ | scalars
    · cases op <;> rcases dst with _ | dst <;> rcases src with _ | src <;> exact .idle h
    rcases dst with _ | dst
    · cases op <;> exact .idle h
    rcases src with _ | src
    · cases op <;> exact .idle h
    rcases base with _ | base
    · cases op <;> exact .idle h
    · cases op <;> exact Goes.arrays h (by rintro rfl; rfl) (unaryPOpMrp_goes env _ dst src base)
  | transformMrp op dst src base =>
    rcases dst with _ | dst
    · cases op <;> exact .idle h
    rcases src with _ | src
    · cases op <;> exact .idle h
    rcases base with _ | base
    · cases op <;> exact .idle h
    · cases op <;> exact Goes.arrays h (by rintro rfl; rfl) (unaryPOpMrp_goes env _ dst src base)
  | indexMrp op dst src index base =>
    rcases dst with _ | dst
    · cases op <;> exact .idle h
    rcases src with _ | src
    · cases op <;> exact .idle h
    rcases base with _ | base
    · cases op <;> exact .idle h
    · cases op <;> exact Goes.arrays h (by rintro rfl; rfl) (unaryPOpMrp_goes env _ dst src base)
  | basisConvert dst src params =>
    -- A conversion refuses null pointers itself, and validates its bases after that.
    rcases dst with _ | dst
    · exact .idle h
    rcases src with _ | src
    · exact .idle h
    rcases params with _ | p
    · exact .idle h
    exact conversion_obeys h fun b t hp => basisConvert_goes env dst src hp
  | modDown dst src params =>
    rcases dst with _ | dst
    · exact .idle h
    rcases src with _ | src
    · exact .idle h
    rcases params with _ | p
    · exact .idle h
    exact conversion_obeys h fun b t hp => modDown_goes hF env dst src hp
  | modUp dst src params =>
    rcases dst with _ | dst
    · exact .idle h
    rcases src with _ | src
    · exact .idle h
    rcases params with _ | p
    · exact .idle h
    exact conversion_obeys h fun b t hp => modUp_goes hF env dst src hp
  | malloc ptr size =>
    refine hkeep (Call.performs env (.malloc ptr size) w) fun v x hx => ?_
    cases x <;> first | rfl | exact hx.elim
  | mallocMrp ptrs count size =>
    refine hkeep (Call.performs env (.mallocMrp ptrs count size) w) fun v x hx => ?_
    cases x <;> first | rfl | exact hx.elim
  | free ptr =>
    change w.Obeys l (if ptr = .null then [] else [.invalidate ptr]) _
    have hstate : (hazeFree ptr w : Reply × World P M).2.epoch =
        if ptr = .null then w.epoch else w.epoch.invalidate ptr := by
      rw [hazeFree, Shim.setInternalResult, Shim.replyWith_state, invalidateNonNull]
      by_cases hptr : ptr = .null
      · rw [if_neg (not_not.mpr hptr), if_pos hptr]
        rfl
      · rw [if_pos hptr, if_neg hptr]
        rfl
    -- The null address is not freed, so nothing is invalidated for it.
    split_ifs at hstate ⊢
    · refine .idle ?_
      change (hazeFree ptr w : Reply × World P M).2.epoch.Records l
      rwa [hstate]
    · refine .quiet (by simp) ?_
      change (hazeFree ptr w : Reply × World P M).2.epoch.Records (l.invalidate ptr)
      rw [hstate]
      exact h.invalidate ptr
  | freeMrp ptrs count =>
    rcases ptrs with _ | ptrs
    · exact .idle h
    change w.Obeys l (if count > kMaxCiphertextModuli then [] else
      ((takePtrs count.toNat ptrs).filter (· ≠ .null)).map .invalidate)
      (Shim.guarded (decide (count > kMaxCiphertextModuli)) _ w)
    split_ifs with hcount
    · rw [decide_eq_true hcount]
      exact .idle h
    · rw [decide_eq_false hcount]
      refine .quiet (by simp) ?_
      change (Shim.setInternalResult _ w).2.epoch.Records _
      rw [Shim.setInternalResult, Shim.replyWith_state, Expected.bind_run_ok (invalidateAll_run _ w)]
      exact Records.invalidateAll h _
  | memcpy transfer count =>
    have hperforms := Call.performs (F := F) env (.memcpy transfer count) w
    cases transfer with
    | hostToDevice dst src =>
      change w.Obeys l (if dst = .null then [] else w.uploadEvents [(dst, src)] count)
        (Shim.guarded (dst == .null || src == none) _ w)
      split_ifs with hdst
      · rw [hdst]
        exact .idle h
      refine .quiet (fun a ha => uploadEvents_ne_resolve ha a rfl) ?_
      rcases src with _ | src
      · rw [show (dst == .null || (none : Option (List UInt8)) == none) = true by simp]
        exact h
      · rw [show (dst == .null || some src == none) = false by simp [hdst]]
        change (Shim.setInternalResult _ w).2.epoch.Records _
        rw [Shim.setInternalResult, Shim.replyWith_state]
        have hup := uploads_records (F := F) hw h env [(dst, some src)] count
        rw [List.map_singleton, Expected.forEach_singleton, Expected.forEach_singleton] at hup
        exact hup
    | deviceToDevice dst src =>
      exact Goes.checked h (by simp) (session_goes F env (copyResult_goes dst src kCopyModulus))
    | deviceToHost dst src => exact hkeep hperforms (fun _ _ hx => hx.elim)
    | unknownKind => exact .idle h
  | memcpyMrp transfer count base =>
    have hperforms := Call.performs (F := F) env (.memcpyMrp transfer count base) w
    cases transfer with
    | hostToDevice dst src =>
      rcases dst with _ | dst
      · exact .idle h
      rcases src with _ | src
      · exact .idle h
      rcases base with _ | base
      · exact .idle h
      have hfst : ((takePtrs base.length dst).zip (src.takeD base.length none)).map Prod.fst =
          takePtrs base.length dst := by
        rw [List.map_fst_zip]
        simp [takePtrs]
      have hup := uploads_records (F := F) hw h env
        ((takePtrs base.length dst).zip (src.takeD base.length none)) count
      rw [hfst] at hup
      refine .quiet (fun a ha => uploadEvents_ne_resolve ha a rfl) ?_
      change (Shim.guarded base.isEmpty _ w).2.epoch.Records _
      rcases base with _ | ⟨q, base⟩
      · -- There are no residues.
        change w.epoch.Records ((w.uploadEvents [] count).foldl Journal.apply l)
        unfold uploadEvents
        split_ifs <;> exact h
      · change (Shim.setInternalResult _ w).2.epoch.Records _
        rw [Shim.setInternalResult, Shim.replyWith_state]
        exact hup
    | deviceToDevice dst src =>
      rcases dst with _ | dst
      · exact .idle h
      rcases src with _ | src
      · exact .idle h
      rcases base with _ | base
      · exact .idle h
      -- A copy without residues is refused.
      have hcopy := Goes.checked h (List.isEmpty_iff (l := base))
        (session_goes F env (copyMrp_goes (F := F) dst src base))
      split_ifs at hcopy with hbase
      · subst hbase
        exact .idle h
      · exact hcopy
    | deviceToHost dst src => exact hkeep hperforms (fun _ _ hx => hx.elim)
    | unknownKind => exact .idle h
  | memset devPtr value count =>
    change w.Obeys l (if devPtr ≠ .null ∧ (w.allocator.checkRange devPtr count).isOk
      then [.invalidate devPtr] else []) (Shim.guarded (devPtr == .null) _ w)
    by_cases hptr : devPtr = .null
    · subst hptr
      exact .idle h
    rw [beq_eq_false_iff_ne.mpr hptr]
    change w.Obeys l _ (Shim.replyWith _ _ w)
    have hstate : ∀ {α : Type} (onOk : α → Reply) (x : Method P M α),
        (Shim.replyWith onOk x w).2.epoch = (x w).2.epoch := fun onOk x => by
      rw [Shim.replyWith_state]
    -- A range that is refused is no event.
    rcases hc : w.allocator.checkRange devPtr count with e | _
    · rw [if_neg fun hok => Bool.noConfusion hok.2]
      refine .idle ?_
      rw [hstate, onAllocator, DeviceAllocator.memset, Expected.bind_run_error (e := e)
        (by rw [Expected.zoom_run, Expected.query_bind_error hc])]
      exact h
    · rw [if_pos ⟨hptr, rfl⟩]
      refine .quiet (by simp) ?_
      rw [hstate, onAllocator, DeviceAllocator.memset, Expected.bind_run_ok (a := ())
        (by rw [Expected.zoom_run, Expected.query_bind_ok hc]; rfl)]
      exact h.invalidate devPtr
  | tagOutput ptr =>
    change w.Obeys l (if ptr = .null then [] else [.tag ptr]) (Shim.guarded (ptr == .null) _ w)
    by_cases hptr : ptr = .null
    · subst hptr
      exact .idle h
    rw [beq_eq_false_iff_ne.mpr hptr, if_neg hptr]
    refine .quiet (by simp) ?_
    change (Shim.setInternalResult _ w).2.epoch.Records (l.tag ptr)
    rw [Shim.setInternalResult, Shim.replyWith_state]
    -- Tagging an address that is not bound does nothing.
    by_cases hb : ptr ∈ w.epoch.polyMap
    · exact h.tag hb
    · have hsame : (EpochState.tagOutputLocked ptr w.epoch).2 = w.epoch := by
        unfold EpochState.tagOutputLocked
        rw [if_pos hb]
      change (EpochState.tagOutputLocked ptr w.epoch).2.Records (l.tag ptr)
      unfold Journal.tag
      rw [hsame, h.unbound_iff.mpr hb]
      exact h
  | flush =>
    change w.Obeys l (if w.epoch.recording && !w.config.unsupportedDataFormat then [.clear] else []) _
    refine .quiet (by split_ifs <;> simp) ?_
    change (Shim.replyWith _ (flush F env) w).2.epoch.Records _
    rw [Shim.replyWith_state, flush, Expected.get_bind_run]
    -- A flush is refused for a format that the target does not support, before it clears anything.
    rcases w.config.unsupportedDataFormat
    · have hfinal := finalize_records (F := F) env true h
      simpa using hfinal
    · simpa using h
  | writeProgram =>
    change w.Obeys l (if w.epoch.recording then [.clear] else []) _
    refine .quiet (by split_ifs <;> simp) ?_
    change (Shim.replyWith _ (finalizeLocked F env false) w).2.epoch.Records _
    rw [Shim.replyWith_state]
    exact finalize_records env false h
  | deviceReset => exact .quiet (by simp [Call.events]) EpochState.records_init
  | setRingDimension n =>
    refine hkeep (Call.performs env (.setRingDimension n) w) fun v x hx => ?_
    subst hx
    rfl
  | config call =>
    refine hkeep (Call.performs env (.config call) w) fun v x hx => ?_
    obtain ⟨c, rfl⟩ := hx
    rfl

/-- An invocation leaves the epoch that the journal says. -/
theorem records_after (hF : F.LawfulBase) (hw : w.Inv) (h : w.epoch.Records l)
    (i : Invocation P) : (w.after F i).epoch.Records (l.after w i) := by
  unfold Journal.after Invocation.events machine
  rw [← (h.same.performed w.wordsError _).1]
  exact (obeys_after hF hw h i).records

end

end World

/-! ## Programs -/

namespace Journal

variable {F : Fhetch P M}

/-- The state and the journal after an invocation. -/
def step (F : Fhetch P M) (t : World P M × Journal) (i : Invocation P) : World P M × Journal :=
  (t.1.after F i, t.2.after t.1 i)

/-- State and journal run together as they run apart. -/
theorem foldl_step (w : World P M) (l : Journal) (is : List (Invocation P)) :
    is.foldl (step F) (w, l) = (World.runAll F w is, Journal.runAll F w l is) := by
  induction is generalizing w l with
  | nil => rfl
  | cons i is ih => exact ih (w.after F i) (l.after w i)

/-- A condition on the states holds along both when it holds along the states. -/
theorem along_step {C : World P M → Invocation P → Prop} {w : World P M} {l : Journal}
    {is : List (Invocation P)} :
    Expected.Along (step F) (fun t i => C t.1 i) (w, l) is ↔
      Expected.Along (World.after F) C w is := by
  induction is generalizing w l with
  | nil => exact Iff.rfl
  | cons i is ih => exact and_congr_right fun _ => ih

/-- The state is in order, and is what the journal says. -/
def Follows (t : World P M × Journal) : Prop := t.1.Inv ∧ t.1.epoch.Records t.2

/-- At the start the empty journal records the state. -/
theorem follows_init : Follows ((.init, .empty) : World P M × Journal) :=
  ⟨World.inv_init, EpochState.records_init⟩

/-- A step keeps the journal in step. -/
theorem Follows.step (hF : F.LawfulBase) {t : World P M × Journal} (h : Follows t)
    (i : Invocation P) : Follows (step F t i) :=
  ⟨h.1.after i, World.records_after hF h.1 h.2 i⟩

/-- After every program, the epoch is what the journal says that was kept along its events. -/
theorem follows_runAll (hF : F.LawfulBase) (is : List (Invocation P)) :
    Follows (World.runAll F .init is, Journal.runAll F .init .empty is) := by
  have hall : ∀ (w : World P M) (l : Journal), Follows (w, l) →
      Follows (World.runAll F w is, Journal.runAll F w l is) := by
    induction is with
    | nil => exact fun w l h => h
    | cons i is ih => exact fun w l h => ih _ _ (Follows.step hF h i)
  exact hall _ _ follows_init

/-- What every invocation keeps under a guard holds after a program that meets the guard. -/
theorem invariant_runAll (hF : F.LawfulBase) {C : World P M → Invocation P → Prop}
    {I : World P M → Journal → Prop}
    (hI : ∀ w l i, w.Inv → w.epoch.Records l → C w i → I w l → I (w.after F i) (l.after w i))
    (hinit : I .init .empty) {is : List (Invocation P)}
    (h : Expected.Along (World.after F) C .init is) :
    I (World.runAll F .init is) (Journal.runAll F .init .empty is) := by
  have hrun := (along_step (F := F) (l := .empty)).mpr h
  have hinv : Follows (is.foldl (step F) (.init, .empty)) ∧
      I (is.foldl (step F) (.init, .empty)).1 (is.foldl (step F) (.init, .empty)).2 :=
    hrun.invariant (I := fun t => Follows t ∧ I t.1 t.2)
      (fun t i hi ht => ⟨Follows.step hF ht.1 i, hI t.1 t.2 i ht.1.1 ht.1.2 hi ht.2⟩)
      ⟨follows_init, hinit⟩
  rw [foldl_step] at hinv
  exact hinv.2

/-- Where a guard is exactly what an invocation needs to keep `I`, a program meets it all along
exactly when `I` holds in every state reached. -/
theorem along_iff_runAll (hF : F.LawfulBase) {C : World P M → Invocation P → Prop}
    {I : World P M → Journal → Prop}
    (hI : ∀ w l i, w.Inv → w.epoch.Records l → I w l → (C w i ↔ I (w.after F i) (l.after w i)))
    (hinit : I .init .empty) (is : List (Invocation P)) :
    Expected.Along (World.after F) C .init is ↔
      ∀ js, js <+: is → I (World.runAll F .init js) (Journal.runAll F .init .empty js) := by
  have hkeeps : ∀ (t : World P M × Journal) i, Follows t → Follows (step F t i) := fun t i ht =>
    Follows.step hF ht i
  have hguard : ∀ (t : World P M × Journal) i, Follows t → I t.1 t.2 →
      (C t.1 i ↔ I (step F t i).1 (step F t i).2) := fun t i ht hi => hI t.1 t.2 i ht.1 ht.2 hi
  have halong : Expected.Along (step F) (fun t i => C t.1 i) (.init, .empty) is ↔ _ :=
    Expected.along_iff_prefix hkeeps hguard follows_init hinit
  rw [along_step] at halong
  rw [halong]
  simp only [foldl_step]

end Journal

end Haze
