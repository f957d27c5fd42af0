import Haze.Epoch.History
import Haze.Runtime.Flush
import Haze.Runtime.Journal
import Haze.Runtime.Registry

/-!
# What programs keep of the bindings' history

The modulus that the epoch records for an address, the moduli of a group's members and the tags of
its residues, over every program. Each follows from the corresponding property of the journal and
from the order of a call's events.
-/

namespace Haze

variable {P M : Type} {F : Fhetch P M}

open World (takePtrs)

/-! ## The order of a call's events -/

namespace Journal

variable {ds : List DevAddr} {es fs : List EpochEvent}

/-- Events that register no group. -/
theorem blocked_append (hes : ∀ e ∈ es, e.group = none)
    (hfs : ∀ ds', (∀ a, a ∈ ds' ↔ a ∈ ds ∨ ∃ e ∈ es, e.dst = some a) → Blocked ds' fs) :
    Blocked ds (es ++ fs) := by
  induction es generalizing ds with
  | nil => exact hfs ds fun a => by simp
  | cons e es ih =>
    rw [List.cons_append, blocked_cons (hes e (List.mem_cons_self ..))]
    refine ih (fun f hf => hes f (List.mem_cons_of_mem _ hf)) fun ds' hds' => hfs ds' fun a => ?_
    rw [hds' a, List.mem_append, Option.mem_toList, List.exists_mem_cons_iff]
    tauto

/-- Events that register nothing block nothing. -/
theorem blocked_groupless (hes : ∀ e ∈ es, e.group = none) : Blocked ds es := by
  rw [← List.append_nil es]
  exact blocked_append hes fun _ _ => trivial

/-- What happens of a plan. -/
theorem Blocked.performed (h : Blocked ds es) (words : DevAddr → Option HazeInternalError)
    (l : Journal) : Blocked ds ((machine words).performed l es) := by
  induction es generalizing ds l with
  | nil => trivial
  | cons e es ih =>
    rcases hr : (machine words).refuse l e with _ | x
    · rw [EventMachine.performed_cons _ hr]
      rcases hg : e.group with _ | g
      · rw [blocked_cons hg] at h ⊢
        exact ih h _
      · cases e with
        | register addrs moduli => exact ⟨h.1, ih h.2 _⟩
        | _ => cases hg
    · rw [EventMachine.performed_cons_refused _ hr]
      trivial

/-- A multi-residue write before others. -/
theorem blocked_write {addrs : List DevAddr} {base : List UInt64} (hlen : addrs.length = base.length)
    (hlong : 1 < base.length) (hes : Blocked [] es) :
    Blocked [] (writeEvents (addrs, base) ++ es) := by
  unfold writeEvents groupEvents
  rw [if_pos hlong, List.append_assoc]
  refine blocked_append (fun e he => ?_) fun ds' hds' => ⟨fun a => ?_, hes⟩
  · obtain ⟨r, -, rfl⟩ := List.mem_map.mp he
    rfl
  · have hmap : (addrs.zip base).map Prod.fst = addrs := List.map_fst_zip hlen.le
    rw [hds' a]
    constructor
    · rintro (ha | ⟨e, he, ha⟩)
      · exact absurd ha List.not_mem_nil
      · obtain ⟨r, hr, rfl⟩ := List.mem_map.mp he
        cases ha
        exact (List.of_mem_zip hr).1
    · intro ha
      rw [← hmap] at ha
      obtain ⟨r, hr, rfl⟩ := List.mem_map.mp ha
      exact .inr ⟨_, List.mem_map_of_mem hr, rfl⟩

/-- The multi-residue writes of a call, which have one base. -/
theorem blocked_writes {writes : List (List DevAddr × List UInt64)}
    (h : ∃ base, ∀ write ∈ writes, write.2 = base ∧ write.1.length = base.length) :
    Blocked [] (writes.flatMap writeEvents) := by
  obtain ⟨base, h⟩ := h
  by_cases hlong : 1 < base.length
  · induction writes with
    | nil => trivial
    | cons write writes ih =>
      obtain ⟨addrs, _⟩ := write
      obtain ⟨rfl, hlen⟩ := h _ (List.mem_cons_self ..)
      exact blocked_write hlen hlong (ih fun write hw => h write (List.mem_cons_of_mem _ hw))
  · refine blocked_groupless fun e he => ?_
    obtain ⟨write, hw, he⟩ := List.mem_flatMap.mp he
    unfold writeEvents groupEvents at he
    rw [(h write hw).1, if_neg hlong, List.append_nil] at he
    obtain ⟨r, -, rfl⟩ := List.mem_map.mp he
    rfl

/-- Lookups before events block nothing. -/
theorem blocked_resolves (srcs : List DevAddr) (hfs : Blocked [] fs) :
    Blocked [] (srcs.map .resolve ++ fs) := by
  refine blocked_append (fun e he => ?_) fun ds' hds' => ?_
  · obtain ⟨a, -, rfl⟩ := List.mem_map.mp he
    rfl
  · have hnil : ds' = [] := List.eq_nil_iff_forall_not_mem.mpr fun a ha => by
      rcases (hds' a).mp ha with ha | ⟨e, he, hd⟩
      · exact absurd ha List.not_mem_nil
      · obtain ⟨b, -, rfl⟩ := List.mem_map.mp he
        cases hd
    rwa [hnil]

/-- The events of a copy register what they store. -/
theorem blocked_copy (dst src : List DevAddr) (base : List UInt64) :
    Blocked [] (copyEvents dst src base) := by
  -- The copies resolve and store; the group, where there is one, is registered after them.
  refine blocked_append (fun e he => ?_) fun ds' hds' => ?_
  · obtain ⟨r, -, he⟩ := List.mem_flatMap.mp he
    rcases List.mem_cons.mp he with rfl | he
    · rfl
    · rw [List.mem_singleton.mp he]
      rfl
  unfold groupEvents
  split_ifs
  · refine ⟨fun a => ?_, trivial⟩
    -- The destinations that are stored are those of the group.
    have hdst : (((takePtrs base.length dst).zip (takePtrs base.length src)).zip base).map
        (Prod.fst ∘ Prod.fst) = takePtrs base.length dst := by
      rw [← List.map_map, List.map_fst_zip (by simp [takePtrs]),
        List.map_fst_zip (by simp [takePtrs])]
    rw [hds' a]
    constructor
    · rintro (ha | ⟨e, he, hd⟩)
      · exact absurd ha List.not_mem_nil
      · obtain ⟨r, hr, he⟩ := List.mem_flatMap.mp he
        rw [← hdst]
        rcases List.mem_cons.mp he with rfl | he
        · cases hd
        · rw [List.mem_singleton.mp he] at hd
          cases hd
          exact List.mem_map_of_mem hr
    · intro ha
      rw [← hdst] at ha
      obtain ⟨r, hr, rfl⟩ := List.mem_map.mp ha
      exact .inr ⟨.copy r.1.1 r.1.2 r.2, List.mem_flatMap.mpr ⟨r, hr, by simp⟩, rfl⟩
  · trivial

end Journal

open Journal

/-- The kinds of plans that calls have. -/
inductive Plan (w : World P M) : List EpochEvent → Prop
  | none : Plan w []
  | uploads (residues : List (DevAddr × Option (List UInt8))) (count : UInt64) :
    Plan w (w.uploadEvents residues count)
  /-- References to the sources, and one store. -/
  | store (srcs : List DevAddr) {e : EpochEvent} (he : e.dst ≠ .none) :
    Plan w (srcs.map .resolve ++ [e])
  | copies (dst src : List DevAddr) (base : List UInt64) : Plan w (copyEvents dst src base)
  /-- References to the sources, and multi-residue writes under one base. -/
  | writes (srcs : List DevAddr) {writes : List (List DevAddr × List UInt64)}
    (h : ∃ base, ∀ write ∈ writes, write.2 = base ∧ write.1.length = base.length) :
    Plan w (srcs.map .resolve ++ writes.flatMap writeEvents)
  | drops (addrs : List DevAddr) : Plan w (addrs.map .invalidate)
  | tag (a : DevAddr) : Plan w [.tag a]
  | clear : Plan w [.clear]

/-- A plan may be dropped on a condition. -/
theorem Plan.unless {w : World P M} {es : List EpochEvent} (h : Plan w es) (p : Prop) [Decidable p] :
    Plan w (if p then [] else es) := by
  split_ifs
  · exact .none
  · exact h

/-- A plan may be made on a condition. -/
theorem Plan.when {w : World P M} {es : List EpochEvent} (h : Plan w es) (p : Prop) [Decidable p] :
    Plan w (if p then es else []) := by
  split_ifs
  · exact h
  · exact .none

/-- A conversion registers what it stores. -/
theorem Plan.conversion {w : World P M} {srcBase : Except HazeInternalError (List UInt64)}
    {src : List DevAddr} {writes : List (List DevAddr × List UInt64)}
    (h : ∃ base, ∀ write ∈ writes, write.2 = base ∧ write.1.length = base.length) :
    Plan w (conversionEvents srcBase src writes) := by
  unfold conversionEvents
  rcases srcBase with e | base
  · exact .none
  · exact .writes (takePtrs base.length src) h

/-- Every call has a plan of one of the kinds. -/
theorem Call.plan (w : World P M) (c : Call) : Plan w (c.events w) := by
  -- One write under one base; the other plans are made of this and of single stores.
  have hsingle : ∀ (dst : List DevAddr) (base : List UInt64), ∃ b, ∀ write ∈
      [(takePtrs base.length dst, base)], write.2 = b ∧ write.1.length = b.length :=
    fun dst base => ⟨base, fun write hw => by
      rw [List.mem_singleton.mp hw]
      exact ⟨rfl, World.length_takePtrs ..⟩⟩
  have hwrite : ∀ (srcs dst : List DevAddr) (base : List UInt64), Plan w
      (srcs.map .resolve ++ writeEvents (takePtrs base.length dst, base)) := fun srcs dst base => by
    rw [← World.flatMap_writeEvents_single]
    exact .writes srcs (hsingle dst base)
  have hstore : ∀ (srcs : List DevAddr) (e : EpochEvent), e.dst ≠ none →
      ∀ (p : Prop) [Decidable p], Plan w (if p then [] else srcs.map .resolve ++ [e]) :=
    fun srcs e he p _ => (Plan.store srcs he).unless p
  -- A call that is refused before its session has no events.
  cases c with
  | free ptr => exact (Plan.drops [ptr]).unless _
  | freeMrp ptrs count =>
    rcases ptrs with _ | ptrs
    · exact .none
    · exact (Plan.drops _).unless _
  | memset devPtr value count => exact (Plan.drops [devPtr]).when _
  | memcpy transfer count =>
    cases transfer with
    | hostToDevice dst src => exact (Plan.uploads [(dst, src)] count).unless _
    | deviceToDevice dst src =>
      exact hstore [src] (.copy dst src kCopyModulus) (Option.some_ne_none dst) _
    | _ => exact .none
  | memcpyMrp transfer count base =>
    cases transfer with
    | hostToDevice dst src =>
      rcases dst with _ | dst <;> rcases src with _ | src <;> rcases base with _ | base <;>
        first | exact .none | exact .uploads _ count
    | deviceToDevice dst src =>
      rcases dst with _ | dst <;> rcases src with _ | src <;> rcases base with _ | base <;>
        first | exact .none | exact .copies dst src base
    | _ => exact .none
  | pp op dst src1 src2 modIdx =>
    exact hstore [src1, src2] (.compute dst _) (Option.some_ne_none dst) _
  | ps op dst src scalar modIdx => exact hstore [src] (.compute dst _) (Option.some_ne_none dst) _
  | transform op dst src modIdx => exact hstore [src] (.compute dst _) (Option.some_ne_none dst) _
  | automorph dst src index => exact hstore [src] (.rotate dst src) (Option.some_ne_none dst) _
  | ppMrp op dst src1 src2 base =>
    rcases dst with _ | dst <;> rcases src1 with _ | src1 <;> rcases src2 with _ | src2 <;>
      rcases base with _ | base <;> first | exact .none | skip
    have hplan := hwrite (takePtrs base.length src1 ++ takePtrs base.length src2) dst base
    rw [List.map_append] at hplan
    exact hplan
  | psMrp op dst src scalars base =>
    rcases dst with _ | dst <;> rcases src with _ | src <;> rcases scalars with _ | scalars <;>
      rcases base with _ | base <;> first | exact .none | exact hwrite _ dst base
  | transformMrp op dst src base =>
    rcases dst with _ | dst <;> rcases src with _ | src <;> rcases base with _ | base <;>
      first | exact .none | exact hwrite _ dst base
  | indexMrp op dst src index base =>
    rcases dst with _ | dst <;> rcases src with _ | src <;> rcases base with _ | base <;>
      first | exact .none | exact hwrite _ dst base
  | basisConvert dst src params =>
    rcases dst with _ | dst <;> rcases src with _ | src <;> rcases params with _ | p <;>
      first | exact .none | skip
    -- The bases are validated before there is a plan.
    refine .conversion ?_
    unfold BasisConvertParams.writes
    rcases p.validate with e | ⟨srcBase, dstBase⟩
    · exact ⟨[], fun write hw => absurd hw List.not_mem_nil⟩
    · exact hsingle dst dstBase
  | modDown dst src params =>
    rcases dst with _ | dst <;> rcases src with _ | src <;> rcases params with _ | p <;>
      first | exact .none | skip
    refine .conversion ?_
    unfold ModDownParams.writes
    rcases p.validate with e | ⟨srcBase, rescaleBase⟩
    · exact ⟨[], fun write hw => absurd hw List.not_mem_nil⟩
    · exact hsingle dst _
  | modUp dst src params =>
    rcases dst with _ | dst <;> rcases src with _ | src <;> rcases params with _ | p <;>
      first | exact .none | skip
    refine .conversion ?_
    unfold ModUpParams.writes
    rcases p.validate with e | ⟨srcBase, digitBases, lens, pBase⟩
    · exact ⟨[], fun write hw => absurd hw List.not_mem_nil⟩
    · refine ⟨srcBase ++ pBase, fun write hw => ?_⟩
      obtain ⟨d, -, rfl⟩ := List.mem_map.mp hw
      exact ⟨rfl, World.length_takePtrs ..⟩
  | tagOutput ptr => exact (Plan.tag ptr).unless _
  | flush => exact Plan.clear.when _
  | writeProgram => exact Plan.clear.when _
  | deviceReset => exact .clear
  | _ => exact .none

section

variable {w : World P M} {es : List EpochEvent}

/-- An upload has its events when it is accepted, and none otherwise. -/
theorem uploadEvents_cases (residues : List (DevAddr × Option (List UInt8))) (count : UInt64) :
    w.uploadEvents residues count = [] ∨ w.uploadEvents residues count = residues.map (.upload ·.1) := by
  unfold World.uploadEvents
  split_ifs
  · exact .inr rfl
  · exact .inl rfl

/-- A call registers a group right after it stored its residues. -/
theorem Plan.blocked (h : Plan w es) : Blocked [] es := by
  cases h with
  | none => trivial
  | uploads residues count =>
    rcases uploadEvents_cases (w := w) residues count with he | he <;> rw [he]
    · trivial
    · refine blocked_groupless fun e he => ?_
      obtain ⟨r, -, rfl⟩ := List.mem_map.mp he
      rfl
  | store srcs he =>
    obtain ⟨a, ha⟩ := Option.ne_none_iff_exists'.mp he
    refine blocked_resolves srcs (blocked_groupless fun e' he' => ?_)
    rw [List.mem_singleton.mp he']
    exact (store_spec (l := .empty) ha).2.2.2.2
  | copies dst src base => exact blocked_copy dst src base
  | writes srcs h => exact blocked_resolves srcs (blocked_writes h)
  | drops addrs =>
    refine blocked_groupless fun e he => ?_
    obtain ⟨a, -, rfl⟩ := List.mem_map.mp he
    rfl
  | tag a => trivial
  | clear => trivial

/-- Only uploads have upload events, and they have no others. -/
theorem Plan.uploads_cases (h : Plan w es) :
    (∃ residues count, es = w.uploadEvents residues count) ∨ ∀ a, .upload a ∉ es := by
  cases h with
  | uploads residues count => exact .inl ⟨residues, count, rfl⟩
  | store srcs he =>
    refine .inr fun a ha => ?_
    rcases List.mem_append.mp ha with ha | ha
    · simp at ha
    · rw [← List.mem_singleton.mp ha] at he
      exact he rfl
  | copies dst src base =>
    refine .inr fun a => ?_
    unfold copyEvents groupEvents
    split_ifs <;> simp
  | writes srcs h =>
    refine .inr fun a ha => ?_
    rcases List.mem_append.mp ha with ha | ha
    · simp at ha
    · obtain ⟨write, -, ha⟩ := List.mem_flatMap.mp ha
      unfold writeEvents groupEvents at ha
      split_ifs at ha <;> simp at ha
  | _ => exact .inr fun a => by simp

end

/-! ## Provenance -/

/-- No modulus is recorded for the addresses that a call uploads to. -/
def Invocation.UploadsUnmarked (w : World P M) (i : Invocation P) : Prop :=
  ∀ a, .upload a ∈ i.events w → w.epoch.recordedModulusLocked a = kCopyModulus

/-- A call keeps the recorded moduli those of the last events exactly when it uploads to addresses
without one. -/
theorem Journal.uploadsUnmarked_iff {w : World P M} {l : Journal} (h : w.epoch.Records l)
    (hs : l.Sourced) (i : Invocation P) : i.UploadsUnmarked w ↔ (l.after w i).Sourced := by
  unfold Invocation.UploadsUnmarked Journal.after
  rcases (i.call.plan w).uploads_cases with ⟨residues, count, he⟩ | hnone
  · obtain ⟨addrs, hmap⟩ : ∃ addrs : List DevAddr, i.events w = addrs.map .upload := by
      obtain ⟨k, hk⟩ : ∃ k, i.events w = (i.call.events w).take k :=
        ⟨_, List.prefix_iff_eq_take.mp (w.machine.performed_prefix _ _)⟩
      rcases uploadEvents_cases (w := w) residues count with hes | hes <;> rw [hk, he, hes]
      · exact ⟨[], by simp⟩
      · exact ⟨(residues.take k).map Prod.fst, by rw [← List.map_take, List.map_map]; rfl⟩
    rw [hmap, sourced_uploads_iff hs]
    simp only [List.mem_map, EpochEvent.upload.injEq, exists_eq_right, h.recorded]
  · have hnot : ∀ a, .upload a ∉ i.events w := fun a ha =>
      hnone a ((w.machine.performed_prefix _ _).subset ha)
    exact ⟨fun _ => hs.foldl hnot, fun _ a ha => absurd ha (hnot a)⟩

/-- The modulus that the epoch records for a bound address is, in every state that a run reaches,
that of the last event on the address's binding that carries one, exactly when every upload of the
run is to addresses for which no modulus is recorded. -/
theorem recorded_provenance (F : Fhetch P M) (hF : F.LawfulBase) (is : List (Invocation P)) :
    (∀ js, js <+: is → ∀ a ∈ (World.runAll F .init js).epoch.polyMap,
      (World.runAll F .init js).epoch.recordedModulusLocked a =
        (Journal.runAll F .init .empty js).provenance a) ↔
      Expected.Along (World.after F) (fun w i => i.UploadsUnmarked w) .init is := by
  rw [along_iff_runAll (I := fun _ l => l.Sourced) hF
    (fun w l i _ h hs => uploadsUnmarked_iff h hs i) sourced_empty is]
  refine forall₂_congr fun js _ => ?_
  obtain ⟨-, h⟩ := follows_runAll (F := F) hF js
  constructor
  · intro hbound a
    by_cases ha : a ∈ (World.runAll F .init js).epoch.polyMap
    · exact (h.recorded a).trans (hbound a ha)
    · unfold Journal.recorded Journal.provenance
      rw [h.unbound_iff.mpr ha]
      rfl
  · exact fun hs a _ => (h.recorded a).symm.trans (hs a)

/-- A run whose upload to a computed address is made after the address was freed. -/
def freedUpload : List (Invocation UInt64) :=
  scalarProgram [.setRingDimension 1, .config (.setCiphertextModulus 0 17), .malloc true 8, uploadFive,
    .pp .add ⟨kHbmBase⟩ ⟨kHbmBase⟩ ⟨kHbmBase⟩ 0, .free ⟨kHbmBase⟩, .malloc true 8, uploadFive]

/-- An upload after the address was freed has the modulus that its source says. -/
theorem recorded_provenance_example :
    (∀ js, js <+: freedUpload → ∀ a ∈ (World.runAll scalarRing .init js).epoch.polyMap,
      (World.runAll scalarRing .init js).epoch.recordedModulusLocked a =
        (Journal.runAll scalarRing .init .empty js).provenance a) ↔
      Expected.Along (World.after scalarRing) (fun w i => i.UploadsUnmarked w) .init freedUpload :=
  recorded_provenance scalarRing scalarRing_lawfulBase freedUpload

/-- An upload over a result that was computed under 17. -/
def uploadOverResult : List (Invocation UInt64) :=
  scalarProgram [.setRingDimension 1, .config (.setCiphertextModulus 0 17), .malloc true 8, uploadFive,
    .pp .add ⟨kHbmBase⟩ ⟨kHbmBase⟩ ⟨kHbmBase⟩ 0, uploadFive]

/-- The address holds the uploaded words, and the modulus of the result is recorded for it. -/
theorem recorded_provenance_counterexample :
    ⟨kHbmBase⟩ ∈ (World.runAll scalarRing .init uploadOverResult).epoch.inputAddrs ∧
      ¬ ∀ js, js <+: uploadOverResult →
        ∀ a ∈ (World.runAll scalarRing .init js).epoch.polyMap,
          (World.runAll scalarRing .init js).epoch.recordedModulusLocked a =
            (Journal.runAll scalarRing .init .empty js).provenance a := by
  refine ⟨by decide +kernel, fun h => ?_⟩
  have ha := h uploadOverResult (List.prefix_refl _) ⟨kHbmBase⟩ (by decide +kernel)
  exact absurd ha (by decide +kernel)

/-! ## Coherence -/

/-- The members of the known groups that were written under a modulus were written under those of
their groups. -/
def World.GroupsCoherent (w : World P M) (l : Journal) : Prop :=
  ∀ name group, AList.lookup name w.epoch.knownMrpGroups = some group →
    ∀ a m, (a, m) ∈ group.addrs.zip group.moduli → ∀ q, l.written a = some q → q = m

/-- The groups of a state are coherent when its journal is. -/
theorem World.groupsCoherent_iff {w : World P M} {l : Journal} (h : w.epoch.Records l) :
    w.GroupsCoherent l ↔ l.Coherent := by
  unfold World.GroupsCoherent Journal.Coherent Journal.Claims
  constructor
  · rintro hw a m ⟨x, e, he, hm⟩
    rw [← h.registry] at he
    obtain ⟨name, -, hg, -⟩ := EpochState.registry_eq_some.mp he
    exact hw name _ hg a m hm
  · intro hl name group hg a m hm
    obtain ⟨x, e, he, -, haddrs, hmoduli⟩ := h.valid.refines.group name group hg
    exact hl a m ⟨x, e, h.registry ▸ he, by rwa [haddrs, hmoduli]⟩

/-- Every store of a call agrees with the group that the call goes on to register, or if it
registers none, with the known groups that the address is in. -/
def Invocation.StoresAgree (w : World P M) (i : Invocation P) : Prop :=
  w.epoch.journal.AlongStores Journal.Agrees (i.events w)

/-- Every store of a call is in one residue of the group that the call goes on to register, under the
modulus that the group has for it, or if it registers none, in no residue of a known group. -/
def Invocation.StoresJoin (w : World P M) (i : Invocation P) : Prop :=
  w.epoch.journal.AlongStores Journal.Joins (i.events w)

/-- A call drops the groups whose residues it claims: of the groups that are known after it, the one
that it registered over its last store in an address alone has the address, and has it once. -/
def Invocation.DropsClaimed (F : Fhetch P M) (w : World P M) (i : Invocation P) : Prop :=
  ∀ es e fs a, i.events w = es ++ e :: fs → e.dst = some a → (∀ f ∈ fs, f.dst ≠ some a) →
    ∀ name group, AList.lookup name (w.after F i).epoch.knownMrpGroups = some group →
      a ∈ group.addrs →
        nextGroup fs = some (group.addrs, group.moduli) ∧ group.addrs.count a = 1

/-- A call whose stores agree keeps the journal coherent. -/
theorem Journal.Coherent.after {w : World P M} {l : Journal} (h : w.epoch.Records l)
    {i : Invocation P} (hi : i.StoresAgree w) (hl : l.Coherent) : (l.after w i).Coherent :=
  (hl.before _).foldl ((i.call.plan w).blocked.performed _ _) (hi.same Agrees.same h.same.symm)

/-- In a run whose every store agrees with the group that is registered over it, or with those that
its address stays in, the members of the groups were written under the moduli of their groups. -/
theorem Journal.coherent_runAll (hF : F.LawfulBase) {is : List (Invocation P)}
    (h : Expected.Along (World.after F) (fun w i => i.StoresAgree w) .init is) :
    (Journal.runAll F .init .empty is).Coherent :=
  invariant_runAll (I := fun _ l => l.Coherent) hF (fun _ _ _ _ h hi hl => hl.after h hi)
    (fun _ _ ⟨_, _, he, _⟩ => nomatch he) h

/-- A call whose stores join their groups drops the groups whose residues it claims. -/
theorem Invocation.StoresJoin.drops (hF : F.LawfulBase) {w : World P M} (hw : w.Inv) {l : Journal}
    (h : w.epoch.Records l) {i : Invocation P} (hi : i.StoresJoin w) : i.DropsClaimed F w := by
  intro es e fs a hes ha hlast name group hg hmem
  have hblocked : Blocked [] (es ++ e :: fs) := hes ▸ (i.call.plan w).blocked.performed _ _
  have hstores : l.AlongStores Joins (es ++ e :: fs) := hes ▸ hi.same Joins.same h.same.symm
  have hafter := World.records_after hF hw h i
  have hl : l.after w i = (es ++ e :: fs).foldl Journal.apply l := by rw [Journal.after, hes]
  -- The group is in the registry that the events leave.
  obtain ⟨x, r, hr, -, haddrs, hmoduli⟩ := hafter.valid.refines.group name group hg
  rw [hafter.registry, hl] at hr
  have honly := only_of_joins hblocked hstores ha hlast x r hr (haddrs ▸ hmem)
  rw [haddrs, hmoduli] at honly
  refine ⟨honly, ?_⟩
  have hjoins := hstores.store ha
  rw [honly] at hjoins
  exact hjoins.1

/-- In a run whose every store is in one residue of the group that is registered over it, under the
modulus that the group has for it, or in no residue of a group, the members of the known groups were
written under the moduli of their groups, and so were those of a polynomial that is passed as an
output; and every call of the run drops the groups whose residues it claims into other values. -/
theorem groups_coherent (F : Fhetch P M) (hF : F.LawfulBase) (is : List (Invocation P))
    (h : Expected.Along (World.after F) (fun w i => i.StoresJoin w) .init is) :
    let w := World.runAll F .init is
    let l := Journal.runAll F .init .empty is
    w.GroupsCoherent l ∧
    (∀ env name m, (name, m) ∈ World.taggedGroups F env w →
      ∃ e pairs, m = F.fromPairs pairs ∧ w.Bundles e pairs ∧
        ∀ a p, (a, p) ∈ e.addrs.zip e.moduli → ∀ q, l.written a = some q → q = p) ∧
    Expected.Along (World.after F) (fun w i => i.DropsClaimed F w) .init is := by
  intro w l
  obtain ⟨hinv, hrecords⟩ := follows_runAll (F := F) hF is
  have hcoherent : l.Coherent :=
    -- A store that joins its group agrees with it.
    coherent_runAll hF (h.mono fun w i hi => AlongStores.imp (fun _ _ _ _ => Joins.agrees) hi)
  refine ⟨(World.groupsCoherent_iff hrecords).mpr hcoherent, fun env name m hm => ?_, ?_⟩
  -- The members are bundled under their moduli, which are those they were written under.
  · obtain ⟨a, e, pairs, he, -, -, hpairs, rfl⟩ :=
      ((World.taggedGroups_spec env ⟨hinv.epoch, rfl⟩).2 name m).mp hm
    exact ⟨e, pairs, rfl, hpairs, fun b p hb => hcoherent b p ⟨a, e, hrecords.registry ▸ he, hb⟩⟩
  · -- In every state of the run there is a journal of what came before.
    refine h.mono_of_invariant (I := fun v => v.Inv ∧ ∃ k, v.epoch.Records k) ?_ ?_
      ⟨World.inv_init, _, EpochState.records_init⟩
    · rintro v i - ⟨hv, k, hk⟩
      exact ⟨hv.after i, _, World.records_after hF hv hk i⟩
    · rintro v i ⟨hv, k, hk⟩ hi
      exact hi.drops hF hv hk

/-- The upload of two residues. -/
def uploadedPair : List (Invocation UInt64) :=
  scalarProgram [.setRingDimension 1, .config (.setCiphertextModulus 0 17), .mallocMrp true 2 8,
    .memcpyMrp (.hostToDevice (some [⟨kHbmBase⟩, ⟨kHbmBase + 8⟩])
      (some [some [5, 0, 0, 0, 0, 0, 0, 0], some [6, 0, 0, 0, 0, 0, 0, 0]])) 8 (some [17, 19])]

/-- Their sum, in place. -/
def sumPair : Invocation UInt64 := ⟨scalarReplies, .ppMrp .add (some [⟨kHbmBase⟩, ⟨kHbmBase + 8⟩])
  (some [⟨kHbmBase⟩, ⟨kHbmBase + 8⟩]) (some [⟨kHbmBase⟩, ⟨kHbmBase + 8⟩]) (some [17, 19])⟩

/-- The sum stores what it registers. -/
theorem sumPair_events : sumPair.events (World.runAll scalarRing .init uploadedPair) =
    [.resolve ⟨kHbmBase⟩, .resolve ⟨kHbmBase + 8⟩, .resolve ⟨kHbmBase⟩, .resolve ⟨kHbmBase + 8⟩,
      .compute ⟨kHbmBase⟩ 17, .compute ⟨kHbmBase + 8⟩ 19,
      .register [⟨kHbmBase⟩, ⟨kHbmBase + 8⟩] [17, 19]] := by
  decide +kernel

/-- The upload, and the sum as a group. -/
def groupedSum : List (Invocation UInt64) := uploadedPair ++ [sumPair]

/-- The sum leaves a coherent group, and drops none. -/
theorem groups_coherent_example :
    (World.runAll scalarRing .init groupedSum).GroupsCoherent
        (Journal.runAll scalarRing .init .empty groupedSum) ∧
      Expected.Along (World.after scalarRing) (fun w i => i.DropsClaimed scalarRing w) .init
        groupedSum := by
  refine (groups_coherent scalarRing scalarRing_lawfulBase groupedSum ?_).imp_right And.right
  -- The uploads register no group; the sum stores each member under its own modulus.
  refine Expected.along_append.mpr ⟨?_, ?_, trivial⟩
  · unfold uploadedPair scalarProgram
    exact ⟨alongStores_quiet (by decide +kernel), alongStores_quiet (by decide +kernel),
      alongStores_quiet (by decide +kernel), alongStores_quiet (by decide +kernel), trivial⟩
  · change Journal.AlongStores _ _ (sumPair.events (World.runAll scalarRing .init uploadedPair))
    rw [sumPair_events]
    have hne : (⟨kHbmBase⟩ : DevAddr) ≠ ⟨kHbmBase + 8⟩ := by decide
    refine ⟨nofun, nofun, nofun, nofun, ?_, ?_, nofun, trivial⟩
    · rintro _ ⟨⟩
      refine ⟨by decide, fun _ m hm => ?_⟩
      change (_, m) ∈ [(_, 17), (_, 19)] at hm
      change 17 = m
      simpa [hne, eq_comm] using hm
    · rintro _ ⟨⟩
      refine ⟨by decide, fun _ m hm => ?_⟩
      change (_, m) ∈ [(_, 17), (_, 19)] at hm
      change 19 = m
      simpa [hne.symm, eq_comm] using hm

/-- The sum as a group, and another sum in its first residue alone. -/
def rewrittenMember : List (Invocation UInt64) :=
  groupedSum ++ scalarProgram [.config (.setCiphertextModulus 0 23),
    .pp .add ⟨kHbmBase⟩ ⟨kHbmBase⟩ ⟨kHbmBase⟩ 0]

/-- The group stays, with a residue that was computed under 23 where it has 17. -/
theorem groups_coherent_counterexample :
    ¬ (World.runAll scalarRing .init rewrittenMember).GroupsCoherent
      (Journal.runAll scalarRing .init .empty rewrittenMember) := by
  intro h
  have hq := h (.hazeMrpOut 0) ⟨[⟨kHbmBase⟩, ⟨kHbmBase + 8⟩], [17, 19]⟩ (by decide +kernel) ⟨kHbmBase⟩ 17
    (by decide) 23 (by decide +kernel)
  exact absurd hq (by decide)

/-! ## Coverage -/

/-- The members of the tagged groups that are bound to results are tagged. -/
def World.GroupsCovered (w : World P M) : Prop :=
  ∀ name ∈ w.epoch.pendingMrpGroups, ∀ group, AList.lookup name w.epoch.knownMrpGroups = some group →
    ∀ a ∈ group.addrs, a ∈ w.epoch.polyMap → a ∉ w.epoch.inputAddrs → a ∈ w.epoch.pendingOutputs

/-- The groups of a state are covered when its journal is. -/
theorem World.groupsCovered_iff {w : World P M} {l : Journal} (h : w.epoch.Records l) :
    w.GroupsCovered ↔ l.Covered := by
  -- An address is computed exactly where it is bound and not an input.
  have hcomputed : ∀ a, l.IsComputed a ↔ a ∈ w.epoch.polyMap ∧ a ∉ w.epoch.inputAddrs := fun a => by
    have hcell := h.cell a
    unfold EpochState.facts at hcell
    unfold Journal.IsComputed
    split_ifs at hcell with ha
    · obtain ⟨c, hc, heq⟩ := Option.map_eq_some_iff.mp hcell
      have hinput : c.input = decide (a ∈ w.epoch.inputAddrs) := congrArg Prod.snd heq
      simp [hc, hinput, ha]
    · rw [Option.map_eq_none_iff.mp hcell]
      simp [ha]
  unfold World.GroupsCovered Journal.Covered
  constructor
  -- Tagged groups are the pending ones, seen from either side.
  · intro hw x r hr ht b hb hc
    rw [← h.registry] at hr
    obtain ⟨name, -, hg, hpending⟩ := EpochState.registry_eq_some.mp hr
    exact (h.tagged b).mpr (hw name (hpending.mp ht) _ hg b hb ((hcomputed b).mp hc).1
      ((hcomputed b).mp hc).2)
  · intro hl name hname group hg a ha hb hi
    obtain ⟨x, e, he, hn, haddrs, -⟩ := h.valid.refines.group name group hg
    obtain ⟨name', hn', -, hpending⟩ := EpochState.registry_eq_some.mp he
    rw [hn] at hn'
    cases hn'
    exact (h.tagged a).mp (hl x e (h.registry ▸ he) (hpending.mpr hname) a (haddrs ▸ ha)
      ((hcomputed a).mpr ⟨hb, hi⟩))

/-- A call that stores in an untagged member of a tagged group goes on to register another group
over it. -/
def Invocation.StoresTagged (w : World P M) (i : Invocation P) : Prop :=
  w.epoch.journal.AlongStores Journal.Reshapes (i.events w)

/-- A call whose stores in tagged groups reshape them keeps the journal covered. -/
theorem Journal.Covered.after {w : World P M} {l : Journal} (h : w.epoch.Records l)
    {i : Invocation P} (hi : i.StoresTagged w) (hl : l.Covered) : (l.after w i).Covered :=
  (hl.before _).foldl ((i.call.plan w).blocked.performed _ _) (hi.same Reshapes.same h.same.symm)

/-- A flush that succeeds was a finalization that did. -/
theorem hazeFlush_success {env : CompilerReplies P} {w : World P M}
    (h : (hazeFlush F env w).1.code = .success) :
    ∃ w', World.finalizeLocked F env true w = (.ok (), w') ∧ (hazeFlush F env w).2 = w' := by
  obtain ⟨_, hok⟩ := Shim.replyWith_success h
  have hflush : (hazeFlush F env w).2 = (World.flush F env w).2 := Shim.replyWith_state _ _ w
  unfold World.flush at hok hflush
  rw [Expected.get_bind_run] at hok hflush
  split_ifs at hok hflush
  · cases hok
  · exact ⟨_, Prod.ext hok rfl, hflush⟩

/-- In a run without stores in the untagged members of tagged groups, other than those that another
group is registered over, the members of tagged groups that are bound to results are tagged. A
successful flush of a recorded epoch leaves in each of these, and in each other member with a tag,
the values that were read back for it; a member without a tag was uploaded, and keeps its words. -/
theorem groups_covered (F : Fhetch P M) (hF : F.LawfulBase) (is : List (Invocation P))
    (h : Expected.Along (World.after F) (fun w i => i.StoresTagged w) .init is) :
    let w := World.runAll F .init is
    w.GroupsCovered ∧ ∀ env, w.epoch.recording = true →
      (hazeFlush F env w).1.code = .success → ∀ name ∈ w.epoch.pendingMrpGroups,
        ∀ group, AList.lookup name w.epoch.knownMrpGroups = some group →
          ∀ a ∈ group.addrs,
            (a ∉ w.epoch.inputAddrs ∨ a ∈ w.epoch.pendingOutputs → ∃ output values,
              AList.lookup a w.epoch.pendingOutputs = some output ∧
              World.decoded env (World.taggedOutputs env w) ⟨a, output⟩ = some values ∧
              a ∈ (hazeFlush F env w).2.allocator.allocSet ∧
              (hazeFlush F env w).2.shadow a = some (values.takeD w.allocator.wantElems 0)) ∧
            (a ∉ w.epoch.pendingOutputs → (hazeFlush F env w).2.shadow a = w.shadow a) := by
  intro w
  obtain ⟨hinv, hrecords⟩ := follows_runAll (F := F) hF is
  have hcovered : w.GroupsCovered := (World.groupsCovered_iff hrecords).mpr
    (invariant_runAll (I := fun _ l => l.Covered) hF
      (fun w l i _ h hi hl => hl.after h hi) (fun x r hr => nomatch hr) h)
  refine ⟨hcovered, fun env hrec hsuccess name hname group hg a ha => ?_⟩
  have hreach : w.Reachable F := ⟨is, rfl⟩
  have hbound : a ∈ w.epoch.polyMap := hinv.epoch.consistent.member_bound name a ⟨group, hg, ha⟩
  obtain ⟨w', hok, hw'⟩ := hazeFlush_success hsuccess
  obtain ⟨houtputs, hallocator, -⟩ := World.finalize_ok hinv.epoch.consistent hreach.captured hrec hok
  refine ⟨fun htagged => ?_, fun huntagged => hw' ▸ ?_⟩
  · have hpending : a ∈ w.epoch.pendingOutputs :=
      htagged.elim (hcovered name hname group hg a ha hbound) id
    obtain ⟨output, houtput⟩ := UMap.mem_iff_lookup.mp hpending
    have hmem : (⟨a, output⟩ : Sigma fun _ : DevAddr => ProbeName) ∈ World.outputs env w :=
      World.mem_outputs.mpr houtput
    obtain ⟨hdecoded, hlive⟩ := houtputs _ hmem
    obtain ⟨values, hvalues⟩ := Option.isSome_iff_exists.mp hdecoded
    refine ⟨output, values, houtput, hvalues, ?_, ?_⟩
    · rw [hw', hallocator, World.populated_frame]
      exact hlive
    · change (hazeFlush F env w).2.allocator.shadow a = _
      rw [hw', hallocator, World.shadow_populated_of_mem (World.outputs_keys_nodup env w) hmem,
        hvalues, Option.getD_some]
  -- Only the outputs are populated.
  · change w'.allocator.shadow a = _
    rw [hallocator, World.shadow_populated_of_notMem fun entry hentry heq => huntagged ?_]
    · rfl
    · exact heq ▸ UMap.mem_of_lookup (World.mem_outputs.mp hentry)

/-- The sum as a tagged group. -/
def taggedSum : List (Invocation UInt64) := groupedSum ++ scalarProgram [.tagOutput ⟨kHbmBase⟩]

/-- The tagged sum is covered. -/
theorem groups_covered_example : (World.runAll scalarRing .init taggedSum).GroupsCovered := by
  refine (groups_covered scalarRing scalarRing_lawfulBase taggedSum ?_).1
  refine Expected.along_append.mpr ⟨Expected.along_append.mpr ⟨?_, ?_, trivial⟩, ?_⟩
  · unfold uploadedPair scalarProgram
    exact ⟨alongStores_quiet (by decide +kernel), alongStores_quiet (by decide +kernel),
      alongStores_quiet (by decide +kernel), alongStores_quiet (by decide +kernel), trivial⟩
  · change Journal.AlongStores _ _ (sumPair.events (World.runAll scalarRing .init uploadedPair))
    have hkeys : (World.runAll scalarRing .init uploadedPair).epoch.mrpOutNames.keys = [] := by
      decide +kernel
    have hnone : ∀ x, (World.runAll scalarRing .init uploadedPair).epoch.registry x = none :=
      fun x => EpochState.registry_unnamed (AList.lookup_eq_none.mpr fun hx => by
        rw [AList.mem_keys, hkeys] at hx
        cases hx)
    rw [sumPair_events]
    exact alongStores_unregistered (fun l a q hnone next x r hr => nomatch (hnone x).symm.trans hr)
      hnone (by decide)
  · exact ⟨alongStores_quiet (by decide +kernel), trivial⟩

/-- A residue of the tagged sum uploaded and then computed once more. -/
def recomputedMember : List (Invocation UInt64) :=
  taggedSum ++ scalarProgram [uploadFive, .pp .add ⟨kHbmBase⟩ ⟨kHbmBase⟩ ⟨kHbmBase⟩ 0]

/-- The group is still tagged, and its first residue is a result without a tag. -/
theorem groups_covered_counterexample :
    ¬ (World.runAll scalarRing .init recomputedMember).GroupsCovered := by
  intro h
  have ha := h (.hazeMrpOut 0) (by decide +kernel) ⟨[⟨kHbmBase⟩, ⟨kHbmBase + 8⟩], [17, 19]⟩
    (by decide +kernel) ⟨kHbmBase⟩ (by decide) (by decide +kernel) (by decide +kernel)
  exact absurd ha (by decide +kernel)

end Haze
