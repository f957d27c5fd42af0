import Haze.Allocation.Recycle
import Haze.Runtime.History

/-!
# Liveness of bound addresses

A call that stores results does not ask whether their addresses are live. `BoundLive` says that
every bound address is: it holds along a run whose stores are all to live addresses, and then an
address that is handed out again carries nothing from its earlier life (`recycled_clean`). A call
rejects a destination that is not live only where a source that it refers to before is not live
either (`bound_live`).
-/

namespace Haze

variable {P M : Type} {F : Fhetch P M}

/-- The address that an event refers to or stores in. -/
def EpochEvent.refers : EpochEvent → Option DevAddr
  | .resolve a => some a
  | .upload a => some a
  | e => e.dst

namespace Journal

variable {l : Journal} {e : EpochEvent} {es : List EpochEvent} {b : DevAddr}

/-- An event binds no address but the one that it refers to. -/
theorem bound_apply (h : ((l.apply e).cell b).isSome = true) :
    (l.cell b).isSome = true ∨ e.refers = some b := by
  -- An event binds its destination, or the address that it resolves or uploads.
  rcases hd : e.dst with _ | d
  · cases e with
    | resolve a =>
      change ((l.resolve a).cell b).isSome = true at h
      rw [cell_resolve] at h
      split_ifs at h with hb
      · exact .inr (congrArg some hb.symm)
      · exact .inl h
    | upload a =>
      change ((l.set a _).cell b).isSome = true at h
      rw [cell_set] at h
      split_ifs at h with hb
      · exact .inr (congrArg some hb.symm)
      · exact .inl h
    | register addrs moduli => exact .inl h
    | tag a =>
      change ((l.tag a).cell b).isSome = true at h
      rw [cell_tag] at h
      exact .inl h
    | invalidate a =>
      change ((l.invalidate a).cell b).isSome = true at h
      rw [cell_invalidate] at h
      split_ifs at h
      · cases h
      · exact .inl h
    | clear => cases h
    | _ => cases hd
  -- A store binds its destination alone.
  · by_cases hb : b = d
    · refine .inr ?_
      rw [hb, ← hd]
      cases e <;> first | rfl | cases hd
    · have hcell := congrArg Option.isSome ((store_spec (l := l) hd).2.1 b hb)
      rw [Option.isSome_map, Option.isSome_map] at hcell
      exact .inl (hcell ▸ h)

/-- What happens of a plan binds no address but those whose words are taken, and those that it
uploads to or stores in. -/
theorem bound_performed {words : DevAddr → Option HazeInternalError} {live : DevAddr → Prop}
    (hwords : ∀ a, words a = none → live a)
    (hes : ∀ e ∈ (machine words).performed l es, ∀ a, e = .upload a ∨ e.dst = some a → live a)
    (h : (((machine words).after l ((machine words).performed l es)).cell b).isSome = true) :
    (l.cell b).isSome = true ∨ live b := by
  -- By induction on the events, up to the first one that is refused.
  induction es generalizing l with
  | nil => exact .inl h
  | cons e es ih =>
    rcases hr : (machine words).refuse l e with _ | x
    · rw [EventMachine.performed_cons _ hr] at hes h
      rcases ih (fun f hf => hes f (List.mem_cons_of_mem _ hf)) h with hb | hb
      · have he := hes e (List.mem_cons_self ..)
        rcases bound_apply hb with hb | hb
        · exact .inl hb
        -- What an event binds is live: its words were there, or the call writes to it.
        · cases e with
          | resolve a =>
            cases hb
            by_cases hbound : (l.cell b).isSome = true
            · exact .inl hbound
            · exact .inr (hwords b ((if_neg hbound).symm.trans hr))
          | upload a =>
            cases hb
            exact .inr (he b (.inl rfl))
          | _ => exact .inr (he b (.inr hb))
      · exact .inr hb
    · rw [EventMachine.performed_cons_refused _ hr] at h
      exact .inl h

/-- The addresses that are dropped are not bound. -/
theorem cell_drops (addrs : List DevAddr) (b : DevAddr) :
    ((addrs.map .invalidate).foldl Journal.apply l).cell b =
      if b ∈ addrs then none else l.cell b := by
  induction addrs generalizing l with
  | nil => rfl
  | cons a addrs ih =>
    rw [List.map_cons, List.foldl_cons, ih]
    change (if b ∈ addrs then none else (l.invalidate a).cell b) = _
    rw [cell_invalidate]
    by_cases hb : b = a <;> by_cases hmem : b ∈ addrs <;> simp [hb, hmem]

end Journal

/-! ## What keeps the bound addresses live -/

/-- Every bound address is live. -/
def World.BoundLive (w : World P M) : Prop := ∀ a ∈ w.epoch.polyMap, a ∈ w.allocator.allocSet

/-- The results that a call stores are stored in live addresses. -/
def Invocation.WritesLive (w : World P M) (i : Invocation P) : Prop :=
  ∀ e ∈ i.events w, ∀ a, e.dst = some a → a ∈ w.allocator.allocSet

section

variable {w : World P M} {l : Journal} {i : Invocation P}

/-- Words are taken for live addresses only. -/
theorem live_of_words {a : DevAddr} (h : w.wordsError a = none) : a ∈ w.allocator.allocSet := by
  obtain ⟨values, hc⟩ := World.wordsError_eq_none.mp h
  exact (World.components_ok hc).2.1

/-- Uploads are to live addresses only. -/
theorem live_of_upload {c : Call} {a : DevAddr} (h : .upload a ∈ c.events w) :
    a ∈ w.allocator.allocSet := by
  rcases (c.plan w).uploads_cases with ⟨residues, count, he⟩ | hnone
  · rw [he] at h
    unfold World.uploadEvents at h
    split_ifs at h with hall
    · obtain ⟨r, hr, heq⟩ := List.mem_map.mp h
      cases heq
      have hcheck := (Bool.and_eq_true_iff.mp (List.all_eq_true.mp hall.1 r hr)).2
      rcases hc : w.allocator.checkRange r.1 count with e | _
      · rw [hc] at hcheck
        cases hcheck
      · exact (DeviceAllocator.checkRange_ok hc).1
    · exact absurd h List.not_mem_nil
  · exact absurd h (hnone a)

/-- What happens of a call's plan, on any journal that says what the epoch is. -/
theorem events_eq (hr : w.epoch.Records l) (i : Invocation P) :
    i.events w = w.machine.performed l (i.call.events w) :=
  ((hr.same.performed w.wordsError _).1).symm

/-- A plan that refers to no address happens as a whole. -/
theorem events_of_quiet (h : ∀ a, .resolve a ∉ i.call.events w) : i.events w = i.call.events w :=
  w.machine.performed_of_completes (w.machine.completes_of_possible (fun e he l => by
    cases e with
    | resolve a => exact absurd he (h a)
    | _ => rfl) w.epoch.journal)

/-- A call that drops addresses leaves them unbound. -/
theorem dropped_unbound (h : (w.after F i).epoch.Records (l.after w i)) {addrs : List DevAddr}
    (he : i.call.events w = addrs.map .invalidate) {a : DevAddr} (ha : a ∈ addrs) :
    a ∉ (w.after F i).epoch.polyMap := by
  rw [← h.unbound_iff, Journal.after, events_of_quiet (by simp [he]), he, Journal.cell_drops, if_pos ha]

/-- The addresses that a call frees are not bound after it, and no address is after a reset. -/
theorem freed_unbound (h : (w.after F i).epoch.Records (l.after w i)) {op : AllocatorOp}
    (hop : i.call.allocatorOp = some op) {a : DevAddr} (ha : a ∈ op.frees ∨ op = .reset) :
    a ∉ (w.after F i).epoch.polyMap := by
  obtain ⟨env, c⟩ := i
  -- Only a free and a reset give addresses back.
  cases c with
  | free ptr =>
    cases hop
    rcases ha with ha | ha
    -- The address has been invalidated before it is freed.
    · obtain ⟨hmem, hnull⟩ := List.mem_filter.mp ha
      cases List.mem_singleton.mp hmem
      have hplan : (Call.free a).events w = [a].map .invalidate := if_neg (of_decide_eq_true hnull)
      exact dropped_unbound h hplan (List.mem_singleton_self a)
    · cases ha
  | freeMrp ptrs count =>
    rcases ptrs with _ | ptrs
    · cases hop
    change (if count > kMaxCiphertextModuli then none else _) = some op at hop
    split_ifs at hop with hcount
    cases hop
    rcases ha with ha | ha
    · exact dropped_unbound h (if_neg hcount) ha
    · cases ha
  | deviceReset =>
    rw [← h.unbound_iff, Journal.after, events_of_quiet (by simp [Call.events])]
    rfl
  | malloc ptr size =>
    cases hop
    rcases ha with ha | ha <;> cases ha
  | mallocMrp ptrs count size =>
    cases hop
    rcases ha with ha | ha <;> cases ha
  | setRingDimension n =>
    cases hop
    rcases ha with ha | ha <;> cases ha
  | _ => cases hop

/-- A call that stores in live addresses keeps the bound addresses live. -/
theorem World.BoundLive.after (hF : F.LawfulBase) (hw : w.Inv) (hr : w.epoch.Records l)
    (hi : i.WritesLive w) (h : w.BoundLive) : (w.after F i).BoundLive := by
  intro a ha
  have hafter := World.records_after hF hw hr i
  have hsame := events_eq hr i
  have hlive : a ∈ w.allocator.allocSet := by
    have hcell := hafter.bound_iff.mpr ha
    rw [Journal.after, hsame] at hcell
    have hevents : ∀ e ∈ w.machine.performed l (i.call.events w), ∀ b,
        e = .upload b ∨ e.dst = some b → b ∈ w.allocator.allocSet := by
      rintro e he b (rfl | hb)
      · exact live_of_upload ((w.machine.performed_prefix _ _).subset he)
      · exact hi e (hsame ▸ he) b hb
    rcases Journal.bound_performed (fun b hb => live_of_words hb) hevents hcell with hb | hb
    · exact h a (hr.bound_iff.mp hb)
    · exact hb
  rcases layout_after F w i with ⟨halloc, -, -⟩ | ⟨op, hop, he⟩
  · exact halloc ▸ hlive
  · rw [he]
    refine AllocatorOp.live_step hw.allocator (fun hreset => ?_) hlive fun hfree => ?_
    · exact freed_unbound hafter hop (.inr hreset) ha
    · exact freed_unbound hafter hop (.inl hfree) ha

end

/-! ## Recycled addresses -/

/-- Nothing is held of an address. -/
structure World.Clean (w : World P M) (a : DevAddr) : Prop where
  shadow : w.shadow a = none
  unbound : a ∉ w.epoch.polyMap
  untagged : a ∉ w.epoch.pendingOutputs
  notInput : a ∉ w.epoch.inputAddrs
  unmarked : a ∉ w.epoch.addrModulus
  unnamedIn : a ∉ w.epoch.mrpInNames
  unnamedOut : a ∉ w.epoch.mrpOutNames
  unclaimed : a ∉ w.epoch.addrToMrpGroups
  noKnown : ∀ name group, AList.lookup name w.epoch.knownMrpGroups = some group → a ∉ group.addrs
  noPending : ∀ name ∈ w.epoch.pendingMrpGroups, ¬ w.epoch.Member name a

/-- What an epoch holds, it holds of bound addresses. -/
theorem World.clean_of_unbound {w : World P M} {l : Journal} (hr : w.epoch.Records l) {a : DevAddr}
    (hs : w.shadow a = none) (ha : a ∉ w.epoch.polyMap) : w.Clean a := by
  have hc := hr.valid.consistent
  have hmember : ∀ name, ¬ w.epoch.Member name a := fun name h => ha (hc.member_bound name a h)
  refine ⟨hs, ha, fun h => ha (hc.pending_bound a h), fun h => ha (hc.input_bound a h),
    fun h => ha (hc.modulus_bound a h), fun h => ha (hr.named a (.inl h)),
    fun h => ha (hr.named a (.inr h)), fun h => ?_, fun name group hg h => hmember name ⟨group, hg, h⟩,
    fun name _ => hmember name⟩
  obtain ⟨names, hnames⟩ := UMap.mem_iff_lookup.mp h
  have hne := hc.indexed.noEmpty a names hnames
  obtain ⟨name, hname⟩ : ∃ name, name ∈ names := by
    by_contra hnone
    exact hne (UMap.eq_empty_iff.mpr fun name hname => hnone ⟨name, hname⟩)
  exact hmember name (hc.indexed.member_iff.mpr ⟨names, hnames, hname⟩)

/-- A recycled address carries nothing from its earlier life: in a run whose stores are all to live
addresses and whose allocations do not wrap the bump pointer, nothing is held of an address when it
is handed out. -/
theorem recycled_clean (F : Fhetch P M) (hF : F.LawfulBase) (is : List (Invocation P))
    (i : Invocation P) (hi : i.call.HandsOut)
    (h : Expected.Along (World.after F)
      (fun w i => i.WritesLive w ∧ i.call.NoWrap w.allocator) .init (is ++ [i])) :
    ∀ a ∈ (i.run F (World.runAll F .init is)).1.ptrs,
      ((World.runAll F .init is).after F i).Clean a := by
  -- Up to the call nothing bound has been freed, and the pointer has not wrapped.
  obtain ⟨hrun, ⟨-, hwrap⟩, -⟩ := Expected.along_append.mp h
  obtain ⟨hw, hr⟩ := Journal.follows_runAll (F := F) hF is
  obtain ⟨hlive, hbounded⟩ := Journal.invariant_runAll
    (I := fun w _ => w.BoundLive ∧ w.allocator.Bounded) hF
    (fun w l i hw hr hi hI => ⟨hI.1.after hF hw hr hi.1, bounded_after hw hI.2 hi.2⟩)
    ⟨fun a ha => absurd ha (AList.notMem_empty a), DeviceAllocator.bounded_init⟩ hrun
  change i.call.NoWrap (World.runAll F .init is).allocator at hwrap
  generalize World.runAll F .init is = w at *
  generalize Journal.runAll F .init .empty is = l at hr
  intro a ha
  obtain ⟨hfresh, hshadow, hepoch, -⟩ := handedOut_fresh (F := F) hw hi
  -- So an address that is handed out was dead, and nothing is left of its last life.
  have hdead := hfresh hbounded hwrap a ha
  refine World.clean_of_unbound (l := l) (hepoch ▸ hr) ?_ fun hbound => ?_
  · change AList.lookup a (w.after F i).allocator.shadowData = none
    rw [hshadow]
    exact UMap.notMem_iff_lookup.mp fun hm => hdead (hw.allocator.shadow_live a hm)
  · rw [hepoch] at hbound
    exact hdead (hlive a hbound)

/-- A tagged sum of two residues that are freed while the epoch records them. -/
def freedSum : List (Invocation UInt64) :=
  scalarProgram [.setRingDimension 1, .mallocMrp true 2 8,
    .memset ⟨kHbmBase⟩ 1 8, .memset ⟨kHbmBase + 8⟩ 2 8,
    .ppMrp .add (some [⟨kHbmBase⟩, ⟨kHbmBase + 8⟩]) (some [⟨kHbmBase⟩, ⟨kHbmBase + 8⟩])
      (some [⟨kHbmBase⟩, ⟨kHbmBase + 8⟩]) (some [17, 19]),
    .tagOutput ⟨kHbmBase⟩,
    .freeMrp (some [⟨kHbmBase⟩, .null, ⟨kHbmBase + 8⟩, ⟨kHbmBase⟩]) 4]

/-- A call writes live addresses when its events do. -/
theorem writesLive_of {w : World P M} {i : Invocation P}
    (h : ∀ a ∈ (i.events w).filterMap EpochEvent.dst, a ∈ w.allocator.allocSet) : i.WritesLive w :=
  fun e he a ha => h a (List.mem_filterMap.mpr ⟨e, he, ha⟩)

/-- A call wraps nothing when its operation does not. -/
theorem noWrap_of {s : DeviceAllocator} {c : Call} {op : AllocatorOp}
    (hop : c.allocatorOp = some op) (h : op.NoWrap s) : c.NoWrap s := fun op' hop' => by
  rw [hop] at hop'
  cases hop'
  exact h

/-- A call without an operation on the allocator wraps nothing. -/
theorem noWrap_of_none {s : DeviceAllocator} {c : Call} (hop : c.allocatorOp = none) : c.NoWrap s :=
  fun op hop' => by
    rw [hop] at hop'
    cases hop'

/-- The two addresses are handed out again, and nothing is held of them. -/
theorem recycled_clean_example :
    ((World.runAll scalarRing .init freedSum).after scalarRing
        ⟨scalarReplies, .mallocMrp true 2 8⟩).Clean ⟨kHbmBase + 8⟩ ∧
      ((World.runAll scalarRing .init freedSum).after scalarRing
        ⟨scalarReplies, .mallocMrp true 2 8⟩).Clean ⟨kHbmBase⟩ := by
  have hclean := recycled_clean scalarRing scalarRing_lawfulBase freedSum
    ⟨scalarReplies, .mallocMrp true 2 8⟩ trivial
    ⟨⟨writesLive_of (by decide +kernel), noWrap_of rfl trivial⟩,
      ⟨writesLive_of (by decide +kernel), noWrap_of rfl fun _ => ?_⟩,
      ⟨writesLive_of (by decide +kernel), noWrap_of_none rfl⟩,
      ⟨writesLive_of (by decide +kernel), noWrap_of_none rfl⟩,
      ⟨writesLive_of (by decide +kernel), noWrap_of_none rfl⟩,
      ⟨writesLive_of (by decide +kernel), noWrap_of_none rfl⟩,
      ⟨writesLive_of (by decide +kernel), noWrap_of rfl trivial⟩,
      ⟨writesLive_of (by decide +kernel), noWrap_of rfl fun _ => ?_⟩, trivial⟩
  · have hptrs : (Invocation.run scalarRing ⟨scalarReplies, .mallocMrp true 2 8⟩
        (World.runAll scalarRing .init freedSum)).1.ptrs = [⟨kHbmBase + 8⟩, ⟨kHbmBase⟩] := by
      decide +kernel
    rw [hptrs] at hclean
    exact ⟨hclean _ (by decide), hclean _ (by decide)⟩
  -- There is room for two polynomials of one word each.
  · unfold DeviceAllocator.RoomFor
    decide +kernel
  · unfold DeviceAllocator.RoomFor
    decide +kernel

/-! ## Plans that stop at a source -/

namespace Journal

variable {l : Journal}

/-- References to bound addresses change nothing. -/
theorem resolves_bound (words : DevAddr → Option HazeInternalError) {bound : List DevAddr}
    (h : ∀ b ∈ bound, (l.cell b).isSome = true) (es : List EpochEvent) :
    (machine words).performed l (bound.map .resolve ++ es) =
        bound.map .resolve ++ (machine words).performed l es ∧
      (machine words).refusal l (bound.map .resolve ++ es) = (machine words).refusal l es ∧
      (bound.map .resolve).foldl Journal.apply l = l := by
  induction bound with
  | nil => exact ⟨rfl, rfl, rfl⟩
  | cons b bound ih =>
    have hb := h b (List.mem_cons_self ..)
    obtain ⟨c, hc⟩ := Option.isSome_iff_exists.mp hb
    have hrefuse : (machine words).refuse l (.resolve b) = none := if_pos hb
    have happly : l.apply (.resolve b) = l := by
      change l.resolve b = l
      unfold resolve
      rw [hc]
    obtain ⟨hperformed, hrefusal, hfold⟩ := ih fun b' hb' => h b' (List.mem_cons_of_mem _ hb')
    have happly' : (machine words).apply l (.resolve b) = l := happly
    rw [List.map_cons, List.cons_append, EventMachine.performed_cons _ hrefuse,
      EventMachine.refusal_cons _ hrefuse, happly', hperformed, hrefusal, List.foldl_cons, happly]
    exact ⟨rfl, rfl, hfold⟩

/-- What was bound before references is bound after them, and so is what they refer to. -/
theorem bound_resolves (bound : List DevAddr) (b : DevAddr) :
    (((bound.map .resolve).foldl Journal.apply l).cell b).isSome = true ↔
      (l.cell b).isSome = true ∨ b ∈ bound := by
  induction bound generalizing l with
  | nil => simp
  | cons a bound ih =>
    rw [List.map_cons, List.foldl_cons, ih]
    change ((l.resolve a).cell b).isSome = true ∨ b ∈ bound ↔ _
    rw [cell_resolve]
    by_cases hb : b = a
    · simp [hb]
    · simp [hb]

end Journal

/-- Events that are all lookups are lookups of a list. -/
theorem exists_map_resolve {es : List EpochEvent} (h : ∀ e ∈ es, ∃ b, e = .resolve b) :
    ∃ bs : List DevAddr, es = bs.map .resolve := by
  induction es with
  | nil => exact ⟨[], rfl⟩
  | cons e es ih =>
    obtain ⟨b, rfl⟩ := h e (List.mem_cons_self ..)
    obtain ⟨bs, rfl⟩ := ih fun f hf => h f (List.mem_cons_of_mem _ hf)
    exact ⟨b :: bs, rfl⟩

/-- Before a reference, a plan that stored nothing has references only. -/
theorem Plan.before_resolve {w : World P M} {es before rest : List EpochEvent} {a : DevAddr}
    (h : Plan w es) (he : es = before ++ .resolve a :: rest) (hdst : ∀ e ∈ before, e.dst = Option.none) :
    ∃ bs : List DevAddr, before = bs.map .resolve := by
  refine exists_map_resolve fun e hmem => ?_
  have hresolve : .resolve a ∈ es := by
    rw [he]
    exact List.mem_append_right _ (List.mem_cons_self ..)
  have hlast : e ∈ es.dropLast := by
    rw [he, List.dropLast_append_cons]
    exact List.mem_append_left _ hmem
  have hnone := hdst e hmem
  cases h with
  | none => cases hresolve
  | uploads residues count => exact absurd rfl (World.uploadEvents_ne_resolve hresolve a)
  | store srcs he =>
    rw [List.dropLast_concat] at hlast
    obtain ⟨b, -, rfl⟩ := List.mem_map.mp hlast
    exact ⟨b, rfl⟩
  | copies dst src base =>
    -- The only event that neither refers nor stores is the registration at the end.
    have hcopies : e ∈ (((World.takePtrs base.length dst).zip (World.takePtrs base.length src)).zip
        base).flatMap (fun r => [EpochEvent.resolve r.1.2, .copy r.1.1 r.1.2 r.2]) := by
      unfold copyEvents groupEvents at hlast
      split_ifs at hlast
      · rwa [List.dropLast_concat] at hlast
      · rw [List.append_nil] at hlast
        exact List.mem_of_mem_dropLast hlast
    obtain ⟨r, -, hr⟩ := List.mem_flatMap.mp hcopies
    rcases List.mem_cons.mp hr with rfl | hr
    · exact ⟨_, rfl⟩
    · rw [List.mem_singleton.mp hr] at hnone
      cases hnone
  | writes srcs hw =>
    -- The writes after the sources refer to nothing.
    rcases List.append_eq_append_iff.mp he with ⟨tail, rfl, hw'⟩ | ⟨tail, hsrcs, -⟩
    · have hmem' : EpochEvent.resolve a ∈ tail ++ .resolve a :: rest :=
        List.mem_append_right _ (List.mem_cons_self ..)
      rw [← hw'] at hmem'
      obtain ⟨write, -, hwrite⟩ := List.mem_flatMap.mp hmem'
      unfold writeEvents groupEvents at hwrite
      split_ifs at hwrite <;> simp at hwrite
    · have hsource : e ∈ srcs.map EpochEvent.resolve := by
        rw [hsrcs]
        exact List.mem_append_left _ hmem
      obtain ⟨b, -, rfl⟩ := List.mem_map.mp hsource
      exact ⟨b, rfl⟩
  | drops addrs => simp at hresolve
  | tag b => simp at hresolve
  | clear => simp at hresolve

/-! ## Destinations -/

/-- The addresses that a call stores results in, once its arguments are accepted. -/
def Call.targets (w : World P M) (c : Call) : List DevAddr := (c.events w).filterMap EpochEvent.dst

/-- A call with a destination that is not live is rejected for it, and binds nothing. -/
def Invocation.ChecksTargets (F : Fhetch P M) (w : World P M) (i : Invocation P) : Prop :=
  (∃ a ∈ i.call.targets w, a ∉ w.allocator.allocSet) →
    (i.run F w).1.code = .unknownAddress ∧ (∀ e ∈ i.events w, e.dst = none) ∧
      ∀ a, a ∈ (w.after F i).epoch.polyMap ↔ a ∈ w.epoch.polyMap

/-- The first address that a call refers to and that is not bound is not live, while there is a ring
dimension. -/
def Call.StopsAtDead (w : World P M) (c : Call) : Prop :=
  ∃ (bound : List DevAddr) (a : DevAddr) (rest : List EpochEvent),
    c.events w = bound.map .resolve ++ .resolve a :: rest ∧
    (∀ b ∈ bound, b ∈ w.epoch.polyMap) ∧ a ∉ w.epoch.polyMap ∧ a ∉ w.allocator.allocSet ∧
    w.config.ringDim ≠ 0

/-- The destinations of a call are live, or a source stops it. -/
def Invocation.TargetsChecked (w : World P M) (i : Invocation P) : Prop :=
  (∀ a ∈ i.call.targets w, a ∈ w.allocator.allocSet) ∨ i.call.StopsAtDead w

/-- An unknown address alone is reported as one. -/
theorem toPublicError_unknown {e : HazeInternalError} :
    toPublicError e = .unknownAddress ↔ e = .unknownAddress := by
  cases e <;> simp [toPublicError]

section

variable {w : World P M} {l : Journal} {i : Invocation P}

/-- A source is reported as unknown when it is not live, and there is a ring dimension. -/
theorem wordsError_unknown {a : DevAddr} : w.wordsError a = some .unknownAddress ↔
    a ∉ w.allocator.allocSet ∧ w.config.ringDim ≠ 0 := by
  unfold World.wordsError DeviceAllocator.components
  by_cases hn : w.config.ringDim = 0
  · simp [hn]
  rw [if_neg hn]
  by_cases ha : a ∈ w.allocator.allocSet
  · rw [if_neg (not_not.mpr ha)]
    split_ifs
    · simp [ha]
    · rcases w.allocator.shadow a with _ | values
      · simp [ha]
      · dsimp only
        split_ifs <;> simp [ha]
  · rw [if_pos ha]
    simp [ha, hn]

/-- A call that stops at a source that is not live. -/
theorem Call.StopsAtDead.spec (hr : w.epoch.Records l) (h : i.call.StopsAtDead w) :
    (∀ e ∈ i.events w, e.dst = none) ∧ l.after w i = l ∧
      w.machine.refusal l (i.call.events w) = some .unknownAddress := by
  obtain ⟨bound, a, rest, he, hbound, ha, hdead, hn⟩ := h
  obtain ⟨hperformed, hrefusal, hfold⟩ := Journal.resolves_bound w.wordsError
    (fun b hb => hr.bound_iff.mpr (hbound b hb)) (.resolve a :: rest)
  have hcell : ¬ (l.cell a).isSome = true := fun h => ha (hr.bound_iff.mp h)
  have hstop : w.machine.refuse l (.resolve a) = some .unknownAddress :=
    (if_neg hcell).trans (wordsError_unknown.mpr ⟨hdead, hn⟩)
  have hevents : i.events w = bound.map .resolve := by
    rw [events_eq hr, he]
    have hnone : (Journal.machine w.wordsError).performed l (.resolve a :: rest) = [] :=
      EventMachine.performed_cons_refused _ hstop
    exact hperformed.trans (by rw [hnone, List.append_nil])
  refine ⟨fun e hmem => ?_, ?_, ?_⟩
  · rw [hevents] at hmem
    obtain ⟨b, -, rfl⟩ := List.mem_map.mp hmem
    rfl
  · rw [Journal.after, hevents, hfold]
  · rw [he]
    exact hrefusal.trans (EventMachine.refusal_cons_refused _ hstop)

/-- A call rejects a destination that is not live exactly when a source stops it. -/
theorem checksTargets_iff (hF : F.LawfulBase) (hw : w.Inv) (hr : w.epoch.Records l) :
    i.ChecksTargets F w ↔ i.TargetsChecked w := by
  have hobeys := World.obeys_after hF hw hr i
  have hafter := World.records_after hF hw hr i
  constructor
  · intro h
    refine or_iff_not_imp_left.mpr fun hdead => ?_
    rw [not_forall₂] at hdead
    obtain ⟨d, hd, hdead⟩ := hdead
    obtain ⟨hcode, hquiet, hsame⟩ := h ⟨d, hd, hdead⟩
    -- Without a reference everything would happen, and the destination would be stored in.
    have hresolve : ∃ a, .resolve a ∈ i.call.events w := by
      by_contra hnone
      obtain ⟨e, he, hed⟩ := List.mem_filterMap.mp hd
      rw [← events_of_quiet (not_exists.mp hnone)] at he
      rw [hquiet e he] at hed
      cases hed
    have hrefusal : w.machine.refusal l (i.call.events w) = some .unknownAddress := by
      have hreply := hobeys.code hresolve
      rw [hcode] at hreply
      rcases hx : w.machine.refusal l (i.call.events w) with _ | x
      · rw [hx] at hreply
        cases hreply
      · rw [hx] at hreply
        exact congrArg some (toPublicError_unknown.mp hreply.symm)
    obtain ⟨e, rest, hplan, hstop⟩ := w.machine.refusal_eq_some.mp hrefusal
    rw [← events_eq hr] at hplan hstop
    cases e with
    | resolve a =>
      obtain ⟨bound, hbound⟩ := (i.call.plan w).before_resolve hplan hquiet
      have hunbound : ¬ ((l.after w i).cell a).isSome = true := fun hb => by
        have hnone : w.machine.refuse (l.after w i) (.resolve a) = none := if_pos hb
        cases hnone.symm.trans hstop
      have hdead := wordsError_unknown.mp ((if_neg hunbound).symm.trans hstop)
      refine ⟨bound, a, rest, hbound ▸ hplan, fun b hb => ?_, fun ha => ?_, hdead⟩
      · rw [← hsame b, ← hafter.bound_iff, Journal.after, hbound, Journal.bound_resolves]
        exact .inr hb
      · exact hunbound (hafter.bound_iff.mpr ((hsame a).mpr ha))
    | _ => cases hstop
  · rintro (hlive | hstops) ⟨d, hd, hdead⟩
    · exact absurd (hlive d hd) hdead
    · obtain ⟨hquiet, hsame, hrefusal⟩ := hstops.spec hr
      obtain ⟨bound, a, rest, he, -⟩ := hstops
      refine ⟨?_, hquiet, fun b => ?_⟩
      · rw [hobeys.code ⟨a, he ▸ List.mem_append_right _ (List.mem_cons_self ..)⟩, hrefusal]
        rfl
      · rw [← hafter.bound_iff, hsame, hr.bound_iff]

/-- A call whose destinations are checked stores in live addresses. -/
theorem Invocation.TargetsChecked.writesLive (hr : w.epoch.Records l) (h : i.TargetsChecked w) :
    i.WritesLive w := by
  intro e he a ha
  rcases h with hlive | hstops
  · exact hlive a (List.mem_filterMap.mpr ⟨e, (w.machine.performed_prefix _ _).subset he, ha⟩)
  · rw [(hstops.spec hr).1 e he] at ha
    cases ha

end

/-! ## Flushes -/

namespace World

variable {env : CompilerReplies P} {w : World P M}

/-- The words that are read back for an output are held where its address is live. -/
theorem populateShadow_live (env : CompilerReplies P) {live : Finset DevAddr}
    {entry : Sigma fun _ : DevAddr => ProbeName} (hlive : entry.1 ∈ live) :
    Expected.Triple (fun v : World P M => v.allocator.allocSet = live) (populateShadow env entry)
      (fun _ v => v.allocator.allocSet = live) (fun e _ => e ≠ .unknownAddress) := by
  intro v hv
  unfold populateShadow
  rw [Expected.get_bind_run]
  rcases env.result (capturedOutputs v.compiler) entry.2 with _ | poly
  · change HazeInternalError.backendOutputMissing ≠ .unknownAddress
    decide
  dsimp only
  rcases env.extractPolynomialValues poly entry.2 with _ | values
  · change HazeInternalError.backendOutputDecodeFailed ≠ .unknownAddress
    decide
  dsimp only
  rw [Expected.attempt_bind_run, onAllocator, Expected.zoom_run, DeviceAllocator.updateShadow,
    if_pos (hv ▸ hlive)]
  exact hv

/-- A materialization does not fail for an address where the tagged addresses are live. -/
theorem doMaterialize_known (runReplay : Bool) (hrec : w.epoch.recording = true)
    (hlive : ∀ a ∈ w.epoch.pendingOutputs, a ∈ w.allocator.allocSet) :
    (doMaterializeLocked env runReplay w).1 ≠ .error .unknownAddress := by
  have hend : ∀ _ : Unit, Expected.Triple
      (fun u : World P M => u.allocator.allocSet = w.allocator.allocSet)
      (Expected.modify clearStateLocked) (fun (_ : Unit) _ => True)
      (fun e _ => e ≠ HazeInternalError.unknownAddress) := fun _ _ _ => trivial
  -- The outputs are live, so storing them cannot fail for that reason.
  have hloop := Expected.Triple.bind (Expected.Triple.forEach
    fun entry (he : entry ∈ outputs env w) => populateShadow_live env
      (hlive entry.1 (UMap.mem_of_lookup (mem_outputs.mp he)))) hend
  rw [doMaterialize_run runReplay hrec]
  split_ifs
  · simp
  · simp
  · simp
  · simp
  · intro h
    rcases hr : (Expected.forEach (populateShadow env) (outputs env w) >>= fun _ =>
        Expected.modify clearStateLocked : Method P M Unit) { w with
          compiler := w.compiler ++ [.stop] ++ [.replay], hookHadError := false } with ⟨e | _, u⟩
    · rw [hr] at h
      exact hloop.error (s := { w with
        compiler := w.compiler ++ [.stop] ++ [.replay], hookHadError := false }) rfl hr
        (Except.error.inj h)
    · rw [hr] at h
      cases h

/-- A flush does not fail for an address where the bound addresses are live. -/
theorem flush_known (hw : w.Inv) (h : w.BoundLive) (env : CompilerReplies P) :
    (hazeFlush F env w).1.code ≠ .unknownAddress := by
  have hc := hw.epoch.consistent
  have hflush : (flush F env w).1 ≠ .error .unknownAddress := by
    unfold flush finalizeLocked
    rw [Expected.get_bind_run]
    split_ifs
    · simp
    rw [Expected.get_bind_run]
    rcases hrec : w.epoch.recording
    · simp
    · rw [if_neg (by simp)]
      split_ifs with hpend
      · simp
      · rw [Expected.bind_run_ok (tagPendingOutputs_run env hc)]
        exact doMaterialize_known (w := { w with compiler := w.compiler ++ tagCalls F env w }) true
          hrec fun a ha => h a (hc.pending_bound a ha)
  unfold hazeFlush Shim.setInternalResult Shim.replyWith
  rcases hr : flush F env w with ⟨e | _, w'⟩
  · rw [hr] at hflush
    exact fun hcode => hflush (congrArg Except.error (toPublicError_unknown.mp hcode))
  · exact HazeError.noConfusion

end World

/-- In a run each of whose calls stores in live addresses only, or is stopped by a source that is
not live before it stores anything, every bound address is live, no flush fails for an address, and
a next call rejects a destination that is not live exactly when such a source stops it. -/
theorem bound_live (F : Fhetch P M) (hF : F.LawfulBase) (is : List (Invocation P))
    (h : Expected.Along (World.after F) (fun w i => i.TargetsChecked w) .init is) :
    let w := World.runAll F .init is
    w.BoundLive ∧ (∀ env, (hazeFlush F env w).1.code ≠ .unknownAddress) ∧
      ∀ i : Invocation P, i.ChecksTargets F w ↔ i.TargetsChecked w := by
  intro w
  obtain ⟨hw, hr⟩ := Journal.follows_runAll (F := F) hF is
  have hlive : w.BoundLive := Journal.invariant_runAll (I := fun w _ => w.BoundLive) hF
    (fun w l i hw hr hi hI => hI.after hF hw hr (hi.writesLive hr))
    (fun a ha => absurd ha (AList.notMem_empty a)) h
  exact ⟨hlive, World.flush_known hw hlive, fun i => checksTargets_iff hF hw hr⟩

/-- An upload, and a sum of it with itself in another live address. -/
def liveSum : List (Invocation UInt64) :=
  scalarProgram [.setRingDimension 1, .config (.setCiphertextModulus 0 17), .malloc true 8,
    .malloc true 8, uploadFive, .pp .add ⟨kHbmBase + 8⟩ ⟨kHbmBase⟩ ⟨kHbmBase⟩ 0,
    .tagOutput ⟨kHbmBase + 8⟩]

/-- All that the sum binds is live. -/
theorem bound_live_example : (World.runAll scalarRing .init liveSum).BoundLive :=
  (bound_live scalarRing scalarRing_lawfulBase liveSum ⟨.inl (by decide +kernel),
    .inl (by decide +kernel), .inl (by decide +kernel), .inl (by decide +kernel),
    .inl (by decide +kernel), .inl (by decide +kernel), .inl (by decide +kernel), trivial⟩).1

/-- The sum once more, in an address that was never allocated, and tagged. -/
def unallocatedSum : List (Invocation UInt64) :=
  liveSum ++ scalarProgram [.pp .add ⟨kHbmBase + 16⟩ ⟨kHbmBase⟩ ⟨kHbmBase⟩ 0,
    .tagOutput ⟨kHbmBase + 16⟩]

/-- Every call succeeds and the address is bound, and the flush then fails for it. -/
theorem bound_live_counterexample :
    (∀ reply ∈ World.replies scalarRing .init unallocatedSum, reply.code = .success) ∧
      ¬ (World.runAll scalarRing .init unallocatedSum).BoundLive ∧
      (hazeFlush scalarRing scalarReplies (World.runAll scalarRing .init unallocatedSum)).1.code =
        .unknownAddress := by
  refine ⟨by decide +kernel, fun h => ?_, by decide +kernel⟩
  exact absurd (h ⟨kHbmBase + 16⟩ (by decide +kernel)) (by decide +kernel)

end Haze
