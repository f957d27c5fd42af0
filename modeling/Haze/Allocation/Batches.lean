import Haze.Allocation.Operations
import Mathlib.Data.List.Count
import Mathlib.Data.List.Dedup

/-!
# Batches of addresses

`allocate_many` and `free_many` by what they hand out and pool. A batch takes the addresses from the
top of the free stack and bumps for the rest; it fails only where it recycles an address that is
live or that it has just handed out, so before the first bump, and its rollback pushes back all that
it took but that one entry (`reserve_fails`, `forEach_rollback`). This needs nothing of the free
stack, which may hold duplicates and live addresses. A list of frees is one free of every listed
address that is live (`liveOnce`, `freeEach_state`), and a batch of that number takes them again.
-/

namespace Haze

namespace DeviceAllocator

variable {s t : DeviceAllocator}

/-- The bump pointer is above every live and every pooled address. -/
def Above (s : DeviceAllocator) : Prop := ∀ a, s.Owned a → a.uintptr.toNat < s.nextAddr.toNat

/-- A list of addresses is taken from the pool. -/
def taken (s : DeviceAllocator) (addrs rest : List DevAddr) : DeviceAllocator :=
  { s with poolFree := rest, allocSet := s.allocSet ∪ addrs.toFinset }

/-- A list of addresses is freed, one after the other. -/
def freed (s : DeviceAllocator) (addrs : List DevAddr) : DeviceAllocator :=
  { s with
    allocSet := s.allocSet \ addrs.toFinset
    shadowData := UMap.eraseAll addrs s.shadowData
    poolFree := addrs.reverse ++ s.poolFree }

/-- The listed addresses that are live, each where it is listed first. -/
def liveOnce (live : Finset DevAddr) : List DevAddr → List DevAddr
  | [] => []
  | a :: addrs => if a ∈ live then a :: liveOnce (live.erase a) addrs else liveOnce live addrs

/-- What a batch that fails leaves: the free stack has lost the entry that it could not recycle, if
any, and no address that was free. -/
structure RolledBack (s t : DeviceAllocator) : Prop where
  allocSet : t.allocSet = s.allocSet
  shadowData : t.shadowData = s.shadowData
  nextAddr : t.nextAddr = s.nextAddr
  polyBytes : t.polyBytes = s.polyBytes
  poolFree : t.poolFree.Perm s.poolFree ∨
    ∃ a, (a :: t.poolFree).Perm s.poolFree ∧ (a ∈ s.allocSet ∨ 1 < s.poolFree.count a)
  available : ∀ a ∈ s.poolFree, a ∉ s.allocSet → a ∈ t.poolFree

/-! ## A batch and its allocations one by one -/

/-- Actions keep the size, so that what was accepted stays accepted. -/
theorem validate_act {bytes : UInt64} (hv : s.validatePolySizeLocked bytes = .ok ())
    (x : AllocatorAction) : (s.act x).validatePolySizeLocked bytes = .ok () := by
  unfold validatePolySizeLocked at hv ⊢
  rw [polyBytes_act]
  exact hv

/-- A batch is reserved exactly when as many allocations succeed one by one, and it returns what
they return. -/
theorem reserve_iff {bytes : UInt64} (hv : s.validatePolySizeLocked bytes = .ok ()) {n : ℕ}
    {out result : List DevAddr} :
    reserve n out s = (.ok result, t) ↔ ∃ addrs, result = out ++ addrs ∧
      Expected.mapEach allocate (List.replicate n bytes) s = (.ok addrs, t) := by
  -- By induction on how many are still to be taken; `out` is what has been taken so far.
  induction n generalizing s out with
  | zero =>
    constructor
    · intro h
      cases h
      exact ⟨[], (List.append_nil _).symm, rfl⟩
    · rintro ⟨addrs, hresult, h⟩
      cases h
      rw [hresult, List.append_nil]
      rfl
  | succ n ih =>
    have hone : allocate bytes s = allocateOneLocked s := Expected.query_bind_ok hv
    rw [List.replicate_succ, Expected.mapEach_cons, reserve, Expected.attempt_bind_run]
    rcases hrun : allocateOneLocked s with ⟨e | a, s'⟩
    · -- Neither goes on after an allocation that fails.
      rw [Expected.bind_run_error (hone.trans hrun)]
      refine iff_of_false (fun h => ?_) fun h => ?_
      · obtain ⟨_, _, -, hfail⟩ := Expected.bind_eq_ok.mp h
        cases hfail
      · obtain ⟨_, -, hfail⟩ := h
        cases hfail
    · have hs' : s' = s.act .allocateOne := congrArg Prod.snd hrun.symm
      rw [Expected.bind_run_ok (hone.trans hrun)]
      dsimp only
      rw [ih (hs' ▸ validate_act hv .allocateOne)]
      constructor
      · rintro ⟨addrs, rfl, h⟩
        refine ⟨a :: addrs, List.append_assoc out [a] addrs, ?_⟩
        rw [Expected.bind_run_ok h]
        rfl
      · rintro ⟨addrs, rfl, h⟩
        obtain ⟨addrs, _, hrest, hpure⟩ := Expected.bind_eq_ok.mp h
        cases hpure
        exact ⟨addrs, (List.append_assoc out [a] addrs).symm, hrest⟩

/-- A batch succeeds exactly when as many allocations do one by one, and then equals them. -/
theorem allocateMany_iff {count : ℕ} {bytes : UInt64} {addrs : List DevAddr} :
    allocateMany count bytes s = (.ok addrs, t) ↔
      Expected.mapEach allocate (List.replicate count bytes) s = (.ok addrs, t) := by
  unfold allocateMany
  by_cases hcount : count = 0
  · subst hcount
    rw [if_pos rfl]
    exact Iff.rfl
  rw [if_neg hcount]
  rcases hv : s.validatePolySizeLocked bytes with e | _
  · -- The first allocation makes the batch's check.
    obtain ⟨n, rfl⟩ := Nat.exists_eq_succ_of_ne_zero hcount
    have hone : allocate bytes s = (.error e, s) := Expected.query_bind_error hv
    rw [Expected.query_bind_error hv, List.replicate_succ, Expected.mapEach_cons,
      Expected.bind_run_error hone]
  · rw [Expected.query_bind_ok hv, reserve_iff hv]
    constructor
    · rintro ⟨addrs, rfl, h⟩
      exact h
    · exact fun h => ⟨addrs, rfl, h⟩

/-! ## A batch that succeeds -/

/-- An allocation that succeeds hands out an address that was not live, and the bump pointer stays
above when it does not wrap. -/
theorem Above.allocateOne (h : s.Above) (hsize : s.polyBytes ≠ 0)
    (hwrap : s.NoWrapAction .allocateOne) {a : DevAddr} (hrun : allocateOneLocked s = (.ok a, t)) :
    a ∉ s.allocSet ∧ t.allocSet = insert a s.allocSet ∧ t.Above := by
  unfold allocateOneLocked at hrun
  -- Either the pointer moves past the new address, or the head of the pool comes back.
  rcases hp : s.poolFree with _ | ⟨b, rest⟩ <;> rw [hp] at hrun
  · cases hrun
    have hpos := polyBytes_pos hsize
    -- The pointer itself lies above every owned address.
    have hnext : (s.nextAddr + s.polyBytes).toNat = _ := toNat_bump (hwrap hp)
    refine ⟨fun hlive => Nat.lt_irrefl _ (h _ (.inl hlive)), rfl, fun b hb => ?_⟩
    change b.uintptr.toNat < (s.nextAddr + s.polyBytes).toNat
    rw [hnext]
    rcases hb with hb | hb
    · rcases Finset.mem_insert.mp hb with rfl | hb
      · exact Nat.lt_add_of_pos_right hpos
      · exact Nat.lt_add_right _ (h b (.inl hb))
    · exact absurd hb List.not_mem_nil
  · dsimp only at hrun
    split_ifs at hrun with hlive
    -- A pool entry that is not live was owned before.
    · cases hrun
    cases hrun
    refine ⟨hlive, rfl, fun c hc => ?_⟩
    rcases hc with hc | hc
    · rcases Finset.mem_insert.mp hc with rfl | hc
      · exact h c (.inr (hp ▸ List.mem_cons_self ..))
      · exact h c (.inl hc)
    · exact h c (.inr (hp ▸ List.mem_cons_of_mem _ hc))

/-- Allocations one by one hand out distinct addresses that were not live. -/
theorem Above.mapEach_allocate (h : s.Above) {n : ℕ} (hroom : s.RoomFor n) {bytes : UInt64}
    {addrs : List DevAddr}
    (hrun : Expected.mapEach allocate (List.replicate n bytes) s = (.ok addrs, t)) :
    addrs.length = n ∧ addrs.Nodup ∧ ∀ a ∈ addrs, a ∉ s.allocSet := by
  -- By induction on the batch: what is taken lies below the pointer, and stays so.
  induction n generalizing s addrs with
  | zero =>
    cases hrun
    exact ⟨rfl, List.nodup_nil, fun a ha => absurd ha List.not_mem_nil⟩
  | succ n ih =>
    rw [List.replicate_succ, Expected.mapEach_cons] at hrun
    obtain ⟨a, s', hone, hrest⟩ := Expected.bind_eq_ok.mp hrun
    obtain ⟨rest, _, hrest, hpure⟩ := Expected.bind_eq_ok.mp hrest
    cases hpure
    obtain ⟨_, s₁, hv, hone⟩ := Expected.bind_eq_ok.mp hone
    have hv₁ : s.validatePolySizeLocked bytes = .ok () := congrArg Prod.fst hv
    have hs₁ : s = s₁ := congrArg Prod.snd hv
    subst hs₁
    obtain ⟨hwrap, hroom⟩ := hroom.advance
    have hs' : s' = s.act .allocateOne := congrArg Prod.snd hone.symm
    obtain ⟨hfresh, hset, habove⟩ := h.allocateOne (validate_ok hv₁).1 hwrap hone
    obtain ⟨hlength, hnodup, hnew⟩ := ih habove (hs' ▸ hroom) hrest
    -- An address of the rest is new to a live set that already holds `a`.
    rw [hset] at hnew
    refine ⟨congrArg Nat.succ hlength, List.nodup_cons.mpr ⟨fun ha => ?_, hnodup⟩, fun b hb => ?_⟩
    · exact hnew a ha (Finset.mem_insert_self a _)
    · rcases List.mem_cons.mp hb with rfl | hb
      · exact hfresh
      · exact fun hlive => hnew b hb (Finset.mem_insert_of_mem hlive)

/-! ## A batch that fails -/

/-- The frees of a rollback, whose results are dropped. -/
def rollback (addrs : List DevAddr) : Method Unit :=
  Expected.forEach (fun done => do
    let _ ← Expected.attempt (freeOneLocked done)
    pure ()) addrs

/-- Freeing nothing leaves the allocator. -/
theorem freed_nil (s : DeviceAllocator) : s.freed [] = s := by
  rw [freed, List.toFinset_nil, Finset.sdiff_empty]
  rfl

/-- One more free. -/
theorem freeOne_freed {a : DevAddr} (ha : a ∈ s.allocSet) (addrs : List DevAddr) :
    (s.act (.freeOne a)).freed addrs = s.freed (a :: addrs) := by
  rw [act, freeOne_live ha]
  unfold freed
  rw [List.toFinset_cons, Finset.sdiff_insert, Finset.erase_sdiff_comm, List.reverse_cons,
    List.append_assoc]
  rfl

/-- The rollback of live addresses frees them. -/
theorem rollback_live {addrs : List DevAddr} (hnodup : addrs.Nodup)
    (hlive : ∀ a ∈ addrs, a ∈ s.allocSet) : rollback addrs s = (.ok (), s.freed addrs) := by
  induction addrs generalizing s with
  | nil =>
    rw [freed_nil]
    rfl
  | cons a addrs ih =>
    obtain ⟨hnew, hnodup⟩ := List.nodup_cons.mp hnodup
    have ha := hlive a (List.mem_cons_self ..)
    have hrest : ∀ b ∈ addrs, b ∈ (s.act (.freeOne a)).allocSet := by
      intro b hb
      rw [act, freeOne_live ha]
      exact Finset.mem_erase.mpr ⟨fun heq => hnew (heq ▸ hb), hlive b (List.mem_cons_of_mem _ hb)⟩
    rw [← freeOne_freed ha addrs, ← ih hnodup hrest]
    rfl

/-- A batch that fails has taken addresses from the top of the pool, and recycles one that is live
or that it has taken already. It frees what it has taken. -/
theorem reserve_fails {n : ℕ} {out : List DevAddr} {e : HazeInternalError}
    (h : reserve n out s = (.error e, t)) :
    ∃ addrs a rest, s.poolFree = addrs ++ a :: rest ∧ addrs.Nodup ∧ (∀ b ∈ addrs, b ∉ s.allocSet) ∧
      (a ∈ s.allocSet ∨ a ∈ addrs) ∧ t = (rollback (out ++ addrs) (s.taken addrs rest)).2 := by
  -- By induction on what is left to take; only a pool entry that is live stops the batch.
  induction n generalizing s out with
  | zero => cases h
  | succ n ih =>
    rw [reserve, Expected.attempt_bind_run] at h
    rcases hp : s.poolFree with _ | ⟨b, rest⟩
    · -- An allocation that bumps succeeds, and leaves the pool empty.
      rw [allocateOne_bump hp] at h
      obtain ⟨addrs, a, rest, hpool, -⟩ := ih h
      have hlength := congrArg List.length (hp.symm.trans hpool)
      rw [List.length_append, List.length_cons, List.length_nil] at hlength
      omega
    by_cases hb : b ∈ s.allocSet
    · refine ⟨[], b, rest, rfl, List.nodup_nil, fun c hc => absurd hc List.not_mem_nil, .inl hb, ?_⟩
      have hfails : allocateOneLocked s =
          (.error .poolMapDesync, { s with poolFree := rest }) := by
        simp only [allocateOneLocked, hp, if_pos hb]
      rw [hfails] at h
      change (rollback out >>= fun _ => Expected.fail _) { s with poolFree := rest } = _ at h
      rw [List.append_nil, taken, List.toFinset_nil, Finset.union_empty]
      rcases hroll : rollback out { s with poolFree := rest } with ⟨e' | _, t'⟩
      · rw [Expected.bind_run_error hroll] at h
        cases h
        rfl
      · rw [Expected.bind_run_ok hroll] at h
        cases h
        rfl
    · rw [allocateOne_pool hp hb] at h
      -- The entry is taken, and the one that fails may now be this very entry.
      obtain ⟨addrs, a, rest', hpool, hnodup, hdead, ha, ht⟩ := ih h
      change rest = _ at hpool
      have hnew : ∀ c ∈ addrs, c ≠ b ∧ c ∉ s.allocSet := fun c hc =>
        not_or.mp fun hc' => hdead c hc (Finset.mem_insert.mpr hc')
      refine ⟨b :: addrs, a, rest', by rw [hpool, List.cons_append],
        List.nodup_cons.mpr ⟨fun hmem => (hnew b hmem).1 rfl, hnodup⟩, ?_, ?_, ?_⟩
      · rintro c (_ | ⟨_, hc⟩)
        · exact hb
        · exact (hnew c hc).2
      · rcases ha with ha | ha
        · rcases Finset.mem_insert.mp ha with rfl | ha
          · exact .inr (List.mem_cons_self ..)
          · exact .inl ha
        · exact .inr (List.mem_cons_of_mem _ ha)
      · rw [ht, List.append_assoc]
        unfold taken
        rw [List.toFinset_cons, Finset.union_insert, Finset.insert_union]
        rfl

/-- What the rollback leaves of a state whose words are at live addresses. -/
theorem rolledBack_taken (hshadow : ∀ a ∈ s.shadowData, a ∈ s.allocSet) {addrs rest : List DevAddr}
    {a : DevAddr} (hpool : s.poolFree = addrs ++ a :: rest) (hnodup : addrs.Nodup)
    (hdead : ∀ b ∈ addrs, b ∉ s.allocSet) (ha : a ∈ s.allocSet ∨ a ∈ addrs) :
    s.RolledBack (rollback addrs (s.taken addrs rest)).2 := by
  -- The rollback frees what the batch has taken, all of it live by now.
  have hlive : ∀ b ∈ addrs, b ∈ (s.taken addrs rest).allocSet := fun b hb =>
    Finset.mem_union_right _ (List.mem_toFinset.mpr hb)
  rw [rollback_live hnodup hlive]
  refine ⟨?_, ?_, rfl, rfl, .inr ⟨a, ?_, ha.imp_right fun ha => ?_⟩, fun b hb hfree => ?_⟩
  · change (s.allocSet ∪ addrs.toFinset) \ addrs.toFinset = s.allocSet
    rw [Finset.union_sdiff_right]
    exact Finset.sdiff_eq_self_of_disjoint (Finset.disjoint_left.mpr fun b hb hmem =>
      hdead b (List.mem_toFinset.mp hmem) hb)
  · exact UMap.eraseAll_of_notMem fun b hb hmem => hdead b hb (hshadow b hmem)
  · rw [hpool]
    exact ((addrs.reverse_perm.append_right rest).cons a).trans List.perm_middle.symm
  -- The entry that stopped the batch has left the pool, one of its two copies at least.
  · have hfirst := List.count_pos_iff.mpr ha
    rw [hpool, List.count_append, List.count_cons_self]
    omega
  · change b ∈ addrs.reverse ++ rest
    rw [hpool] at hb
    rcases List.mem_append.mp hb with hb | hb
    · exact List.mem_append_left _ (List.mem_reverse.mpr hb)
    · rcases List.mem_cons.mp hb with rfl | hb
      · exact List.mem_append_left _ (List.mem_reverse.mpr (ha.resolve_left hfree))
      · exact List.mem_append_right _ hb

/-- A batch succeeds as the same number of allocations one by one, with distinct addresses that were
not live, and a batch that fails is rolled back, whatever the free stack holds. -/
theorem allocateMany_allOrNothing (hshadow : ∀ a ∈ s.shadowData, a ∈ s.allocSet) (habove : s.Above)
    {count : ℕ} (hroom : s.RoomFor count) (bytes : UInt64) :
    (∀ addrs t, allocateMany count bytes s = (.ok addrs, t) ↔
        Expected.mapEach allocate (List.replicate count bytes) s = (.ok addrs, t)) ∧
      (∀ addrs t, allocateMany count bytes s = (.ok addrs, t) →
        addrs.length = count ∧ addrs.Nodup ∧ ∀ a ∈ addrs, a ∉ s.allocSet) ∧
      ∀ e t, allocateMany count bytes s = (.error e, t) → s.RolledBack t := by
  refine ⟨fun addrs t => allocateMany_iff, fun addrs t h => ?_, fun e t h => ?_⟩
  · exact habove.mapEach_allocate hroom (allocateMany_iff.mp h)
  · unfold allocateMany at h
    split_ifs at h
    · cases h
    rcases hv : s.validatePolySizeLocked bytes with e' | _
    · rw [Expected.query_bind_error hv] at h
      cases h
      exact ⟨rfl, rfl, rfl, rfl, .inl (List.Perm.refl _), fun a ha _ => ha⟩
    · rw [Expected.query_bind_ok hv] at h
      obtain ⟨addrs, a, rest, hpool, hnodup, hdead, ha, rfl⟩ := reserve_fails h
      exact rolledBack_taken hshadow hpool hnodup hdead ha

/-- A pool that holds a free address twice. -/
def pooledTwice : DeviceAllocator :=
  { init with polyBytes := 8, nextAddr := kHbmBase + 8, poolFree := [⟨kHbmBase⟩, ⟨kHbmBase⟩] }

/-- The batch takes the address, does not hand it out again, and leaves it free. -/
theorem allocateMany_allOrNothing_example :
    pooledTwice.RolledBack (allocateMany 2 8 pooledTwice).2 :=
  (allocateMany_allOrNothing (s := pooledTwice) (fun a ha => absurd ha (AList.notMem_empty a))
    (fun a ha => by
      rcases ha with ha | ha
      · exact absurd ha (Finset.notMem_empty a)
      · simp only [pooledTwice, List.mem_cons, List.not_mem_nil, or_false, or_self] at ha
        rw [ha]
        decide)
    (by unfold RoomFor; decide) 8).2.2 .poolMapDesync _ (Prod.ext (by decide +kernel) rfl)

/-! ## A list of frees -/

/-- The live addresses that are freed once are those of the list that are live. -/
theorem mem_liveOnce {live : Finset DevAddr} {addrs : List DevAddr} {a : DevAddr} :
    a ∈ liveOnce live addrs ↔ a ∈ addrs ∧ a ∈ live := by
  induction addrs generalizing live with
  | nil => simp [liveOnce]
  | cons b addrs ih =>
    rw [liveOnce]
    split_ifs with hb
    · rw [List.mem_cons, List.mem_cons, ih, Finset.mem_erase]
      by_cases hab : a = b
      · simp [hab, hb]
      · simp [hab]
    · rw [List.mem_cons, ih]
      by_cases hab : a = b
      · simp [hab, hb]
      · simp [hab]

/-- None of them occurs twice. -/
theorem nodup_liveOnce (live : Finset DevAddr) (addrs : List DevAddr) :
    (liveOnce live addrs).Nodup := by
  induction addrs generalizing live with
  | nil => exact List.nodup_nil
  | cons b addrs ih =>
    rw [liveOnce]
    split_ifs
    · exact List.nodup_cons.mpr
        ⟨fun hb => absurd rfl (Finset.mem_erase.mp (mem_liveOnce.mp hb).2).1, ih _⟩
    · exact ih _

/-- The live addresses of a list, each once, are those of any list with the same elements. -/
theorem liveOnce_perm (live : Finset DevAddr) {addrs addrs' : List DevAddr}
    (h : ∀ a, a ∈ addrs' ↔ a ∈ addrs) : (liveOnce live addrs').Perm (liveOnce live addrs) :=
  (List.perm_ext_iff_of_nodup (nodup_liveOnce _ _) (nodup_liveOnce _ _)).mpr fun a => by
    rw [mem_liveOnce, mem_liveOnce, h]

/-- Every listed address that is live is freed once. -/
theorem freeEach_state (hnull : DevAddr.null ∉ s.allocSet) (addrs : List DevAddr)
    (first : Except HazeInternalError Unit) :
    (freeEach addrs first s).2 = s.freed (liveOnce s.allocSet addrs) := by
  induction addrs generalizing first s with
  | nil => exact (freed_nil s).symm
  | cons a addrs ih =>
    rw [freeEach, liveOnce]
    by_cases ha : a ∈ s.allocSet
    · rw [if_neg fun h : a = .null => hnull (h ▸ ha), if_pos ha, Expected.attempt_bind_run,
        ← freeOne_freed ha]
      have hset : (s.act (.freeOne a)).allocSet = s.allocSet.erase a := by
        rw [act, freeOne_live ha]
      rw [← hset]
      exact ih (fun h => hnull (Finset.mem_of_mem_erase (hset ▸ h))) _
    · rw [if_neg ha]
      split_ifs
      · exact ih hnull first
      · rw [Expected.attempt_bind_run, freeOne_dead ha]
        exact ih hnull _

/-- An entry that is not null is dead, or is listed once more. -/
def Unfreeable (live : Finset DevAddr) (addrs : List DevAddr) : Prop :=
  ∃ a ∈ addrs, a ≠ .null ∧ (a ∉ live ∨ 1 < addrs.count a)

instance (live : Finset DevAddr) (addrs : List DevAddr) : Decidable (Unfreeable live addrs) :=
  inferInstanceAs (Decidable (∃ a ∈ addrs, _))

/-- The first entry is dead, or an entry behind it is dead once the first is freed. -/
theorem unfreeable_cons {live : Finset DevAddr} {a : DevAddr} {addrs : List DevAddr} :
    Unfreeable live (a :: addrs) ↔ a ≠ .null ∧ a ∉ live ∨ Unfreeable (live.erase a) addrs := by
  -- The first entry is bad, or some later one is once the first has been freed.
  constructor
  · rintro ⟨b, hb, hnull, hbad⟩
    by_cases hba : b = a
    · subst hba
      by_cases hlive : b ∈ live
      · -- The first entry itself is listed once more.
        have hcount := hbad.resolve_left (not_not.mpr hlive)
        rw [List.count_cons_self] at hcount
        exact .inr ⟨b, List.count_pos_iff.mp (by omega), hnull, .inl (Finset.notMem_erase b live)⟩
      · exact .inl ⟨hnull, hlive⟩
    · rw [List.count_cons_of_ne (Ne.symm hba)] at hbad
      exact .inr ⟨b, (List.mem_cons.mp hb).resolve_left hba, hnull,
        hbad.imp_left fun hlive hmem => hlive (Finset.mem_of_mem_erase hmem)⟩
  · rintro (⟨hnull, hlive⟩ | ⟨b, hb, hnull, hbad⟩)
    · exact ⟨a, List.mem_cons_self .., hnull, .inl hlive⟩
    · refine ⟨b, List.mem_cons_of_mem _ hb, hnull, ?_⟩
      by_cases hba : b = a
      · subst hba
        have hfirst := List.count_pos_iff.mpr hb
        rw [List.count_cons_self]
        exact .inr (by omega)
      · rw [List.count_cons_of_ne (Ne.symm hba)]
        exact hbad.imp_left fun hlive hmem => hlive (Finset.mem_erase.mpr ⟨hba, hmem⟩)

/-- The first error of a list of frees is that of an entry that is not live when it is reached. -/
theorem freeEach_result (hnull : DevAddr.null ∉ s.allocSet) (addrs : List DevAddr)
    (first : Except HazeInternalError Unit) :
    (freeEach addrs first s).1 = firstError first
      (if Unfreeable s.allocSet addrs then .error .unknownAddress else .ok ()) := by
  -- By induction on the list; the first error stands, whatever comes after it.
  induction addrs generalizing first s with
  | nil =>
    have hnone : ¬ Unfreeable s.allocSet [] := by
      rintro ⟨a, ha, -⟩
      exact List.not_mem_nil ha
    rw [if_neg hnone]
    rcases first with e | _ <;> rfl
  | cons a addrs ih =>
    rw [freeEach]
    by_cases hlive : a ∈ s.allocSet
    · -- A live address is freed, and the list goes on without it.
      have hset : (s.act (.freeOne a)).allocSet = s.allocSet.erase a := by
        rw [act, freeOne_live hlive]
      have hnull' : DevAddr.null ∉ (s.act (.freeOne a)).allocSet := fun h =>
        hnull (Finset.mem_of_mem_erase (hset ▸ h))
      have hcons : Unfreeable s.allocSet (a :: addrs) ↔
          Unfreeable (s.act (.freeOne a)).allocSet addrs := by
        rw [unfreeable_cons, hset]
        exact or_iff_right fun h => h.2 hlive
      rw [if_neg fun h : a = .null => hnull (h ▸ hlive), Expected.attempt_bind_run]
      have hone : (freeOneLocked a s).1 = .ok () := by rw [freeOne_live hlive]
      rw [hone]
      have hrest := ih hnull' (firstError first (.ok ()))
      change (freeEach addrs _ (s.act (.freeOne a))).1 = _
      rw [hrest, if_congr hcons rfl rfl]
      rcases first with e | _ <;> rfl
    -- Any other entry leaves the live set as it is, and is skipped exactly when it is null.
    · have herase : s.allocSet.erase a = s.allocSet := Finset.erase_eq_of_notMem hlive
      have hcons : Unfreeable s.allocSet (a :: addrs) ↔
          a ≠ .null ∨ Unfreeable s.allocSet addrs := by
        rw [unfreeable_cons, herase]
        exact or_congr_left (and_iff_left hlive)
      split_ifs with ha hbad hbad
      · rw [ih hnull, if_pos ((hcons.mp hbad).resolve_left (not_not.mpr ha))]
      · rw [ih hnull, if_neg fun h => hbad (hcons.mpr (.inr h))]
      · rw [Expected.attempt_bind_run, freeOne_dead hlive, ih hnull]
        rcases first with e | _ <;> rfl
      · exact absurd (hcons.mpr (.inl ha)) hbad

/-! ## A batch after frees -/

/-- A batch takes what lies on top of the pool, the last first. -/
theorem reserve_recycles {addrs rest : List DevAddr} (hpool : s.poolFree = addrs ++ rest)
    (hnodup : addrs.Nodup) (hdead : ∀ a ∈ addrs, a ∉ s.allocSet) (out : List DevAddr) :
    reserve addrs.length out s = (.ok (out ++ addrs), s.taken addrs rest) := by
  induction addrs generalizing s out with
  | nil =>
    rw [List.append_nil, taken, List.toFinset_nil, Finset.union_empty, ← List.nil_append rest,
      ← hpool]
    rfl
  | cons a addrs ih =>
    obtain ⟨hnew, hnodup⟩ := List.nodup_cons.mp hnodup
    have hrest : ∀ b ∈ addrs, b ∉ insert a s.allocSet := fun b hb hmem =>
      (Finset.mem_insert.mp hmem).elim (fun heq => hnew (heq ▸ hb))
        (hdead b (List.mem_cons_of_mem _ hb))
    rw [List.length_cons, reserve, Expected.attempt_bind_run,
      allocateOne_pool hpool (hdead a (List.mem_cons_self ..))]
    refine (ih rfl hnodup hrest (out ++ [a])).trans ?_
    unfold taken
    rw [List.append_assoc, List.toFinset_cons, Finset.union_insert, Finset.insert_union]
    rfl

/-- A list of frees is undone by a batch of as many addresses. -/
theorem allocateMany_freed {addrs : List DevAddr} (hnodup : addrs.Nodup)
    (hlive : ∀ a ∈ addrs, a ∈ s.allocSet) {bytes : UInt64}
    (hv : s.validatePolySizeLocked bytes = .ok ()) :
    ∃ t, allocateMany addrs.length bytes (s.freed addrs) = (.ok addrs.reverse, t) ∧
      t.allocSet = s.allocSet ∧ t.poolFree = s.poolFree := by
  -- The pool hands out first what was freed last.
  have hdead : ∀ a ∈ addrs.reverse, a ∉ (s.freed addrs).allocSet := fun a ha hmem =>
    (Finset.mem_sdiff.mp hmem).2 (List.mem_toFinset.mpr (List.mem_reverse.mp ha))
  have hpool : (s.freed addrs).poolFree = addrs.reverse ++ s.poolFree := rfl
  have hrun := reserve_recycles hpool (List.nodup_reverse.mpr hnodup) hdead []
  have hset : ((s.freed addrs).taken addrs.reverse s.poolFree).allocSet = s.allocSet := by
    change s.allocSet \ addrs.toFinset ∪ addrs.reverse.toFinset = s.allocSet
    rw [List.toFinset_reverse]
    exact Finset.sdiff_union_of_subset fun a ha => hlive a (List.mem_toFinset.mp ha)
  refine ⟨_, ?_, hset, rfl⟩
  unfold allocateMany
  rw [List.length_reverse, List.nil_append] at hrun
  split_ifs with hempty
  · rw [List.length_eq_zero_iff.mp hempty]
    rw [List.length_eq_zero_iff.mp hempty] at hrun
    exact hrun
  · have hv' : (s.freed addrs).validatePolySizeLocked bytes = .ok () := hv
    rw [Expected.query_bind_ok hv']
    exact hrun

/-- What a list of frees does. `once` are the listed addresses that are live, each once. -/
structure FreesEach (s : DeviceAllocator) (addrs once : List DevAddr) : Prop where
  allocSet : (freeMany addrs s).2.allocSet = s.allocSet \ addrs.toFinset
  shadow : ∀ a, (freeMany addrs s).2.shadow a = if a ∈ addrs then none else s.shadow a
  poolFree : (freeMany addrs s).2.poolFree.Perm (once ++ s.poolFree)
  nextAddr : (freeMany addrs s).2.nextAddr = s.nextAddr
  polyBytes : (freeMany addrs s).2.polyBytes = s.polyBytes
  /-- The call fails exactly when an entry that is not null is dead or repeated. -/
  result : (freeMany addrs s).1 = if ∃ a ∈ addrs, a ≠ .null ∧ (a ∉ s.allocSet ∨ 1 < addrs.count a)
    then .error .unknownAddress else .ok ()
  /-- The order of the list decides only about the order of the pool. -/
  reordered : ∀ addrs', addrs'.Perm addrs → ∃ pool, pool.Perm (freeMany addrs s).2.poolFree ∧
    freeMany addrs' s = ((freeMany addrs s).1, { (freeMany addrs s).2 with poolFree := pool })
  /-- As many allocations of the size that the allocator has hand the freed addresses out again. -/
  again : ∀ bytes, s.validatePolySizeLocked bytes = .ok () → ∃ out t, out.Perm once ∧
    allocateMany once.length bytes (freeMany addrs s).2 = (.ok out, t) ∧
    Expected.mapEach allocate (List.replicate once.length bytes) (freeMany addrs s).2 = (.ok out, t) ∧
    t.allocSet = s.allocSet

/-- A list of frees frees every listed address that is live exactly once, whatever else the list
holds and in whatever order. -/
theorem Sound.freeMany_exact (hs : s.Sound) (hnull : DevAddr.null ∉ s.allocSet)
    (addrs : List DevAddr) : s.FreesEach addrs (addrs.filter (· ∈ s.allocSet)).dedup := by
  -- One run of the loop, read off as a state and as a result.
  have hstate : ∀ addrs', (freeMany addrs' s).2 = s.freed (liveOnce s.allocSet addrs') :=
    fun addrs' => freeEach_state hnull addrs' _
  have hresult : ∀ addrs', (freeMany addrs' s).1 =
      if Unfreeable s.allocSet addrs' then .error .unknownAddress else .ok () :=
    fun addrs' => freeEach_result hnull addrs' _
  have honce : (liveOnce s.allocSet addrs).Perm (addrs.filter (· ∈ s.allocSet)).dedup :=
    (List.perm_ext_iff_of_nodup (nodup_liveOnce _ _) (List.nodup_dedup _)).mpr fun a => by
      rw [mem_liveOnce, List.mem_dedup, List.mem_filter, decide_eq_true_iff]
  refine ⟨?_, fun a => ?_, ?_, ?_, ?_, ?_, fun addrs' hperm => ?_, fun bytes hv => ?_⟩
  -- The live set, the words, the pool, the size and the pointer, in the order of the structure.
  · rw [hstate]
    ext a
    simp only [freed, Finset.mem_sdiff, List.mem_toFinset, mem_liveOnce]
    tauto
  · rw [hstate]
    change AList.lookup a (UMap.eraseAll _ s.shadowData) = _
    rw [UMap.lookup_eraseAll]
    by_cases ha : a ∈ addrs
    · rw [if_pos ha]
      split_ifs with hmem
      · rfl
      · -- A listed address that is not live has no words.
        exact UMap.notMem_iff_lookup.mp fun hwords =>
          hmem (mem_liveOnce.mpr ⟨ha, hs.shadow_live a hwords⟩)
    · rw [if_neg ha, if_neg fun hmem => ha (mem_liveOnce.mp hmem).1]
      rfl
  · rw [hstate]
    exact ((List.reverse_perm _).trans honce).append_right s.poolFree
  · rw [hstate]
    rfl
  · rw [hstate]
    rfl
  · exact hresult addrs
  -- A list in another order has the same members and counts, so only the pool's order differs.
  · have hmem : ∀ a, a ∈ addrs' ↔ a ∈ addrs := fun a => hperm.mem_iff
    have hcount : Unfreeable s.allocSet addrs' ↔ Unfreeable s.allocSet addrs := by
      unfold Unfreeable
      simp only [hmem, hperm.count_eq]
    have hlive := liveOnce_perm s.allocSet hmem
    refine ⟨(freeMany addrs' s).2.poolFree, ?_, Prod.ext ?_ ?_⟩
    · rw [hstate, hstate]
      exact (((List.reverse_perm _).trans hlive).trans (List.reverse_perm _).symm).append_right _
    · rw [hresult, hresult, if_congr hcount rfl rfl]
    · rw [hstate, hstate]
      unfold freed
      rw [UMap.eraseAll_perm hlive, List.toFinset_eq_of_perm _ _ hlive]
  -- The batch that comes next gets these very addresses back.
  · obtain ⟨t, hrun, hset, -⟩ := allocateMany_freed (nodup_liveOnce s.allocSet addrs)
      (fun a ha => (mem_liveOnce.mp ha).2) hv
    rw [honce.length_eq, ← hstate] at hrun
    exact ⟨_, t, (List.reverse_perm _).trans honce, hrun, allocateMany_iff.mp hrun, hset⟩

/-- Two live addresses. -/
def twoLive : DeviceAllocator :=
  { init with polyBytes := 8, nextAddr := kHbmBase + 16, allocSet := {⟨kHbmBase⟩, ⟨kHbmBase + 8⟩} }

/-- A list with one of the addresses twice, a null and a dead address. -/
theorem freeMany_exact_example :
    let addrs : List DevAddr := [⟨kHbmBase⟩, .null, ⟨kHbmBase + 64⟩, ⟨kHbmBase⟩, ⟨kHbmBase + 8⟩]
    twoLive.FreesEach addrs (addrs.filter (· ∈ twoLive.allocSet)).dedup :=
  Sound.freeMany_exact (s := twoLive)
    ⟨List.nodup_nil, fun a ha => absurd ha List.not_mem_nil,
      fun a ha => absurd ha (AList.notMem_empty a)⟩ (by decide) _

end DeviceAllocator

end Haze
