import Haze.Allocation.Disjoint
import Haze.Allocation.Operations

/-!
# Live addresses across calls

What the operations of the allocator do to the live addresses, and which operation a public call
makes. An address that is handed out was not live, where the bump pointer does not wrap, and a live
address stays so until it is freed or the allocator is reset.
-/

namespace Haze

namespace DeviceAllocator

variable {s : DeviceAllocator} {a : DevAddr}

/-- One allocation makes an address live that was not. -/
theorem Sound.allocateOne_fresh (hs : s.Sound) :
    ∃ a, allocateOneLocked s = (.ok a, s.act .allocateOne) ∧
      (s.act .allocateOne).allocSet = insert a s.allocSet ∧
      (s.act .allocateOne).shadowData = s.shadowData ∧ (s.Bounded → a ∉ s.allocSet) := by
  unfold DeviceAllocator.act
  rcases hs.allocateOne_cases with ⟨a, rest, -, ha, he⟩ | ⟨-, he⟩
  · rw [he]
    exact ⟨a, rfl, rfl, rfl, fun _ => ha⟩
  · rw [he]
    exact ⟨⟨s.nextAddr⟩, rfl, rfl, rfl, fun hb ha => hb.next_fresh (.inl ha)⟩

/-- A batch makes addresses live that were not. -/
theorem Sound.reserve_fresh (hs : s.Sound) (n : ℕ) (out : List DevAddr) :
    ∃ addrs t, reserve n out s = (.ok (out ++ addrs), t) ∧ s.allocSet ⊆ t.allocSet ∧
      t.shadowData = s.shadowData ∧
      (s.polyBytes ≠ 0 → s.Bounded → s.RoomFor n → ∀ a ∈ addrs, a ∉ s.allocSet) := by
  -- By induction on the batch: the live set only grows, and no words are written.
  induction n generalizing s out with
  | zero =>
    exact ⟨[], s, by rw [List.append_nil]; rfl, fun _ ha => ha, rfl,
      fun _ _ _ a ha => absurd ha List.not_mem_nil⟩
  | succ n ih =>
    obtain ⟨a, he, halloc, hshadow, hfresh⟩ := hs.allocateOne_fresh
    obtain ⟨addrs, t, hrun, hkeep, hdata, hnew⟩ := ih hs.allocateOne (out ++ [a])
    rw [halloc] at hkeep hnew
    refine ⟨a :: addrs, t, ?_, fun b hb => hkeep (Finset.mem_insert_of_mem hb),
      hdata.trans hshadow, fun hsize hb hroom b hmem => ?_⟩
    · rw [reserve, Expected.attempt_bind_run, he]
      dsimp only
      rw [hrun, List.append_assoc, List.singleton_append]
    · rcases List.mem_cons.mp hmem with rfl | hmem
      · exact hfresh hb
      · obtain ⟨hwrap, hroom⟩ := hroom.advance
        have hbounded := hb.allocateOne hs hsize hwrap
        have hsize' : (s.act .allocateOne).polyBytes ≠ 0 := by rwa [polyBytes_act]
        exact fun hlive => hnew hsize' hbounded hroom b hmem (Finset.mem_insert_of_mem hlive)

/-- A list of frees leaves the other addresses live. -/
theorem freeEach_live {addrs : List DevAddr} (first : Except HazeInternalError Unit)
    (ha : a ∈ s.allocSet) (hfree : a ∉ addrs.filter (· ≠ .null)) :
    a ∈ (freeEach addrs first s).2.allocSet := by
  induction addrs generalizing first s with
  | nil => exact ha
  | cons b addrs ih =>
    unfold freeEach
    split_ifs with hnull
    · refine ih first ha ?_
      rwa [List.filter_cons_of_neg (by simp [hnull])] at hfree
    · rw [List.filter_cons_of_pos (by simp [hnull]), List.mem_cons, not_or] at hfree
      rw [Expected.attempt_bind_run]
      refine ih _ ?_ hfree.2
      by_cases hb : b ∈ s.allocSet
      · rw [freeOne_live hb]
        exact Finset.mem_erase.mpr ⟨hfree.1, ha⟩
      · rw [freeOne_dead hb]
        exact ha

/-- A list of frees leaves none of its addresses live. -/
theorem freeEach_dead {addrs : List DevAddr} (first : Except HazeInternalError Unit)
    (h : a ∉ s.allocSet ∨ a ∈ addrs ∧ a ≠ .null) : a ∉ (freeEach addrs first s).2.allocSet := by
  -- By induction on the list: an address that is dead stays so, and one on the list dies in its
  -- turn.
  induction addrs generalizing first s with
  | nil => exact h.resolve_right fun hmem => List.not_mem_nil hmem.1
  | cons b addrs ih =>
    unfold freeEach
    split_ifs with hnull
    · refine ih first (h.imp_right fun h => ⟨?_, h.2⟩)
      exact (List.mem_cons.mp h.1).resolve_left fun heq => h.2 (heq.trans hnull)
    · rw [Expected.attempt_bind_run]
      refine ih _ ?_
      -- A live entry is freed; one that is not only sets the error.
      by_cases hb : b ∈ s.allocSet
      · rw [freeOne_live hb]
        rcases h with hdead | ⟨hmem, ha⟩
        · exact .inl fun hmem => hdead (Finset.mem_of_mem_erase hmem)
        · rcases List.mem_cons.mp hmem with rfl | hmem
          · exact .inl (Finset.notMem_erase a _)
          · exact .inr ⟨hmem, ha⟩
      · rw [freeOne_dead hb]
        rcases h with hdead | ⟨hmem, ha⟩
        · exact .inl hdead
        · rcases List.mem_cons.mp hmem with rfl | hmem
          · exact .inl hb
          · exact .inr ⟨hmem, ha⟩

/-- Freeing addresses leaves the words of the others. -/
theorem shadow_freeEach {addrs : List DevAddr} (first : Except HazeInternalError Unit)
    (h : a ∉ addrs.filter (· ≠ .null)) : (freeEach addrs first s).2.shadow a = s.shadow a := by
  induction addrs generalizing first s with
  | nil => rfl
  | cons b addrs ih =>
    unfold freeEach
    split_ifs with hnull
    · rw [List.filter_cons_of_neg (by simp [hnull])] at h
      exact ih first h
    · rw [List.filter_cons_of_pos (by simp [hnull]), List.mem_cons, not_or] at h
      rw [Expected.attempt_bind_run]
      refine (ih _ h.2).trans ?_
      by_cases hb : b ∈ s.allocSet
      · rw [freeOne_live hb]
        exact AList.lookup_erase_ne h.1
      · rw [freeOne_dead hb]

/-- Two states have the same live and pooled addresses and the same bump pointer. -/
def SameLayout (s t : DeviceAllocator) : Prop :=
  t.allocSet = s.allocSet ∧ t.poolFree = s.poolFree ∧ t.nextAddr = s.nextAddr

/-- An allocator has its own layout. -/
theorem SameLayout.refl (s : DeviceAllocator) : s.SameLayout s := ⟨rfl, rfl, rfl⟩

/-- A change of size leaves the live addresses. -/
theorem Sound.allocSet_setPolynomialSize (hs : s.Sound) (bytes : UInt64) :
    (s.setPolynomialSize bytes).allocSet = s.allocSet := by
  rcases s.setPolynomialSize_cases bytes with ⟨-, he⟩ | ⟨-, he⟩
  · rw [he]
  · rw [he]
    exact Finset.sdiff_eq_self_of_disjoint (Finset.disjoint_left.mpr fun a ha hpool =>
      hs.pool_dead a (List.mem_toFinset.mp hpool) ha)

end DeviceAllocator

/-! ## Operations -/

namespace AllocatorOp

open DeviceAllocator

/-- The addresses that an operation frees. -/
def frees : AllocatorOp → List DevAddr
  | .free addr => [addr].filter (· ≠ .null)
  | .freeMany addrs => addrs.filter (· ≠ .null)
  | _ => []

variable {s : DeviceAllocator} {a : DevAddr}

/-- A live address stays live until it is freed or the allocator is reset. -/
theorem live_step (hs : s.Sound) {op : AllocatorOp} (hop : op ≠ .reset) (ha : a ∈ s.allocSet)
    (hfree : a ∉ op.frees) : a ∈ (step s op).allocSet := by
  -- Only a free takes an address out of the live set, and this one is not freed.
  cases op with
  | allocate bytes =>
    change a ∈ ((DeviceAllocator.allocate bytes >>= fun _ => pure ()) s).2.allocSet
    unfold DeviceAllocator.allocate
    rcases hv : s.validatePolySizeLocked bytes with e | _
    · rw [Expected.bind_run_error (Expected.query_bind_error hv)]
      exact ha
    · obtain ⟨b, he, halloc, -⟩ := hs.allocateOne_fresh
      rw [Expected.bind_run_ok ((Expected.query_bind_ok hv).trans he)]
      change a ∈ (s.act .allocateOne).allocSet
      rw [halloc]
      exact Finset.mem_insert_of_mem ha
  | allocateMany count bytes =>
    change a ∈ ((DeviceAllocator.allocateMany count bytes >>= fun _ => pure ()) s).2.allocSet
    unfold DeviceAllocator.allocateMany
    split_ifs
    · exact ha
    rcases hv : s.validatePolySizeLocked bytes with e | _
    · rw [Expected.bind_run_error (Expected.query_bind_error hv)]
      exact ha
    · obtain ⟨addrs, t, he, hkeep, -⟩ := hs.reserve_fresh count []
      rw [Expected.bind_run_ok ((Expected.query_bind_ok hv).trans he)]
      exact hkeep ha
  | free b =>
    change a ∈ (DeviceAllocator.free b s).2.allocSet
    unfold DeviceAllocator.free
    split_ifs with hnull
    · exact ha
    · have hab : a ≠ b := by simpa [frees, hnull] using hfree
      by_cases hb : b ∈ s.allocSet
      · rw [freeOne_live hb]
        exact Finset.mem_erase.mpr ⟨hab, ha⟩
      · rw [freeOne_dead hb]
        exact ha
  | freeMany addrs => exact freeEach_live (.ok ()) ha hfree
  | copyH2d dst src count =>
    change a ∈ (DeviceAllocator.copyH2d dst src count s).2.allocSet
    rcases src with _ | bytes
    · exact ha
    · dsimp only [DeviceAllocator.copyH2d]
      rcases hc : s.checkRange dst count with e | _
      · rw [Expected.query_bind_error hc]
        exact ha
      · rw [Expected.query_bind_ok hc]
        exact ha
  | memset addr value count =>
    change a ∈ (DeviceAllocator.memset addr value count s).2.allocSet
    unfold DeviceAllocator.memset
    rcases hc : s.checkRange addr count with e | _
    · rw [Expected.query_bind_error hc]
      exact ha
    · rw [Expected.query_bind_ok hc]
      exact ha
  | updateShadow addr values =>
    change a ∈ (DeviceAllocator.updateShadow addr values s).2.allocSet
    unfold DeviceAllocator.updateShadow
    split_ifs <;> exact ha
  | extract addr ringDim =>
    have hextract : ((extractPolynomialComponents addr ringDim >>= fun _ => pure ()) s).2.allocSet =
        s.allocSet := by
      rcases he : extractPolynomialComponents addr ringDim s with ⟨e | values, t⟩
      · rw [Expected.bind_run_error he]
        unfold extractPolynomialComponents at he
        split at he <;> cases he <;> rfl
      · rw [Expected.bind_run_ok he]
        unfold extractPolynomialComponents at he
        split at he <;> cases he
        rfl
    exact hextract ▸ ha
  | setPolynomialSize bytes =>
    change a ∈ (s.setPolynomialSize bytes).allocSet
    rwa [hs.allocSet_setPolynomialSize]
  | reset => exact absurd rfl hop

end AllocatorOp

/-! ## Calls -/

/-- The operation that a call makes on the layout of the allocations, if it makes one. -/
def Call.allocatorOp : Call → Option AllocatorOp
  | .malloc _ size => some (.allocate size)
  | .mallocMrp _ count size => some (.allocateMany count.toNat size)
  | .free ptr => some (.free ptr)
  | .freeMrp (some ptrs) count => if count > kMaxCiphertextModuli then none
    else some (.freeMany (World.takePtrs count.toNat ptrs))
  | .setRingDimension n => some (.setPolynomialSize (n * 8))
  | .deviceReset => some .reset
  | _ => none

section

variable {P M : Type} {F : Fhetch P M} {w : World P M}

open World (takePtrs)

/-- A call leaves the layout, or makes its operation. -/
theorem layout_after (F : Fhetch P M) (w : World P M) (i : Invocation P) :
    w.allocator.SameLayout (w.after F i).allocator ∨
      ∃ op, i.call.allocatorOp = some op ∧ (w.after F i).allocator = op.step w.allocator := by
  obtain ⟨env, c⟩ := i
  have hreply : ∀ {α : Type} (onOk : α → Reply) (x : DeviceAllocator.Method α) (w : World P M),
      (Shim.replyWith onOk (World.onAllocator x) w).2.allocator = (x w.allocator).2 :=
    fun onOk x w => by rw [Shim.replyWith_state, World.onAllocator, Expected.zoom_run]
  -- The calls that change the layout, each by its own operation of the allocator.
  by_cases hc : c.ChangesLayout
  · cases c with
    | malloc ptr size =>
      rcases ptr with _ | _
      · exact .inl (.refl _)
      · refine .inr ⟨_, rfl, (hreply _ (DeviceAllocator.allocate size) w).trans ?_⟩
        exact (Expected.bind_pure_state _ _ _).symm
    | mallocMrp ptrs count size =>
      change w.allocator.SameLayout (hazeMallocMrp ptrs count size w).2.allocator ∨
        ∃ op, _ ∧ (hazeMallocMrp ptrs count size w).2.allocator = _
      unfold hazeMallocMrp Shim.guarded
      split_ifs
      · exact .inl (.refl _)
      · refine .inr ⟨_, rfl, (hreply _ (DeviceAllocator.allocateMany count.toNat size) w).trans ?_⟩
        exact (Expected.bind_pure_state _ _ _).symm
    | free ptr =>
      refine .inr ⟨_, rfl, ?_⟩
      change (Shim.setInternalResult _ w).2.allocator = (DeviceAllocator.free ptr w.allocator).2
      rw [Shim.setInternalResult, Shim.replyWith_state]
      unfold invalidateNonNull
      split_ifs <;> rfl
    | freeMrp ptrs count =>
      rcases ptrs with _ | ptrs
      · exact .inl (.refl _)
      change w.allocator.SameLayout
          (Shim.guarded (decide (count > kMaxCiphertextModuli)) _ w).2.allocator ∨
        ∃ op, _ ∧ (Shim.guarded (decide (count > kMaxCiphertextModuli)) _ w).2.allocator = _
      by_cases hcount : count > kMaxCiphertextModuli
      · rw [decide_eq_true hcount]
        exact .inl (.refl _)
      · rw [decide_eq_false hcount]
        refine .inr ⟨.freeMany (takePtrs count.toNat ptrs), if_neg hcount, ?_⟩
        change (Shim.setInternalResult _ w).2.allocator =
          (DeviceAllocator.freeMany (takePtrs count.toNat ptrs) w.allocator).2
        rw [Shim.setInternalResult, Shim.replyWith_state,
          Expected.bind_run_ok (invalidateAll_run _ w)]
        rfl
    | deviceReset => exact .inr ⟨_, rfl, rfl⟩
    | setRingDimension n =>
      change w.allocator.SameLayout (Shim.setInternalResult (World.setRingDimension n) w).2.allocator ∨
        ∃ op, _ ∧ (Shim.setInternalResult (World.setRingDimension n) w).2.allocator = _
      rw [Shim.setInternalResult, Shim.replyWith_state]
      rcases World.setRingDimension_cases (F := F) n w with ⟨-, he⟩ | ⟨-, he⟩
      · rw [he]
        exact .inr ⟨_, rfl, rfl⟩
      · rw [he]
        exact .inl (.refl _)
    | _ => exact hc.elim
  -- Every action of any other call keeps the layout.
  · refine .inl ((Call.performs env c w).preserves
      (I := fun v : World P M => w.allocator.SameLayout v.allocator) (fun v x hx hI => ?_) (.refl _))
    obtain ⟨h₁, h₂, h₃⟩ := act_layout (F := F) (w := v) (Call.acts_keepsLayout hc hx.1)
    exact ⟨h₁.trans hI.1, h₂.trans hI.2.1, h₃.trans hI.2.2⟩

/-- An allocation of a call does not wrap the bump pointer. -/
def Call.NoWrap (s : DeviceAllocator) (c : Call) : Prop :=
  ∀ op, c.allocatorOp = some op → op.NoWrap s

/-- Calls that do not wrap the bump pointer keep the addresses below it. -/
theorem bounded_after (hw : w.Inv) (hb : w.allocator.Bounded) {i : Invocation P}
    (hi : i.call.NoWrap w.allocator) : (w.after F i).allocator.Bounded := by
  rcases layout_after F w i with ⟨halloc, hpool, hnext⟩ | ⟨op, hop, he⟩
  · refine hb.of_owned hnext fun a ha => ?_
    unfold DeviceAllocator.Owned at ha ⊢
    rwa [← halloc, ← hpool]
  · rw [he]
    exact (AllocatorOp.step_invariant op (hi op hop) ⟨hw.allocator, hb⟩).2

/-- A call hands addresses out. -/
def Call.HandsOut : Call → Prop
  | .malloc _ _ => True
  | .mallocMrp _ _ _ => True
  | _ => False

/-- The addresses that a call hands out were not live, unless the bump pointer wraps, and the call
writes no words. -/
theorem handedOut_fresh (hw : w.Inv) {i : Invocation P} (hcall : i.call.HandsOut) :
    (w.allocator.Bounded → i.call.NoWrap w.allocator →
        ∀ a ∈ (i.run F w).1.ptrs, a ∉ w.allocator.allocSet) ∧
      (w.after F i).allocator.shadowData = w.allocator.shadowData ∧
      (w.after F i).epoch = w.epoch ∧ (w.after F i).config = w.config := by
  obtain ⟨env, c⟩ := i
  cases c with
  | malloc ptr size =>
    change (_ → _ → ∀ a ∈ (hazeMalloc ptr size w).1.ptrs, _) ∧
      (hazeMalloc ptr size w).2.allocator.shadowData = _ ∧
      (hazeMalloc ptr size w).2.epoch = _ ∧ (hazeMalloc ptr size w).2.config = _
    -- A null pointer or a count that is too large is refused first, then a wrong size.
    unfold hazeMalloc Shim.guarded
    split_ifs
    · exact ⟨fun _ _ a ha => absurd ha List.not_mem_nil, rfl, rfl, rfl⟩
    unfold Shim.replyWith World.onAllocator
    rw [Expected.zoom_run]
    rcases hv : w.allocator.validatePolySizeLocked size with e | _
    · rw [DeviceAllocator.allocate, Expected.query_bind_error hv]
      exact ⟨fun _ _ a ha => absurd ha List.not_mem_nil, rfl, rfl, rfl⟩
    · obtain ⟨a, he, -, hshadow, hfresh⟩ := hw.allocator.allocateOne_fresh
      rw [DeviceAllocator.allocate, Expected.query_bind_ok hv, he]
      refine ⟨fun hb _ b hmem => ?_, hshadow, rfl, rfl⟩
      rw [List.mem_singleton.mp hmem]
      exact hfresh hb
  | mallocMrp ptrs count size =>
    change (_ → _ → ∀ a ∈ (hazeMallocMrp ptrs count size w).1.ptrs, _) ∧
      (hazeMallocMrp ptrs count size w).2.allocator.shadowData = _ ∧
      (hazeMallocMrp ptrs count size w).2.epoch = _ ∧ (hazeMallocMrp ptrs count size w).2.config = _
    unfold hazeMallocMrp Shim.guarded
    split_ifs
    · exact ⟨fun _ _ a ha => absurd ha List.not_mem_nil, rfl, rfl, rfl⟩
    unfold Shim.replyWith World.onAllocator
    -- The batch checks its count, then its size.
    rw [Expected.zoom_run]
    by_cases hzero : count.toNat = 0
    · rw [DeviceAllocator.allocateMany, if_pos hzero]
      exact ⟨fun _ _ a ha => absurd ha List.not_mem_nil, rfl, rfl, rfl⟩
    rcases hv : w.allocator.validatePolySizeLocked size with e | _
    · rw [DeviceAllocator.allocateMany, if_neg hzero, Expected.query_bind_error hv]
      exact ⟨fun _ _ a ha => absurd ha List.not_mem_nil, rfl, rfl, rfl⟩
    · obtain ⟨addrs, t, he, -, hshadow, hfresh⟩ := hw.allocator.reserve_fresh count.toNat []
      rw [DeviceAllocator.allocateMany, if_neg hzero, Expected.query_bind_ok hv, he]
      refine ⟨fun hb hi => ?_, hshadow, rfl, rfl⟩
      exact hfresh (DeviceAllocator.validate_ok hv).1 hb (hi _ rfl hv)
  | _ => exact hcall.elim

end

end Haze
