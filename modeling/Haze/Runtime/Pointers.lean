import Haze.Allocation.Recycle
import Haze.Entries

/-!
# The attributes of a pointer

`register_host_pointer`, `unregister_host_pointer` and `pointer_attributes` of `core/allocator.cpp`,
with the entries of `api/memory.cpp` that reach them. The set of host pointers stands beside the
runtime's state: no other call reads it, and only a reset clears it.

`View` is what a program can know of its pointers from its calls and their replies. After every run
the attributes are those of the view (`pointerAttributes_exact`).
-/

namespace Haze

variable {P M : Type}

/-- The runtime with the pointers that were handed out for host memory. -/
structure Pointers (P M : Type) where
  world : World P M
  hostSet : Finset UInt64

namespace Pointers

/-- At process start. -/
def init : Pointers P M := ⟨.init, ∅⟩

def registerHostPointer (ptr : UInt64) (s : Pointers P M) : Pointers P M :=
  if ptr ≠ 0 then { s with hostSet := insert ptr s.hostSet } else s

def unregisterHostPointer (ptr : UInt64) (s : Pointers P M) : Pointers P M :=
  if ptr ≠ 0 then { s with hostSet := s.hostSet.erase ptr } else s

end Pointers

/-- A call of the runtime, or one of the two entries that hand out and take back host memory. An
allocation carries the page that the host has for it, if it has one. -/
inductive PointerCall (P : Type) where
  | call (i : Invocation P)
  | hostAlloc (out : Bool) (size : UInt64) (page : Option UInt64)
  | freeHost (ptr : UInt64)

namespace Pointers

/-- The reply to a call, and the pointer that an allocation hands out. -/
def run (F : Fhetch P M) (s : Pointers P M) : PointerCall P → (Reply × Option UInt64) × Pointers P M
  | .call i =>
    let (reply, world) := i.run F s.world
    ((reply, none), ⟨world, if i.call matches .deviceReset then ∅ else s.hostSet⟩)
  | .hostAlloc out size page =>
    let reply := hazeHostAlloc out size page.isSome
    match page, reply.code with
    | some ptr, .success => ((reply, some ptr), s.registerHostPointer ptr)
    | _, _ => ((reply, none), s)
  | .freeHost ptr => ((hazeFreeHost, none), s.unregisterHostPointer ptr)

/-- The state after some calls. -/
def runAll (F : Fhetch P M) (s : Pointers P M) (calls : List (PointerCall P)) : Pointers P M :=
  calls.foldl (fun s c => (s.run F c).2) s

end Pointers

/-! ## What a program knows -/

/-- The pointers that a program was handed and has not given back. -/
structure View where
  device : Finset UInt64
  host : Finset UInt64

namespace View

/-- Before the first call. -/
def init : View := ⟨∅, ∅⟩

/-- The words of some addresses that are not null. -/
def words (addrs : List DevAddr) : Finset UInt64 :=
  ((addrs.filter (· ≠ .null)).map DevAddr.uintptr).toFinset

/-- What is known after a call, from its arguments and its reply. -/
def after (v : View) (reply : Reply × Option UInt64) : PointerCall P → View
  | .call i => match i.call with
    | .malloc _ _ => { v with device := v.device ∪ words reply.1.ptrs }
    | .mallocMrp _ _ _ => { v with device := v.device ∪ words reply.1.ptrs }
    | .free ptr => { v with device := v.device \ words [ptr] }
    | .freeMrp (some ptrs) count => if count > kMaxCiphertextModuli then v
      else { v with device := v.device \ words (World.takePtrs count.toNat ptrs) }
    | .deviceReset => init
    | _ => v
  | .hostAlloc _ _ _ => match reply.2 with
    | some ptr => { v with host := insert ptr v.host }
    | none => v
  | .freeHost ptr => { v with host := v.host.erase ptr }

/-- What is known after some calls. -/
def afterAll (F : Fhetch P M) : View → Pointers P M → List (PointerCall P) → View
  | v, _, [] => v
  | v, s, c :: calls => afterAll F (v.after (s.run F c).1 c) (s.run F c).2 calls

end View

/-! ## The live addresses -/

section

open DeviceAllocator

variable {F : Fhetch P M} {w : World P M}

/-- A batch makes the addresses live that it hands out. -/
theorem mem_allocSet_reserve {s : DeviceAllocator} (hs : s.Sound) (n : ℕ) (out : List DevAddr) :
    ∃ addrs t, reserve n out s = (.ok (out ++ addrs), t) ∧
      ∀ a, a ∈ t.allocSet ↔ a ∈ s.allocSet ∨ a ∈ addrs := by
  induction n generalizing s out with
  | zero => exact ⟨[], s, by rw [List.append_nil]; rfl, fun a => by simp⟩
  | succ n ih =>
    obtain ⟨b, he, halloc, -⟩ := hs.allocateOne_fresh
    obtain ⟨addrs, t, hrun, hmem⟩ := ih hs.allocateOne (out ++ [b])
    refine ⟨b :: addrs, t, ?_, fun a => ?_⟩
    · rw [reserve, Expected.attempt_bind_run, he]
      dsimp only
      rw [hrun, List.append_assoc, List.singleton_append]
    · rw [hmem, halloc, Finset.mem_insert, List.mem_cons]
      tauto

/-- Freeing an address leaves the others live. -/
theorem mem_allocSet_freeOne {s : DeviceAllocator} (a b : DevAddr) :
    a ∈ (freeOneLocked b s).2.allocSet ↔ a ∈ s.allocSet ∧ a ≠ b := by
  by_cases hb : b ∈ s.allocSet
  · rw [freeOne_live hb]
    exact Finset.mem_erase.trans and_comm
  · rw [freeOne_dead hb]
    exact ⟨fun ha => ⟨ha, fun hab => hb (hab ▸ ha)⟩, And.left⟩

/-- A list of frees leaves the addresses live that it does not name. -/
theorem mem_allocSet_freeEach {s : DeviceAllocator} {a : DevAddr} (ha : a ≠ .null)
    (addrs : List DevAddr) (first : Except HazeInternalError Unit) :
    a ∈ (freeEach addrs first s).2.allocSet ↔ a ∈ s.allocSet ∧ a ∉ addrs := by
  induction addrs generalizing first s with
  | nil => simp [freeEach]
  | cons b addrs ih =>
    rw [freeEach, List.mem_cons, not_or]
    split_ifs with hb
    · rw [ih, hb]
      tauto
    · rw [Expected.attempt_bind_run, ih, mem_allocSet_freeOne]
      tauto

/-- A call that hands addresses out makes them live. -/
theorem mem_allocSet_handsOut (hw : w.Inv) {i : Invocation P} (hcall : i.call.HandsOut)
    (a : DevAddr) : a ∈ (w.after F i).allocator.allocSet ↔
      a ∈ w.allocator.allocSet ∨ a ∈ (i.run F w).1.ptrs := by
  obtain ⟨env, c⟩ := i
  -- The two mallocs add what they hand out, and fail without a change.
  cases c with
  | malloc ptr size =>
    change a ∈ (hazeMalloc ptr size w).2.allocator.allocSet ↔
      _ ∨ a ∈ (hazeMalloc ptr size w).1.ptrs
    unfold hazeMalloc Shim.guarded
    split_ifs
    · exact (or_iff_left List.not_mem_nil).symm
    unfold Shim.replyWith World.onAllocator
    rw [Expected.zoom_run]
    rcases hv : w.allocator.validatePolySizeLocked size with e | _
    · rw [DeviceAllocator.allocate, Expected.query_bind_error hv]
      exact (or_iff_left List.not_mem_nil).symm
    · obtain ⟨b, he, halloc, -⟩ := hw.allocator.allocateOne_fresh
      rw [DeviceAllocator.allocate, Expected.query_bind_ok hv, he]
      change a ∈ (w.allocator.act .allocateOne).allocSet ↔ _ ∨ a ∈ [b]
      rw [halloc, Finset.mem_insert, List.mem_singleton, or_comm]
  | mallocMrp ptrs count size =>
    change a ∈ (hazeMallocMrp ptrs count size w).2.allocator.allocSet ↔
      _ ∨ a ∈ (hazeMallocMrp ptrs count size w).1.ptrs
    unfold hazeMallocMrp Shim.guarded
    split_ifs
    · exact (or_iff_left List.not_mem_nil).symm
    unfold Shim.replyWith World.onAllocator
    rw [Expected.zoom_run]
    by_cases hzero : count.toNat = 0
    · rw [DeviceAllocator.allocateMany, if_pos hzero]
      exact (or_iff_left List.not_mem_nil).symm
    rcases hv : w.allocator.validatePolySizeLocked size with e | _
    · rw [DeviceAllocator.allocateMany, if_neg hzero, Expected.query_bind_error hv]
      exact (or_iff_left List.not_mem_nil).symm
    · obtain ⟨addrs, t, he, hmem⟩ := mem_allocSet_reserve hw.allocator count.toNat []
      rw [DeviceAllocator.allocateMany, if_neg hzero, Expected.query_bind_ok hv, he]
      exact hmem a
  | _ => exact hcall.elim

end

/-! ## Runs -/

/-- The view knows the pointers that are live and those for host memory, null apart. -/
structure View.Exact (v : View) (s : Pointers P M) : Prop where
  device : ∀ ptr ≠ 0, ptr ∈ v.device ↔ ⟨ptr⟩ ∈ s.world.allocator.allocSet
  host : ∀ ptr ≠ 0, ptr ∈ v.host ↔ ptr ∈ s.hostSet

/-- The words of addresses are theirs without the null pointer. -/
theorem View.mem_words {addrs : List DevAddr} {ptr : UInt64} :
    ptr ∈ words addrs ↔ ptr ≠ 0 ∧ ⟨ptr⟩ ∈ addrs := by
  unfold words
  rw [List.mem_toFinset, List.mem_map]
  constructor
  · rintro ⟨a, ha, rfl⟩
    obtain ⟨ha, hnull⟩ := List.mem_filter.mp ha
    exact ⟨fun hzero => of_decide_eq_true hnull (congrArg DevAddr.mk hzero), ha⟩
  · rintro ⟨hzero, ha⟩
    refine ⟨⟨ptr⟩, List.mem_filter.mpr ⟨ha, decide_eq_true fun hnull => hzero ?_⟩, rfl⟩
    exact congrArg DevAddr.uintptr hnull

/-- What a call of the runtime leaves live. -/
theorem View.Exact.world (F : Fhetch P M) {v : View} {s : Pointers P M} (hw : s.world.Inv)
    (h : v.Exact s) (i : Invocation P) (handed : Option UInt64) (ptr : UInt64) (hptr : ptr ≠ 0) :
    ptr ∈ (v.after ((i.run F s.world).1, handed) (.call i)).device ↔
      ⟨ptr⟩ ∈ (s.world.after F i).allocator.allocSet := by
  have hnull : (⟨ptr⟩ : DevAddr) ≠ .null := fun heq => hptr (congrArg DevAddr.uintptr heq)
  -- A call that hands out adds the addresses of its reply to both sets.
  obtain ⟨env, c⟩ := i
  by_cases hhands : c.HandsOut
  · have hmem := mem_allocSet_handsOut (F := F) (i := ⟨env, c⟩) hw hhands ⟨ptr⟩
    rw [hmem, ← h.device ptr hptr]
    cases c with
    | malloc | mallocMrp =>
      refine Finset.mem_union.trans (or_congr_right ?_)
      exact mem_words.trans (and_iff_right hptr)
    | _ => exact hhands.elim
  -- The frees take what they list from both sets.
  cases c with
  | malloc | mallocMrp => exact absurd trivial hhands
  | free b =>
    have hrun : (s.world.after F ⟨env, .free b⟩).allocator =
        (DeviceAllocator.free b s.world.allocator).2 := by
      change (Shim.setInternalResult _ s.world).2.allocator = _
      rw [Shim.setInternalResult, Shim.replyWith_state]
      unfold invalidateNonNull
      split_ifs <;> rfl
    rw [hrun]
    -- A null pointer is in neither of them.
    refine Finset.mem_sdiff.trans ?_
    rw [mem_words, h.device ptr hptr, List.mem_singleton]
    unfold DeviceAllocator.free
    split_ifs with hb
    · rw [hb]
      exact and_iff_left fun hmem => hnull hmem.2
    · rw [mem_allocSet_freeOne]
      exact and_congr_right fun _ => not_congr (and_iff_right hptr)
  | freeMrp ptrs count =>
    rcases ptrs with _ | ptrs
    · exact h.device ptr hptr
    by_cases hcount : count > kMaxCiphertextModuli
    · have hrun : s.world.after F ⟨env, .freeMrp (some ptrs) count⟩ = s.world :=
        congrArg (fun b => (Shim.guarded b _ s.world).2) (decide_eq_true hcount)
      rw [hrun]
      change ptr ∈ (if count > kMaxCiphertextModuli then v else _).device ↔ _
      rw [if_pos hcount]
      exact h.device ptr hptr
    · have hrun : (s.world.after F ⟨env, .freeMrp (some ptrs) count⟩).allocator =
          (DeviceAllocator.freeMany (World.takePtrs count.toNat ptrs) s.world.allocator).2 := by
        change (Shim.guarded (decide (count > kMaxCiphertextModuli)) _ s.world).2.allocator = _
        rw [decide_eq_false hcount]
        change (Shim.setInternalResult _ s.world).2.allocator = _
        rw [Shim.setInternalResult, Shim.replyWith_state,
          Expected.bind_run_ok (invalidateAll_run _ s.world)]
        rfl
      rw [hrun, DeviceAllocator.freeMany, mem_allocSet_freeEach hnull, ← h.device ptr hptr]
      change ptr ∈ (if count > kMaxCiphertextModuli then v else _).device ↔ _
      rw [if_neg hcount]
      refine Finset.mem_sdiff.trans (and_congr_right fun _ => not_congr ?_)
      exact mem_words.trans (and_iff_right hptr)
  | deviceReset =>
    exact iff_of_false (Finset.notMem_empty _) (Finset.notMem_empty _)
  -- A change of the size keeps what is live.
  | setRingDimension n =>
    refine (h.device ptr hptr).trans ?_
    rcases layout_after F s.world ⟨env, .setRingDimension n⟩ with ⟨halloc, -, -⟩ | ⟨op, hop, he⟩
    · rw [halloc]
    · cases hop
      rw [he]
      change _ ↔ _ ∈ (s.world.allocator.setPolynomialSize (n * 8)).allocSet
      rw [hw.allocator.allocSet_setPolynomialSize]
  -- The other calls keep the layout.
  | _ =>
    refine (h.device ptr hptr).trans ?_
    rcases layout_after F s.world ⟨env, _⟩ with ⟨halloc, -, -⟩ | ⟨op, hop, -⟩
    · rw [halloc]
    · cases hop

/-- Only a reset of the device changes what is known of host memory. -/
theorem View.host_after (v : View) (reply : Reply × Option UInt64) (i : Invocation P) :
    (v.after reply (.call i)).host = if i.call matches .deviceReset then ∅ else v.host := by
  obtain ⟨env, c⟩ := i
  cases c with
  | freeMrp ptrs count =>
    rcases ptrs with _ | ptrs
    · rfl
    · dsimp only [after]
      split_ifs <;> first | rfl | contradiction
  | _ => rfl

/-- Every call keeps the view exact. -/
theorem View.Exact.call (F : Fhetch P M) {v : View} {s : Pointers P M} (hw : s.world.Inv)
    (h : v.Exact s) (c : PointerCall P) : (v.after (s.run F c).1 c).Exact (s.run F c).2 := by
  -- The device part, then the host part, of each call.
  cases c with
  | call i =>
    refine ⟨h.world F hw i none, fun ptr hptr => ?_⟩
    rw [host_after]
    change _ ↔ ptr ∈ if i.call matches .deviceReset then ∅ else s.hostSet
    split_ifs
    · exact Iff.rfl
    · exact h.host ptr hptr
  | hostAlloc out size page =>
    unfold Pointers.run
    dsimp only
    -- A page that is zero is not registered.
    split
    · refine ⟨fun ptr hptr => ?_, fun ptr hptr => ?_⟩
      · unfold Pointers.registerHostPointer
        split_ifs <;> exact h.device ptr hptr
      · refine Finset.mem_insert.trans ?_
        unfold Pointers.registerHostPointer
        split_ifs with hpage
        · exact (or_congr_right (h.host ptr hptr)).trans Finset.mem_insert.symm
        · rw [not_not.mp hpage]
          exact (or_iff_right hptr).trans (h.host ptr hptr)
    · exact h
  | freeHost page =>
    refine ⟨fun ptr hptr => ?_, fun ptr hptr => ?_⟩
    · change _ ↔ _ ∈ (s.unregisterHostPointer page).world.allocator.allocSet
      unfold Pointers.unregisterHostPointer
      split_ifs <;> exact h.device ptr hptr
    · change _ ↔ ptr ∈ (s.unregisterHostPointer page).hostSet
      refine Finset.mem_erase.trans ?_
      unfold Pointers.unregisterHostPointer
      split_ifs with hpage
      · exact (and_congr_right fun _ => h.host ptr hptr).trans Finset.mem_erase.symm
      · rw [not_not.mp hpage]
        exact (and_iff_right hptr).trans (h.host ptr hptr)

/-- The state after a call of the program is one of the runtime's. -/
theorem Pointers.inv_run (F : Fhetch P M) {s : Pointers P M} (hw : s.world.Inv) (c : PointerCall P) :
    (s.run F c).2.world.Inv := by
  cases c with
  | call i => exact hw.after i
  | hostAlloc out size page =>
    unfold run
    dsimp only
    split
    · unfold registerHostPointer
      split_ifs <;> exact hw
    · exact hw
  | freeHost ptr =>
    change (s.unregisterHostPointer ptr).world.Inv
    unfold unregisterHostPointer
    split_ifs <;> exact hw

/-- A run keeps the view exact. -/
theorem View.Exact.runAll (F : Fhetch P M) (calls : List (PointerCall P)) {v : View}
    {s : Pointers P M} (hw : s.world.Inv) (h : v.Exact s) :
    (v.afterAll F s calls).Exact (s.runAll F calls) := by
  induction calls generalizing v s with
  | nil => exact h
  | cons c calls ih => exact ih (Pointers.inv_run F hw c) (h.call F hw c)

end Haze
