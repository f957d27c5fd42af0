import Haze.Allocation.Disjoint
import Haze.Core.ScalarRing

/-!
# Sizes and addresses in 64 bits

The size of an allocation is eight times the ring dimension, and the bump pointer moves by the size;
both are computed in 64 bits, and neither is checked. The pieces that the bump pointer carved since
the last reset form a chain from the base, whatever was computed. `sizes_exact` says when the
arithmetic is that of the natural numbers: when the ring dimension is below `2^61`, and the base,
the sizes of all pieces and one more allocation come to less than `2^64`.
-/

namespace Haze

namespace Extent

/-- Each extent starts where the one before ends, in 64-bit arithmetic. -/
def Chain : UInt64 → List Extent → UInt64 → Prop
  | start, [], finish => start = finish
  | start, e :: es, finish => e.1.uintptr = start ∧ Chain (start + e.2) es finish

/-- The sizes of extents together. -/
def totalSize (es : List Extent) : ℕ := (es.map (·.2.toNat)).sum

variable {start middle finish : UInt64} {es fs : List Extent}

/-- A chain continues with a chain from where it ends. -/
theorem Chain.append (h : Chain start es middle) (h' : Chain middle fs finish) :
    Chain start (es ++ fs) finish := by
  induction es generalizing start with
  | nil =>
    obtain rfl : start = middle := h
    exact h'
  | cons e es ih => exact ⟨h.1, ih h.2⟩

/-- When no extent of a chain reaches the end of the address space, the chain is as long as the
sizes together. -/
theorem Chain.finish_eq (h : Chain start es finish) (hends : ∀ e ∈ es, e.finish < 2^64) :
    finish.toNat = start.toNat + totalSize es := by
  induction es generalizing start with
  | nil =>
    obtain rfl : start = finish := h
    rfl
  | cons e es ih =>
    have hend := hends e (List.mem_cons_self ..)
    unfold Extent.finish at hend
    have hrest := ih h.2 fun f hf => hends f (List.mem_cons_of_mem _ hf)
    have hsum : (start + e.2).toNat = start.toNat + e.2.toNat := by
      rw [← h.1, UInt64.toNat_add]
      omega
    have htotal : totalSize (e :: es) = e.2.toNat + totalSize es := List.sum_cons
    omega

/-- When the sizes fit, no extent of a chain reaches the end of the address space, -/
theorem Chain.ends_lt (h : Chain start es finish) (hfits : start.toNat + totalSize es < 2^64) :
    ∀ e ∈ es, start ≤ e.1.uintptr ∧ e.finish < 2^64 := by
  induction es generalizing start with
  | nil => exact fun e he => absurd he List.not_mem_nil
  | cons e es ih =>
    have htotal : totalSize (e :: es) = e.2.toNat + totalSize es := List.sum_cons
    have hsum : (start + e.2).toNat = start.toNat + e.2.toNat := by
      rw [UInt64.toNat_add]
      omega
    have hrest := ih h.2 (by omega)
    intro f hf
    rcases List.mem_cons.mp hf with rfl | hf
    · unfold Extent.finish
      rw [h.1]
      exact ⟨UInt64.le_refl _, by omega⟩
    · obtain ⟨hle, hlt⟩ := hrest f hf
      rw [UInt64.le_iff_toNat_le] at hle ⊢
      exact ⟨by omega, hlt⟩

/-- and the extents are in increasing order. -/
theorem Chain.increasing (h : Chain start es finish) (hfits : start.toNat + totalSize es < 2^64)
    (hpos : ∀ e ∈ es, e.2 ≠ 0) : es.Pairwise fun e f => e.1.uintptr < f.1.uintptr := by
  induction es generalizing start with
  | nil => exact .nil
  | cons e es ih =>
    have htotal : totalSize (e :: es) = e.2.toNat + totalSize es := List.sum_cons
    have hsum : (start + e.2).toNat = start.toNat + e.2.toNat := by
      rw [UInt64.toNat_add]
      omega
    refine .cons (fun f hf => ?_) (ih h.2 (by omega) fun f hf => hpos f (List.mem_cons_of_mem _ hf))
    have hle := (Chain.ends_lt h.2 (by omega) f hf).1
    have hne : e.2.toNat ≠ 0 := fun hz => hpos e (List.mem_cons_self ..) (UInt64.toNat_inj.mp hz)
    rw [UInt64.le_iff_toNat_le] at hle
    rw [UInt64.lt_iff_toNat_lt, h.1]
    omega

end Extent

/-! ## The pieces that are carved -/

namespace DeviceAllocator

/-- The allocator after `n` addresses were handed out. -/
def handed : ℕ → DeviceAllocator → DeviceAllocator
  | 0, s => s
  | n + 1, s => handed n (s.act .allocateOne)

/-- The pieces that handing out `n` addresses carves, in order. -/
def pieces : ℕ → DeviceAllocator → List Extent
  | 0, _ => []
  | n + 1, s =>
    (if s.poolFree = [] then [(⟨s.nextAddr⟩, s.polyBytes)] else []) ++
      pieces n (s.act .allocateOne)

/-- The pieces lead from the one value of the bump pointer to the other. -/
theorem pieces_chain (n : ℕ) (s : DeviceAllocator) :
    Extent.Chain s.nextAddr (s.pieces n) (s.handed n).nextAddr := by
  induction n generalizing s with
  | zero => rfl
  | succ n ih =>
    refine Extent.Chain.append ?_ (ih (s.act .allocateOne))
    rcases allocateOne_advance s with ⟨hp, -, hn⟩ | ⟨hp, hn⟩
    · rw [if_pos hp, hn]
      exact ⟨rfl, rfl⟩
    · have hne : s.poolFree ≠ [] := fun hnil => by
        rw [hnil] at hp
        exact absurd hp (Nat.succ_ne_zero _).symm
      rw [if_neg hne, hn]
      exact rfl

/-- The size of every piece is the size of an allocation. -/
theorem size_pieces {n : ℕ} {s : DeviceAllocator} {e : Extent} (he : e ∈ s.pieces n) :
    e.2 = s.polyBytes := by
  induction n generalizing s with
  | zero => exact absurd he List.not_mem_nil
  | succ n ih =>
    rcases List.mem_append.mp he with he | he
    · split_ifs at he
      · rw [List.mem_singleton.mp he]
      · exact absurd he List.not_mem_nil
    · exact (ih he).trans (polyBytes_act s .allocateOne)

/-- A batch that is reserved hands out its addresses one after the other. -/
theorem reserve_state {n : ℕ} {out : List DevAddr} {s : DeviceAllocator} (hs : s.Sound) :
    (reserve n out s).2 = s.handed n := by
  induction n generalizing s out with
  | zero => rfl
  | succ n ih =>
    obtain ⟨a, ha⟩ := hs.allocateOne_ok
    rw [reserve, Expected.attempt_bind_run, ha]
    exact ih hs.allocateOne

end DeviceAllocator

/-- The number of addresses that a call hands out, in a state of the allocator. -/
def Call.takes (s : DeviceAllocator) : Call → ℕ
  | .malloc ptr size => if ptr && (s.validatePolySizeLocked size).isOk then 1 else 0
  | .mallocMrp ptrs count size =>
    if ptrs && count ≤ kMaxCiphertextModuli && (s.validatePolySizeLocked size).isOk
    then count.toNat else 0
  | _ => 0

/-- The pieces carved since the last reset, after a call that is made in a state of the
allocator. -/
def Call.carves (s : DeviceAllocator) (carved : List Extent) : Call → List Extent
  | .deviceReset => []
  | c => carved ++ s.pieces (c.takes s)

variable {P M : Type}

/-- The state and the carved pieces after an invocation. -/
def carveStep (F : Fhetch P M) (t : World P M × List Extent) (i : Invocation P) :
    World P M × List Extent := (t.1.after F i, i.call.carves t.1.allocator t.2)

section

variable {F : Fhetch P M} {w : World P M}

/-- A single allocation hands out its address. -/
theorem allocate_state (size : UInt64) (s : DeviceAllocator) :
    (DeviceAllocator.allocate size s).2 =
      s.handed (if (s.validatePolySizeLocked size).isOk then 1 else 0) := by
  unfold DeviceAllocator.allocate
  rcases hv : s.validatePolySizeLocked size with e | _
  · rw [Expected.query_bind_error hv]
    rfl
  · rw [Expected.query_bind_ok hv]
    rfl

/-- A batch hands out all of its addresses. -/
theorem allocateMany_state {s : DeviceAllocator} (hs : s.Sound) (count : ℕ) (size : UInt64) :
    (DeviceAllocator.allocateMany count size s).2 =
      s.handed (if (s.validatePolySizeLocked size).isOk then count else 0) := by
  unfold DeviceAllocator.allocateMany
  split_ifs with hzero hok hok
  · rw [hzero]
    rfl
  · rfl
  · rcases hv : s.validatePolySizeLocked size with e | _
    · rw [hv] at hok
      cases hok
    · rw [Expected.query_bind_ok hv]
      exact DeviceAllocator.reserve_state hs
  · rcases hv : s.validatePolySizeLocked size with e | _
    · rw [Expected.query_bind_error hv]
      rfl
    · rw [hv] at hok
      exact absurd rfl hok

/-- Only handing out an address and a reset move the bump pointer. -/
theorem nextAddr_act {x : Action P M} (halloc : x ≠ .allocator .allocateOne) (hreset : x ≠ .reset)
    (w : World P M) : (w.act F x).allocator.nextAddr = w.allocator.nextAddr := by
  -- Only `allocateOne` and a reset move the pointer; a free fills the pool and a new size keeps it.
  cases x with
  | allocator x =>
    cases x with
    | allocateOne => exact absurd rfl halloc
    | freeOne a =>
      change (w.allocator.act (.freeOne a)).nextAddr = _
      unfold DeviceAllocator.act DeviceAllocator.freeOneLocked
      dsimp only
      split_ifs <;> rfl
    | _ => rfl
  | ringDimension n =>
    change (w.allocator.setPolynomialSize (n * 8)).nextAddr = _
    rcases w.allocator.setPolynomialSize_cases (n * 8) with ⟨-, he⟩ | ⟨-, he⟩
    · rw [he]
    · rw [he]
      rfl
  | session env =>
    obtain ⟨_, _, _, -, he⟩ := World.session_frame (F := F) env w
    rw [he]
  | reset => exact absurd rfl hreset
  | _ => rfl

/-- Only an allocation hands out an address, and only a reset resets. -/
theorem Call.acts_moves {pending : DevAddr → Prop} {c : Call} {x : Action P M}
    (h : c.Acts F pending x) (hmalloc : ∀ ptr size, c ≠ .malloc ptr size)
    (hmallocMrp : ∀ ptrs count size, c ≠ .mallocMrp ptrs count size) (hreset : c ≠ .deviceReset) :
    x ≠ .allocator .allocateOne ∧ x ≠ .reset := by
  constructor <;> rintro rfl
  all_goals
    cases c with
    | malloc ptr size => exact hmalloc ptr size rfl
    | mallocMrp ptrs count size => exact hmallocMrp ptrs count size rfl
    | deviceReset => exact hreset rfl
    | memcpy transfer count => cases transfer <;> exact h
    | memcpyMrp transfer count base => cases transfer <;> exact h
    | tagOutput ptr => cases h
    | setRingDimension n => cases h
    | config call =>
      obtain ⟨d, hd⟩ := h
      cases hd
    | _ => exact h

/-- Where a call leaves the bump pointer. -/
theorem nextAddr_run (hw : w.Inv) (env : CompilerReplies P) {c : Call} (hc : c ≠ .deviceReset) :
    (c.run F env w).2.allocator.nextAddr =
      (w.allocator.handed (c.takes w.allocator)).nextAddr := by
  -- Outside the two mallocs no action of the call takes an address.
  have hkeeps : (∀ ptr size, c ≠ .malloc ptr size) →
      (∀ ptrs count size, c ≠ .mallocMrp ptrs count size) →
      (c.run F env w).2.allocator.nextAddr = w.allocator.nextAddr := fun hmalloc hmallocMrp =>
    (Call.performs env c w).preserves (I := fun v => v.allocator.nextAddr = w.allocator.nextAddr)
      (fun v x hx hv => by
        obtain ⟨halloc, hreset⟩ := Call.acts_moves hx.1 hmalloc hmallocMrp hc
        exact (nextAddr_act halloc hreset v).trans hv) rfl
  -- The two mallocs take what their own lemmas say, behind their argument checks.
  cases c with
  | malloc ptr size =>
    change ((hazeMalloc ptr size w).2 : World P M).allocator.nextAddr = _
    unfold hazeMalloc Shim.guarded
    rcases ptr with _ | _
    · rfl
    · rw [if_neg (by simp), Shim.replyWith_state]
      exact congrArg DeviceAllocator.nextAddr (allocate_state size w.allocator)
  | mallocMrp ptrs count size =>
    change ((hazeMallocMrp ptrs count size w).2 : World P M).allocator.nextAddr = _
    unfold hazeMallocMrp Shim.guarded
    rcases ptrs with _ | _
    · rfl
    by_cases hcount : count ≤ kMaxCiphertextModuli
    · have htakes : (Call.mallocMrp true count size).takes w.allocator =
          if (w.allocator.validatePolySizeLocked size).isOk then count.toNat else 0 := by
        simp [Call.takes, hcount]
      rw [if_neg (by simp [UInt64.not_lt.mpr hcount]), Shim.replyWith_state, htakes]
      exact congrArg DeviceAllocator.nextAddr (allocateMany_state hw.allocator count.toNat size)
    · have htakes : (Call.mallocMrp true count size).takes w.allocator = 0 := by
        simp [Call.takes, hcount]
      rw [if_pos (by simp [UInt64.not_le.mp hcount]), htakes]
      rfl
  | _ => exact hkeeps (fun _ _ h => by cases h) fun _ _ _ h => by cases h

end

/-! ## Exact sizes -/

/-- The sizes and the addresses, computed in 64 bits, are those of the natural numbers, where
`carved` are the pieces that the bump pointer carved since the last reset. -/
structure World.SizesExact (w : World P M) (carved : List Extent) : Prop where
  product : (w.config.ringDim * 8).toNat = 8 * w.config.ringDim.toNat
  size : w.allocator.polyBytes.toNat = 8 * w.config.ringDim.toNat
  nonzero : w.config.ringDim ≠ 0 → w.allocator.polyBytes ≠ 0
  /-- The check of a read of components compares the true sizes. -/
  expected : w.allocator.polyBytes < w.config.ringDim * 8 ↔
    w.allocator.polyBytes.toNat < 8 * w.config.ringDim.toNat
  room : w.allocator.nextAddr.toNat + w.allocator.polyBytes.toNat ≤ 2^64 - 1
  /-- The same when each address was handed out. -/
  finish : ∀ e ∈ carved, e.finish ≤ 2^64 - 1
  nonnull : ∀ e ∈ carved, e.1 ≠ .null
  increasing : carved.Pairwise fun e f => e.1.uintptr < f.1.uintptr

/-- The pieces form a chain from the base to the bump pointer, and none is empty. -/
structure World.Carved (w : World P M) (carved : List Extent) : Prop where
  inv : w.Inv
  chain : Extent.Chain kHbmBase carved w.allocator.nextAddr
  nonempty : ∀ e ∈ carved, e.2 ≠ 0

section

variable {F : Fhetch P M} {w : World P M} {carved : List Extent}

/-- A call hands out addresses only of a size. -/
theorem Call.size_of_takes {s : DeviceAllocator} {c : Call} (h : c.takes s ≠ 0) :
    s.polyBytes ≠ 0 := by
  -- A call that takes anything has passed the size check, which refuses a size of zero.
  have hvalid : ∀ size, (s.validatePolySizeLocked size).isOk = true → s.polyBytes ≠ 0 := by
    intro size hok
    rcases hv : s.validatePolySizeLocked size with e | _
    · rw [hv] at hok
      cases hok
    · exact (DeviceAllocator.validate_ok hv).1
  cases c with
  | malloc ptr size =>
    unfold Call.takes at h
    dsimp only at h
    split_ifs at h with hif
    · exact hvalid size (Bool.and_eq_true_iff.mp hif).2
    · exact absurd rfl h
  | mallocMrp ptrs count size =>
    unfold Call.takes at h
    dsimp only at h
    split_ifs at h with hif
    · exact hvalid size (Bool.and_eq_true_iff.mp hif).2
    · exact absurd rfl h
  | _ => exact absurd rfl h

/-- What a call other than a reset carves. -/
theorem Call.carves_eq {c : Call} (hc : c ≠ .deviceReset) (s : DeviceAllocator) :
    c.carves s carved = carved ++ s.pieces (c.takes s) := by
  cases c <;> first | rfl | exact absurd rfl hc

/-- Every call keeps the chain. -/
theorem World.Carved.after (h : w.Carved carved) (i : Invocation P) :
    (w.after F i).Carved (i.call.carves w.allocator carved) := by
  refine ⟨h.inv.after i, ?_, ?_⟩
  -- A reset starts the chain anew; any other call lengthens it by the pieces it takes.
  · by_cases hreset : i.call = .deviceReset
    · rw [World.after, Invocation.run, hreset]
      rfl
    · have hnext : (w.after F i).allocator.nextAddr = _ := nextAddr_run h.inv i.env hreset
      rw [Call.carves_eq hreset, hnext]
      exact h.chain.append (DeviceAllocator.pieces_chain _ _)
  -- No piece is empty: a call that takes anything knows its size.
  · intro e he
    by_cases hreset : i.call = .deviceReset
    · rw [hreset] at he
      exact absurd he List.not_mem_nil
    · rw [Call.carves_eq hreset] at he
      rcases List.mem_append.mp he with he | he
      · exact h.nonempty e he
      · rw [DeviceAllocator.size_pieces he]
        refine Call.size_of_takes (c := i.call) fun hzero => ?_
        rw [hzero] at he
        exact absurd he List.not_mem_nil

/-- Where the arithmetic is exact. -/
theorem World.Carved.sizesExact_iff (h : w.Carved carved) : w.SizesExact carved ↔
    w.config.ringDim.toNat < 2^61 ∧
      kHbmBase.toNat + Extent.totalSize carved + 8 * w.config.ringDim.toNat < 2^64 := by
  -- Both `ring_dim * 8` and the pointer are computed modulo `2^64`.
  have hsize : w.allocator.polyBytes.toNat = 8 * w.config.ringDim.toNat % 2^64 := by
    rw [h.inv.size, UInt64.toNat_mul, Nat.mul_comm]
    rfl
  have hproduct : (w.config.ringDim * 8).toNat = w.allocator.polyBytes.toNat := by rw [h.inv.size]
  constructor
  -- Sizes that are exact leave no room for a wrap of either.
  · intro hs
    have hpoly := hs.size
    have hlt := w.allocator.polyBytes.toNat_lt
    have hroom := hs.room
    have hnext := h.chain.finish_eq fun e he => by
      have := hs.finish e he
      omega
    exact ⟨by omega, by omega⟩
  · rintro ⟨hsmall, hfits⟩
    -- Without a wrap the size is exact, and so the chain ends where the sum says.
    have hpoly : w.allocator.polyBytes.toNat = 8 * w.config.ringDim.toNat := by
      rw [hsize, Nat.mod_eq_of_lt (by omega)]
    have hends := h.chain.ends_lt (by omega)
    have hnext := h.chain.finish_eq fun e he => (hends e he).2
    refine ⟨hproduct.trans hpoly, hpoly, fun hne hzero => hne ?_, ?_, by omega, fun e he => ?_,
      fun e he hnull => ?_, h.chain.increasing (by omega) h.nonempty⟩
    -- The base of the chain is not zero, so none of its pieces starts at the null address.
    · rw [hzero] at hpoly
      refine UInt64.toNat_inj.mp ?_
      change 0 = _ at hpoly
      change _ = 0
      omega
    · rw [UInt64.lt_iff_toNat_lt, hproduct, hpoly]
    · have := (hends e he).2
      omega
    · have hle := (hends e he).1
      rw [hnull] at hle
      exact absurd hle (by decide)

end

/-- After every program, the sizes and the addresses are exact if and only if the ring dimension is
below `2^61`, and the base, the pieces carved since the last reset and one more allocation come to
less than `2^64`. -/
theorem sizes_exact (F : Fhetch P M) (is : List (Invocation P)) :
    let t := is.foldl (carveStep F) (World.init, [])
    t.1.SizesExact t.2 ↔ t.1.config.ringDim.toNat < 2^61 ∧
      kHbmBase.toNat + Extent.totalSize t.2 + 8 * t.1.config.ringDim.toNat < 2^64 := by
  have hrun : ∀ (is : List (Invocation P)) (t : World P M × List Extent), t.1.Carved t.2 →
      (is.foldl (carveStep F) t).1.Carved (is.foldl (carveStep F) t).2 := by
    intro is
    induction is with
    | nil => exact fun t ht => ht
    | cons i is ih => exact fun t ht => ih _ (ht.after i)
  exact (hrun is (World.init, [])
    ⟨World.inv_init, rfl, fun e he => absurd he List.not_mem_nil⟩).sizesExact_iff

/-- At ring dimension `2^61` the size of an allocation is zero. -/
theorem sizes_exact_counterexample :
    let is := scalarProgram [.setRingDimension 0x2000000000000000]
    let t := is.foldl (carveStep scalarRing) (World.init, [])
    (∀ reply ∈ World.replies scalarRing .init is, reply.code = .success) ∧
      t.1.config.ringDim ≠ 0 ∧ t.1.allocator.polyBytes = 0 ∧ ¬ t.1.SizesExact t.2 := by
  refine ⟨by decide +kernel, by decide +kernel, by decide +kernel, fun h => ?_⟩
  exact absurd h.nonzero (by decide +kernel)

end Haze
