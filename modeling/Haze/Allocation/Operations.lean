import Haze.Allocation.Invariant

/-!
# Sequences of allocator operations

The operations of the allocator as they are called, with arbitrary arguments. Each performs
primitive actions where their guards hold, so the invariants of `Invariant.lean` hold after every
sequence of operations; and where they hold, no operation reports a desynchronized pool.
-/

namespace Haze

/-- An operation of the allocator with its arguments. -/
inductive AllocatorOp where
  | allocate (bytes : UInt64)
  | allocateMany (count : ℕ) (bytes : UInt64)
  | free (addr : DevAddr)
  | freeMany (addrs : List DevAddr)
  | copyH2d (dst : DevAddr) (src : Option (List UInt8)) (count : UInt64)
  | memset (addr : DevAddr) (value : ℤ) (count : UInt64)
  | updateShadow (addr : DevAddr) (values : List UInt64)
  | extract (addr : DevAddr) (ringDim : UInt64)
  | setPolynomialSize (bytes : UInt64)
  | reset

namespace AllocatorOp

open DeviceAllocator

/-- The effect of an operation; the values that it returns are dropped. -/
def run : AllocatorOp → DeviceAllocator.Method Unit
  | .allocate bytes => DeviceAllocator.allocate bytes >>= fun _ => pure ()
  | .allocateMany count bytes => DeviceAllocator.allocateMany count bytes >>= fun _ => pure ()
  | .free addr => DeviceAllocator.free addr
  | .freeMany addrs => DeviceAllocator.freeMany addrs
  | .copyH2d dst src count => DeviceAllocator.copyH2d dst src count
  | .memset addr value count => DeviceAllocator.memset addr value count
  | .updateShadow addr values => DeviceAllocator.updateShadow addr values
  | .extract addr ringDim => extractPolynomialComponents addr ringDim >>= fun _ => pure ()
  | .setPolynomialSize bytes => Expected.modify (DeviceAllocator.setPolynomialSize bytes)
  | .reset => Expected.modify fun _ => DeviceAllocator.init

/-- The allocator after an operation. -/
def step (s : DeviceAllocator) (op : AllocatorOp) : DeviceAllocator := (op.run s).2

/-- The allocator after a sequence of operations. -/
def runAll (s : DeviceAllocator) (ops : List AllocatorOp) : DeviceAllocator := ops.foldl step s

/-- An operation that allocates leaves the bump pointer below the end of the address space. -/
def NoWrap (s : DeviceAllocator) : AllocatorOp → Prop
  | .allocate bytes => s.validatePolySizeLocked bytes = .ok () → s.RoomFor 1
  | .allocateMany count bytes => s.validatePolySizeLocked bytes = .ok () → s.RoomFor count
  | _ => True

/-- The actions that are taken where they do not wrap the bump pointer. -/
def Unwrapped : DeviceAllocator → AllocatorAction → Prop := Takes True fun _ => True

/-- Every operation that does not wrap the bump pointer performs actions where their guards hold, or
sets the size, or resets. -/
theorem performs {s : DeviceAllocator} (op : AllocatorOp) (h : NoWrap s op) :
    Expected.PerformsAt act Unwrapped op.run s ∨
      (∃ bytes, step s op = s.setPolynomialSize bytes) ∨ op = .reset := by
  cases op with
  | allocate bytes =>
    exact .inl ((allocate_performs trivial fun _ => h).bind fun _ _ _ => .of_unchanged rfl)
  | allocateMany count bytes =>
    exact .inl ((allocateMany_performs trivial (fun _ => trivial) fun _ => h).bind
      fun _ _ _ => .of_unchanged rfl)
  | free addr => exact .inl (free_performs addr trivial s)
  | freeMany addrs => exact .inl (freeMany_performs addrs (fun _ _ => trivial) s)
  | copyH2d dst src count => exact .inl (copyH2d_performs dst src count (fun _ => trivial) s)
  | memset addr value count => exact .inl (memset_performs addr value count (fun _ => trivial) s)
  | updateShadow addr values => exact .inl (updateShadow_performs addr values trivial)
  | extract addr ringDim =>
    exact .inl ((extract_performs addr ringDim trivial s).bind fun _ _ _ => .of_unchanged rfl)
  | setPolynomialSize bytes => exact .inr (.inl ⟨bytes, rfl⟩)
  | reset => exact .inr (.inr rfl)

/-- Every operation keeps the invariant and the bounds when it does not wrap the bump pointer. -/
theorem step_invariant {s : DeviceAllocator} (op : AllocatorOp) (hw : NoWrap s op)
    (hI : s.Sound ∧ s.Bounded) : (step s op).Sound ∧ (step s op).Bounded := by
  rcases performs op hw with h | ⟨bytes, he⟩ | rfl
  · exact h.preserves (I := fun s => s.Sound ∧ s.Bounded)
      (fun s x hx hI => ⟨hI.1.act x hx.2.1, hI.2.act x hI.1 hx.2.1 (hx.2.2 trivial)⟩) hI
  · rw [he]
    exact ⟨hI.1.setPolynomialSize bytes, hI.2.setPolynomialSize bytes⟩
  · exact ⟨sound_init, bounded_init⟩

/-- An operation that keeps the size and is no reset keeps the balance. -/
theorem step_balance {s : DeviceAllocator} (op : AllocatorOp) (hw : NoWrap s op)
    (hI : s.Sound ∧ s.Bounded) (hsize : (step s op).polyBytes = s.polyBytes) (hreset : op ≠ .reset) :
    (step s op).balance = s.balance := by
  rcases performs op hw with h | ⟨bytes, he⟩ | rfl
  · refine (h.preserves (I := fun t => (t.Sound ∧ t.Bounded) ∧ t.balance = s.balance)
      (fun t x hx hI => ⟨⟨hI.1.1.act x hx.2.1, hI.1.2.act x hI.1.1 hx.2.1 (hx.2.2 trivial)⟩, ?_⟩)
      ⟨hI, rfl⟩).2
    rw [balance_act x hI.1.1 hI.1.2 (hx.2.2 trivial), hI.2]
  · rcases s.setPolynomialSize_cases bytes with ⟨-, he'⟩ | ⟨hne, he'⟩
    · rw [he, he']
    · rw [he, he'] at hsize
      exact absurd hsize.symm hne
  · exact absurd rfl hreset

/-! ## No operation reports a desynchronized pool -/

/-- Where the invariant holds a batch is reserved whole. -/
theorem reserve_ok {s : DeviceAllocator} (hs : s.Sound) (n : ℕ) (out : List DevAddr) :
    ∃ addrs, (reserve n out s).1 = .ok addrs := by
  induction n generalizing s out with
  | zero => exact ⟨out, rfl⟩
  | succ n ih =>
    obtain ⟨a, ha⟩ := hs.allocateOne_ok
    obtain ⟨addrs, haddrs⟩ := ih hs.allocateOne (out ++ [a])
    refine ⟨addrs, ?_⟩
    rw [reserve, Expected.attempt_bind_run, ha]
    exact haddrs

/-- A success is no desynchronization. -/
theorem ok_ne_desync {α : Type} {a : α} :
    (Except.ok a : Except HazeInternalError α) ≠ .error .poolMapDesync := by
  simp

/-- No other error is a desynchronization. -/
theorem error_ne_desync {α : Type} {e : HazeInternalError} (he : e ≠ .poolMapDesync) :
    (Except.error e : Except HazeInternalError α) ≠ .error .poolMapDesync :=
  fun h => he (Except.error.inj h)

/-- Freeing one address reports none. -/
theorem freeOne_ne_desync (a : DevAddr) (s : DeviceAllocator) :
    (freeOneLocked a s).1 ≠ .error .poolMapDesync := by
  unfold freeOneLocked
  split_ifs <;> first | exact ok_ne_desync | exact error_ne_desync (by decide)

/-- Checking the size reports none. -/
theorem validate_ne_desync (bytes : UInt64) (s : DeviceAllocator) :
    s.validatePolySizeLocked bytes ≠ .error .poolMapDesync := by
  unfold validatePolySizeLocked
  split_ifs <;> first | exact ok_ne_desync | exact error_ne_desync (by decide)

/-- Checking the range reports none. -/
theorem checkRange_ne_desync (a : DevAddr) (count : UInt64) (s : DeviceAllocator) :
    s.checkRange a count ≠ .error .poolMapDesync := by
  unfold checkRange
  split_ifs <;> first | exact ok_ne_desync | exact error_ne_desync (by decide)

/-- Reading components reports none. -/
theorem extract_ne_desync (a : DevAddr) (ringDim : UInt64) (s : DeviceAllocator) :
    (extractPolynomialComponents a ringDim s).1 ≠ .error .poolMapDesync := by
  have hc : components a ringDim s ≠ .error .poolMapDesync := by
    unfold components
    cases s.shadow a <;> dsimp only <;> split_ifs <;>
      first | exact ok_ne_desync | exact error_ne_desync (by decide)
  unfold extractPolynomialComponents
  split
  · exact ok_ne_desync
  · exact error_ne_desync (by decide)
  · rename_i e _ he
    exact fun h => hc (he.trans (congrArg _ (Except.error.inj h)))

/-- Freeing a list reports none, unless one was to be reported already. -/
theorem freeEach_ne_desync (addrs : List DevAddr) (first : Except HazeInternalError Unit)
    (hfirst : first ≠ .error .poolMapDesync) (s : DeviceAllocator) :
    (freeEach addrs first s).1 ≠ .error .poolMapDesync := by
  induction addrs generalizing first s with
  | nil => exact hfirst
  | cons a addrs ih =>
    unfold freeEach
    split_ifs with hnull
    · exact ih first hfirst s
    · rw [Expected.attempt_bind_run]
      refine ih _ ?_ _
      cases first with
      | error e => exact hfirst
      | ok u => exact freeOne_ne_desync a s

/-- Where the invariant holds no operation finds a live address in the pool. -/
theorem run_ne_desync {s : DeviceAllocator} (hs : s.Sound) (op : AllocatorOp) :
    (op.run s).1 ≠ .error .poolMapDesync := by
  -- In a sound state the pool and the live set are disjoint, so only the operation's own checks can
  -- fail.
  cases op with
  | allocate bytes =>
    refine Expected.bind_ne_error ?_ fun _ _ _ => ok_ne_desync
    refine Expected.bind_ne_error (validate_ne_desync bytes s) fun _ s' hs' => ?_
    obtain ⟨a, ha⟩ := hs.allocateOne_ok
    rw [← (Prod.mk.inj hs').2, ha]
    exact ok_ne_desync
  | allocateMany count bytes =>
    refine Expected.bind_ne_error ?_ fun _ _ _ => ok_ne_desync
    unfold DeviceAllocator.allocateMany
    split_ifs
    · exact ok_ne_desync
    refine Expected.bind_ne_error (validate_ne_desync bytes s) fun _ s' hs' => ?_
    obtain ⟨addrs, haddrs⟩ := reserve_ok hs count []
    rw [← (Prod.mk.inj hs').2, haddrs]
    exact ok_ne_desync
  | free addr =>
    rw [run, DeviceAllocator.free]
    split_ifs
    · exact ok_ne_desync
    · exact freeOne_ne_desync addr s
  | freeMany addrs =>
    rw [run, DeviceAllocator.freeMany]
    exact freeEach_ne_desync addrs (.ok ()) ok_ne_desync s
  | copyH2d dst src count =>
    cases src with
    | none => exact error_ne_desync (by decide)
    | some bytes =>
      exact Expected.bind_ne_error (checkRange_ne_desync dst count s) fun _ _ _ => ok_ne_desync
  | memset addr value count =>
    exact Expected.bind_ne_error (checkRange_ne_desync addr count s) fun _ _ _ => ok_ne_desync
  | updateShadow addr values =>
    rw [run, DeviceAllocator.updateShadow]
    split_ifs <;> first | exact ok_ne_desync | exact error_ne_desync (by decide)
  | extract addr ringDim =>
    exact Expected.bind_ne_error (extract_ne_desync addr ringDim s) fun _ _ _ => ok_ne_desync
  | setPolynomialSize bytes => exact ok_ne_desync
  | reset => exact ok_ne_desync

end AllocatorOp

open AllocatorOp in
/-- The representation invariant. After every sequence of operations in which the bump pointer does
not wrap: the pool has no duplicates and no live address, only live addresses hold words, every
address lies between the base and the bump pointer, and the bump pointer itself is fresh. No next
operation reports a desynchronized pool. Over every further stretch that keeps the size and has no
reset, the bytes of all addresses less the bump pointer stay what they are. -/
theorem allocator_representation (ops : List AllocatorOp)
    (h : Expected.Along step NoWrap DeviceAllocator.init ops) :
    (runAll .init ops).Sound ∧ (runAll .init ops).Bounded ∧
      ¬ (runAll .init ops).Owned ⟨(runAll .init ops).nextAddr⟩ ∧
      (∀ op : AllocatorOp, (op.run (runAll .init ops)).1 ≠ .error .poolMapDesync) ∧
      ∀ more : List AllocatorOp,
        Expected.Along step
          (fun t op => NoWrap t op ∧ (step t op).polyBytes = t.polyBytes ∧ op ≠ .reset)
          (runAll .init ops) more →
        (runAll (runAll .init ops) more).balance = (runAll .init ops).balance := by
  have hI : (runAll .init ops).Sound ∧ (runAll .init ops).Bounded :=
    h.invariant (I := fun s => s.Sound ∧ s.Bounded)
      (fun s op hw hI => step_invariant op hw hI)
      ⟨DeviceAllocator.sound_init, DeviceAllocator.bounded_init⟩
  generalize runAll .init ops = s at hI ⊢
  refine ⟨hI.1, hI.2, hI.2.next_fresh, run_ne_desync hI.1, fun more hmore => ?_⟩
  refine (hmore.invariant (I := fun t => (t.Sound ∧ t.Bounded) ∧ t.balance = s.balance)
    (fun t op hop ht => ⟨step_invariant op hop.1 ht.1, ?_⟩) ⟨hI, rfl⟩).2
  rw [step_balance op hop.1 ht.1 hop.2.1 hop.2.2, ht.2]

/-- Two allocations, a free, an allocation that recycles, and a stretch of two more operations. -/
theorem allocator_representation_example :
    (AllocatorOp.runAll .init [.setPolynomialSize 8, .allocateMany 2 8, .free ⟨kHbmBase⟩]).balance =
      (AllocatorOp.runAll (AllocatorOp.runAll .init
        [.setPolynomialSize 8, .allocateMany 2 8, .free ⟨kHbmBase⟩])
        [.allocate 8, .memset ⟨kHbmBase⟩ 1 8]).balance :=
  ((allocator_representation [.setPolynomialSize 8, .allocateMany 2 8, .free ⟨kHbmBase⟩]
    ⟨trivial, fun _ => by unfold DeviceAllocator.RoomFor; decide, trivial, trivial⟩).2.2.2.2
    [.allocate 8, .memset ⟨kHbmBase⟩ 1 8]
    ⟨⟨fun _ => by unfold DeviceAllocator.RoomFor; decide, by decide, AllocatorOp.noConfusion⟩,
      ⟨trivial, by decide, AllocatorOp.noConfusion⟩, trivial⟩).symm

end Haze
