import Haze.Allocation.Arithmetic
import Haze.Allocation.Recycle

/-!
# How much the allocator carves

The allocator hands out what was freed before it carves. Between two changes of size it therefore
owns, live and pooled together, as many addresses as were live at most at one time (`World.peak`),
unless it owned more to begin with, and the bump pointer moves by what is missing of them
(`carves_peak`).
-/

namespace Haze

namespace DeviceAllocator

/-- The number of addresses that are live or pooled. -/
def ownedCount (s : DeviceAllocator) : ℕ := s.allocSet.card + s.poolFree.length

/-- The live addresses are among the owned ones. -/
theorem card_le_ownedCount (s : DeviceAllocator) : s.allocSet.card ≤ s.ownedCount := Nat.le_add_right ..

variable {s : DeviceAllocator}

/-- One allocation owns one more address than were live, unless there are more. -/
theorem Bounded.ownedCount_allocateOne (hs : s.Sound) (h : s.Bounded) :
    (s.act .allocateOne).allocSet.card = s.allocSet.card + 1 ∧
      (s.act .allocateOne).ownedCount = max s.ownedCount (s.allocSet.card + 1) := by
  unfold DeviceAllocator.act ownedCount
  rcases hs.allocateOne_cases with ⟨a, rest, hpool, ha, he⟩ | ⟨hpool, he⟩
  · rw [he, hpool]
    dsimp only
    rw [Finset.card_insert_of_notMem ha, List.length_cons]
    omega
  · have hfresh : (⟨s.nextAddr⟩ : DevAddr) ∉ s.allocSet := fun ha => h.next_fresh (.inl ha)
    rw [he, hpool]
    dsimp only
    rw [Finset.card_insert_of_notMem hfresh, List.length_nil]
    omega

/-- Handing out addresses makes new ones only when none are pooled. -/
theorem Bounded.ownedCount_handed (hs : s.Sound) (h : s.Bounded) (hsize : s.polyBytes ≠ 0) {n : ℕ}
    (hroom : s.RoomFor n) : (s.handed n).ownedCount = max s.ownedCount (s.handed n).allocSet.card := by
  have hall : (s.handed n).allocSet.card = s.allocSet.card + n ∧
      (s.handed n).ownedCount = max s.ownedCount (s.allocSet.card + n) := by
    induction n generalizing s with
    | zero => exact ⟨rfl, (max_eq_left s.card_le_ownedCount).symm⟩
    | succ n ih =>
      obtain ⟨hwrap, hroom⟩ := hroom.advance
      obtain ⟨hcard, hcount⟩ := h.ownedCount_allocateOne hs
      obtain ⟨hcard', hcount'⟩ := ih hs.allocateOne (h.allocateOne hs hsize hwrap)
        (by rwa [polyBytes_act]) hroom
      rw [hcard] at hcard' hcount'
      rw [hcount] at hcount'
      exact ⟨hcard'.trans (by omega), hcount'.trans (by omega)⟩
  rw [hall.2, hall.1]

/-- The addresses that an allocation of a size hands out. -/
theorem Bounded.ownedCount_handed_if (hs : s.Sound) (h : s.Bounded) {bytes : UInt64} {n : ℕ}
    (hroom : s.validatePolySizeLocked bytes = .ok () → s.RoomFor n) :
    let t := s.handed (if (s.validatePolySizeLocked bytes).isOk then n else 0)
    t.ownedCount = max s.ownedCount t.allocSet.card := by
  rcases hv : s.validatePolySizeLocked bytes with e | _
  · exact (max_eq_left s.card_le_ownedCount).symm
  · exact h.ownedCount_handed hs (validate_ok hv).1 (hroom hv)

/-- What is freed stays owned. -/
theorem ownedCount_freeOne (a : DevAddr) : (freeOneLocked a s).2.ownedCount = s.ownedCount := by
  by_cases ha : a ∈ s.allocSet
  · have hpos := Finset.card_pos.mpr ⟨a, ha⟩
    rw [freeOne_live ha]
    unfold ownedCount
    dsimp only
    rw [Finset.card_erase_of_mem ha, List.length_cons]
    omega
  · rw [freeOne_dead ha]

/-- Freeing moves addresses to the pool, and loses none. -/
theorem ownedCount_freeEach (addrs : List DevAddr) (first : Except HazeInternalError Unit) :
    (freeEach addrs first s).2.ownedCount = s.ownedCount := by
  induction addrs generalizing first s with
  | nil => rfl
  | cons a addrs ih =>
    rw [freeEach]
    split_ifs
    · exact ih first
    · rw [Expected.attempt_bind_run]
      exact (ih _).trans (ownedCount_freeOne a)

end DeviceAllocator

open DeviceAllocator

variable {P M : Type} {F : Fhetch P M} {w : World P M}

/-- A call that keeps the size, does not wrap the bump pointer and does not reset owns as many
addresses after as are live then, unless it owned more before. -/
theorem ownedCount_after (hw : w.Inv) (hb : w.allocator.Bounded) {i : Invocation P}
    (hwrap : i.call.NoWrap w.allocator) (hreset : i.call ≠ .deviceReset)
    (hsize : (w.after F i).allocator.polyBytes = w.allocator.polyBytes) :
    (w.after F i).allocator.ownedCount =
      max w.allocator.ownedCount (w.after F i).allocator.allocSet.card ∧
    (w.after F i).allocator.balance = w.allocator.balance := by
  -- A call that keeps the count has at most as many live addresses as it owns.
  have hkept : ∀ t : DeviceAllocator, t.ownedCount = w.allocator.ownedCount →
      t.ownedCount = max w.allocator.ownedCount t.allocSet.card := fun t ht => by
    rw [← ht, max_eq_left t.card_le_ownedCount]
  -- A call without an operation on the allocator keeps the layout.
  rcases layout_after F w i with ⟨halloc, hpool, hnext⟩ | ⟨op, hop, he⟩
  · constructor
    · exact hkept _ (by unfold ownedCount; rw [halloc, hpool])
    · unfold balance
      rw [halloc, hpool, hnext, hsize]
  rw [he] at hsize ⊢
  have hbalance := AllocatorOp.step_balance op (hwrap op hop) ⟨hw.allocator, hb⟩ hsize
  have hroom := hwrap op hop
  -- Only the two mallocs raise the count, and only above what is owned.
  rcases i with ⟨env, call⟩
  cases call with
  | malloc ptr size =>
    cases hop
    refine ⟨?_, hbalance nofun⟩
    have hrun : AllocatorOp.step w.allocator (.allocate size) = _ :=
      (Expected.bind_pure_state _ _ _).trans (allocate_state size w.allocator)
    rw [hrun]
    exact hb.ownedCount_handed_if hw.allocator hroom
  | mallocMrp ptrs count size =>
    cases hop
    refine ⟨?_, hbalance nofun⟩
    have hrun : AllocatorOp.step w.allocator (.allocateMany count.toNat size) = _ :=
      (Expected.bind_pure_state _ _ _).trans (allocateMany_state hw.allocator count.toNat size)
    rw [hrun]
    exact hb.ownedCount_handed_if hw.allocator hroom
  | free ptr =>
    cases hop
    refine ⟨hkept _ ?_, hbalance nofun⟩
    change (DeviceAllocator.free ptr w.allocator).2.ownedCount = _
    unfold DeviceAllocator.free
    split_ifs
    · rfl
    · exact ownedCount_freeOne ptr
  | freeMrp ptrs count =>
    rcases ptrs with _ | ptrs
    · cases hop
    dsimp only [Call.allocatorOp] at hop
    split_ifs at hop
    cases hop
    exact ⟨hkept _ (ownedCount_freeEach _ _), hbalance nofun⟩
  | setRingDimension n =>
    cases hop
    refine ⟨hkept _ ?_, hbalance nofun⟩
    change (w.allocator.setPolynomialSize (n * 8)).polyBytes = _ at hsize
    change (w.allocator.setPolynomialSize (n * 8)).ownedCount = _
    -- A size that changes is excluded, so the setter changes nothing.
    rcases w.allocator.setPolynomialSize_cases (n * 8) with ⟨-, hrun⟩ | ⟨hne, hrun⟩
    · rw [hrun]
    · rw [hrun] at hsize
      exact absurd hsize.symm hne
  | deviceReset => exact absurd rfl hreset
  | _ => cases hop

/-! ## Runs -/

/-- The greatest number of addresses that are live at one time of a program. -/
def World.peak (F : Fhetch P M) : World P M → List (Invocation P) → ℕ
  | w, [] => w.allocator.allocSet.card
  | w, i :: is => max w.allocator.allocSet.card (World.peak F (w.after F i) is)

/-- A call that does not wrap the bump pointer. -/
def Unwrapping (w : World P M) (i : Invocation P) : Prop := i.call.NoWrap w.allocator

/-- A call that neither wraps the bump pointer nor resets, and keeps the size. -/
structure KeepsSize (F : Fhetch P M) (w : World P M) (i : Invocation P) : Prop where
  unwrapping : Unwrapping w i
  noReset : i.call ≠ .deviceReset
  polyBytes : (w.after F i).allocator.polyBytes = w.allocator.polyBytes

/-- A run that keeps the size owns as many addresses at its end as were live at one time, unless it
owned more at its start. -/
theorem ownedCount_runAll (hw : w.Inv) (hb : w.allocator.Bounded) {is : List (Invocation P)}
    (his : Expected.Along (World.after F) (KeepsSize F) w is) :
    let v := World.runAll F w is
    v.allocator.ownedCount = max w.allocator.ownedCount (World.peak F w is) ∧
      v.allocator.balance = w.allocator.balance ∧
      v.allocator.polyBytes = w.allocator.polyBytes := by
  -- By induction on the run, with the balance and the size carried along.
  induction is generalizing w with
  | nil => exact ⟨(max_eq_left w.allocator.card_le_ownedCount).symm, rfl, rfl⟩
  | cons i is ih =>
    obtain ⟨hi, his⟩ := his
    obtain ⟨hcount, hbalance⟩ := ownedCount_after hw hb hi.unwrapping hi.noReset hi.polyBytes
    obtain ⟨hcount', hbalance', hsize⟩ := ih (hw.after i) (bounded_after hw hb hi.unwrapping) his
    refine ⟨?_, hbalance'.trans hbalance, hsize.trans hi.polyBytes⟩
    -- The peak of the rest counts the state it starts from.
    have hpeak : (w.after F i).allocator.allocSet.card ≤ World.peak F (w.after F i) is := by
      cases is with
      | nil => exact Nat.le_refl _
      | cons j js => exact Nat.le_max_left ..
    have hlive := w.allocator.card_le_ownedCount
    change (World.runAll F (w.after F i) is).allocator.ownedCount =
      max w.allocator.ownedCount (max _ (World.peak F (w.after F i) is))
    rw [hcount', hcount]
    omega

/-- Between two changes of size the bump pointer moves only for addresses that are missing at the
time when the most are live. -/
theorem carves_peak (F : Fhetch P M) {before is : List (Invocation P)}
    (hbefore : Expected.Along (World.after F) Unwrapping .init before)
    (his : Expected.Along (World.after F) (KeepsSize F) (World.runAll F .init before) is) :
    let w := World.runAll F .init before
    let v := World.runAll F w is
    v.allocator.nextAddr.toNat = w.allocator.nextAddr.toNat +
      (World.peak F w is - (w.allocator.allocSet.card + w.allocator.poolFree.length)) *
        w.allocator.polyBytes.toNat := by
  intro w v
  -- The part of the run before keeps the pointer above what is owned.
  obtain ⟨hw, hb⟩ : w.Inv ∧ w.allocator.Bounded :=
    hbefore.invariant (I := fun w => w.Inv ∧ w.allocator.Bounded)
      (fun w i hi h => ⟨h.1.after i, bounded_after h.1 h.2 hi⟩)
      ⟨World.inv_init, DeviceAllocator.bounded_init⟩
  obtain ⟨hcount, hbalance, hsize⟩ := ownedCount_runAll hw hb his
  change v.allocator.ownedCount = max w.allocator.ownedCount (World.peak F w is) at hcount
  change v.allocator.balance = w.allocator.balance at hbalance
  change v.allocator.polyBytes = w.allocator.polyBytes at hsize
  -- What the second part adds is the excess of its peak over what was owned.
  have hv : v.allocator.allocSet.card + v.allocator.poolFree.length =
      (w.allocator.allocSet.card + w.allocator.poolFree.length) +
        (World.peak F w is - (w.allocator.allocSet.card + w.allocator.poolFree.length)) := by
    have : v.allocator.ownedCount = w.allocator.ownedCount +
        (World.peak F w is - w.allocator.ownedCount) := by omega
    exact this
  unfold DeviceAllocator.balance at hbalance
  rw [hsize, ← Nat.cast_add, hv, ← Nat.cast_add, Nat.cast_add] at hbalance
  rw [add_mul, ← Nat.cast_mul, ← Nat.cast_mul] at hbalance
  omega

/-- Two addresses that are live one after the other are one piece. -/
theorem carves_peak_example :
    (World.runAll scalarRing .init (scalarProgram [.setRingDimension 1] ++
      scalarProgram [.malloc true 8, .free ⟨kHbmBase⟩, .malloc true 8])).allocator.nextAddr.toNat =
        kHbmBase.toNat + 8 := by
  -- The setter comes first, and the two mallocs and the free between them keep the size.
  have hbefore : Expected.Along (World.after scalarRing) Unwrapping .init
      (scalarProgram [.setRingDimension 1]) := by
    refine ⟨?_, trivial⟩
    rintro op ⟨⟩
    trivial
  have hsize : Expected.Along (World.after scalarRing) (KeepsSize scalarRing)
      (World.runAll scalarRing .init (scalarProgram [.setRingDimension 1]))
      (scalarProgram [.malloc true 8, .free ⟨kHbmBase⟩, .malloc true 8]) := by
    refine ⟨⟨?_, nofun, rfl⟩, ⟨?_, nofun, rfl⟩, ⟨?_, nofun, rfl⟩, trivial⟩
    · rintro op ⟨⟩ _
      unfold DeviceAllocator.RoomFor
      decide +kernel
    · rintro op ⟨⟩
      trivial
    · rintro op ⟨⟩ _
      unfold DeviceAllocator.RoomFor
      decide +kernel
  rw [World.runAll, List.foldl_append]
  exact (carves_peak scalarRing hbefore hsize).trans (by decide +kernel)

end Haze
