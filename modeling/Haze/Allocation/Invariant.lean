import Haze.Core.Allocator
import Mathlib.Data.Finset.Card
import Mathlib.Tactic.Ring

/-!
# The allocator's invariant

Every method of the allocator is a sequence of a few primitive actions (`AllocatorAction`), so an
invariant is checked once for each action. `Sound` says that the free stack and the live set are
disjoint and that only live addresses hold words; it needs no assumption. `Bounded` places every
address below the bump pointer and needs that the pointer does not wrap.

Each method performs actions of its class where their guards hold (`Takes`); the sequences of
operations are in `Operations.lean`.
-/

namespace Haze

/-- A primitive change of the allocator at a fixed size. -/
inductive AllocatorAction where
  | allocateOne
  | freeOne (addr : DevAddr)
  | write (addr : DevAddr) (values : List UInt64)
  | evict (addr : DevAddr)

namespace DeviceAllocator

/-- The effect of an action. -/
def act (s : DeviceAllocator) : AllocatorAction → DeviceAllocator
  | .allocateOne => (allocateOneLocked s).2
  | .freeOne addr => (freeOneLocked addr s).2
  | .write addr values => { s with shadowData := AList.insert addr values s.shadowData }
  | .evict addr => { s with shadowData := AList.erase addr s.shadowData }

/-- Where the allocator's methods take an action: they allocate at a configured size only, and
write words of the configured number to live addresses only. -/
def Guard (s : DeviceAllocator) : AllocatorAction → Prop
  | .allocateOne => s.polyBytes ≠ 0
  | .write addr values => addr ∈ s.allocSet ∧ values.length = s.wantElems
  | _ => True

/-- The invariant that needs no assumption on the bump pointer. -/
structure Sound (s : DeviceAllocator) : Prop where
  /-- No address is pooled twice. -/
  pool_nodup : s.poolFree.Nodup
  /-- No pooled address is live. -/
  pool_dead : ∀ a ∈ s.poolFree, a ∉ s.allocSet
  /-- Only live addresses hold words. -/
  shadow_live : ∀ a ∈ s.shadowData, a ∈ s.allocSet

/-- The addresses that the allocator has handed out and knows of. -/
def Owned (s : DeviceAllocator) (a : DevAddr) : Prop := a ∈ s.allocSet ∨ a ∈ s.poolFree

/-- Every address lies between the base and the bump pointer. -/
structure Bounded (s : DeviceAllocator) : Prop where
  base_le : kHbmBase.toNat ≤ s.nextAddr.toNat
  owned : ∀ a, s.Owned a →
    kHbmBase.toNat ≤ a.uintptr.toNat ∧ a.uintptr.toNat < s.nextAddr.toNat

/-- An action that bumps the pointer leaves it below the end of the address space. -/
def NoWrapAction (s : DeviceAllocator) : AllocatorAction → Prop
  | .allocateOne => s.poolFree = [] → s.nextAddr.toNat + s.polyBytes.toNat < 2^64
  | _ => True

/-- The bytes of all addresses, less the bump pointer. -/
def balance (s : DeviceAllocator) : ℤ :=
  (s.allocSet.card + s.poolFree.length) * (s.polyBytes.toNat : ℤ) - s.nextAddr.toNat

/-! ## What each action does -/

/-- With an address in the pool, that one is allocated. -/
theorem allocateOne_pool {s : DeviceAllocator} {a : DevAddr} {rest : List DevAddr}
    (hp : s.poolFree = a :: rest) (ha : a ∉ s.allocSet) :
    allocateOneLocked s =
      (.ok a, { s with poolFree := rest, allocSet := insert a s.allocSet }) := by
  simp only [allocateOneLocked, hp, if_neg ha]

/-- With an empty pool, the address at the bump pointer is allocated. -/
theorem allocateOne_bump {s : DeviceAllocator} (hp : s.poolFree = []) :
    allocateOneLocked s =
      (.ok ⟨s.nextAddr⟩,
        { s with
          nextAddr := s.nextAddr + s.polyBytes
          allocSet := insert ⟨s.nextAddr⟩ s.allocSet }) := by
  simp only [allocateOneLocked, hp]

/-- The pool is in step with the live set: allocation hands out the top of the pool, or bumps. -/
theorem Sound.allocateOne_cases {s : DeviceAllocator} (h : s.Sound) :
    (∃ a rest, s.poolFree = a :: rest ∧ a ∉ s.allocSet ∧ allocateOneLocked s =
      (.ok a, { s with poolFree := rest, allocSet := insert a s.allocSet })) ∨
    (s.poolFree = [] ∧ allocateOneLocked s =
      (.ok ⟨s.nextAddr⟩,
        { s with
          nextAddr := s.nextAddr + s.polyBytes
          allocSet := insert ⟨s.nextAddr⟩ s.allocSet })) := by
  cases hp : s.poolFree with
  | nil =>
    refine .inr ⟨rfl, ?_⟩
    rw [allocateOne_bump hp, hp]
  | cons a rest =>
    have ha : a ∉ s.allocSet := h.pool_dead a (by rw [hp]; exact List.mem_cons_self ..)
    exact .inl ⟨a, rest, rfl, ha, allocateOne_pool hp ha⟩

/-- Allocation never meets a live address in the pool. -/
theorem Sound.allocateOne_ok {s : DeviceAllocator} (h : s.Sound) :
    ∃ a, allocateOneLocked s = (.ok a, s.act .allocateOne) := by
  rcases h.allocateOne_cases with ⟨a, rest, -, -, he⟩ | ⟨-, he⟩
  · exact ⟨a, by rw [act, he]⟩
  · exact ⟨⟨s.nextAddr⟩, by rw [act, he]⟩

/-- Freeing a live address puts it into the pool and drops its words. -/
theorem freeOne_live {s : DeviceAllocator} {a : DevAddr} (ha : a ∈ s.allocSet) :
    freeOneLocked a s = (.ok (),
      { s with
        allocSet := s.allocSet.erase a
        shadowData := AList.erase a s.shadowData
        poolFree := a :: s.poolFree }) := by
  simp only [freeOneLocked, if_pos ha]

/-- Freeing an address that is not live fails. -/
theorem freeOne_dead {s : DeviceAllocator} {a : DevAddr} (ha : a ∉ s.allocSet) :
    freeOneLocked a s = (.error .unknownAddress, s) := by
  simp only [freeOneLocked, if_neg ha]

/-- A change of size drains the pool; the same size changes nothing. -/
theorem setPolynomialSize_cases (s : DeviceAllocator) (bytes : UInt64) :
    (s.polyBytes = bytes ∧ s.setPolynomialSize bytes = s) ∨
    (s.polyBytes ≠ bytes ∧
      s.setPolynomialSize bytes = { s.clearPoolLocked with polyBytes := bytes }) := by
  by_cases h : s.polyBytes = bytes
  · exact .inl ⟨h, by simp [setPolynomialSize, h]⟩
  · exact .inr ⟨h, by simp [setPolynomialSize, h]⟩

/-! ## The invariant, action by action -/

/-- The empty allocator is sound. -/
theorem sound_init : init.Sound where
  pool_nodup := List.nodup_nil
  pool_dead _ ha := absurd ha List.not_mem_nil
  shadow_live a ha := absurd ha (AList.notMem_empty a)

/-- Allocating keeps soundness. -/
theorem Sound.allocateOne {s : DeviceAllocator} (h : s.Sound) : (s.act .allocateOne).Sound := by
  rcases h.allocateOne_cases with ⟨a, rest, hp, ha, he⟩ | ⟨hp, he⟩
  · have hnodup := h.pool_nodup
    rw [hp, List.nodup_cons] at hnodup
    rw [act, he]
    refine ⟨hnodup.2, fun b hb => ?_, fun b hb => Finset.mem_insert_of_mem (h.shadow_live b hb)⟩
    have hb' : b ∉ s.allocSet := h.pool_dead b (by rw [hp]; exact List.mem_cons_of_mem _ hb)
    rw [Finset.mem_insert, not_or]
    exact ⟨fun hba => hnodup.1 (hba ▸ hb), hb'⟩
  · rw [act, he]
    refine ⟨h.pool_nodup, fun b hb => ?_, fun b hb => Finset.mem_insert_of_mem (h.shadow_live b hb)⟩
    rw [hp] at hb
    exact absurd hb List.not_mem_nil

/-- Freeing keeps soundness. -/
theorem Sound.freeOne {s : DeviceAllocator} (h : s.Sound) (a : DevAddr) :
    (s.act (.freeOne a)).Sound := by
  by_cases ha : a ∈ s.allocSet
  · rw [act, freeOne_live ha]
    refine ⟨List.nodup_cons.mpr ⟨fun hp => h.pool_dead a hp ha, h.pool_nodup⟩, ?_, ?_⟩
    · intro b hb hlive
      rcases List.mem_cons.mp hb with rfl | hb
      · exact absurd rfl (Finset.mem_erase.mp hlive).1
      · exact h.pool_dead b hb (Finset.mem_erase.mp hlive).2
    · intro b hb
      obtain ⟨hba, hb⟩ := AList.mem_erase.mp hb
      exact Finset.mem_erase.mpr ⟨hba, h.shadow_live b hb⟩
  · rw [act, freeOne_dead ha]
    exact h

/-- Changing the size keeps soundness: the pool is emptied. -/
theorem Sound.setPolynomialSize {s : DeviceAllocator} (h : s.Sound) (bytes : UInt64) :
    (s.setPolynomialSize bytes).Sound := by
  rcases s.setPolynomialSize_cases bytes with ⟨-, he⟩ | ⟨-, he⟩
  · rw [he]
    exact h
  · rw [he]
    refine ⟨List.nodup_nil, fun a ha => absurd ha List.not_mem_nil, fun a ha => ?_⟩
    obtain ⟨hpool, ha⟩ := UMap.mem_eraseAll.mp ha
    exact Finset.mem_sdiff.mpr ⟨h.shadow_live a ha, fun hp => hpool (List.mem_toFinset.mp hp)⟩

/-- Every action keeps the invariant. -/
theorem Sound.act {s : DeviceAllocator} (x : AllocatorAction) (hx : s.Guard x) (h : s.Sound) :
    (s.act x).Sound := by
  cases x with
  | allocateOne => exact h.allocateOne
  | freeOne a => exact h.freeOne a
  | write a values =>
    refine ⟨h.pool_nodup, h.pool_dead, fun b hb => ?_⟩
    rcases (AList.mem_insert _).mp hb with rfl | hb
    · exact hx.1
    · exact h.shadow_live b hb
  | evict a =>
    exact ⟨h.pool_nodup, h.pool_dead, fun b hb => h.shadow_live b (AList.mem_erase.mp hb).2⟩

/-- The empty allocator is within its bounds. -/
theorem bounded_init : init.Bounded where
  base_le := Nat.le_refl _
  owned a ha := by
    rcases ha with ha | ha
    · exact absurd ha (Finset.notMem_empty a)
    · exact absurd ha List.not_mem_nil

/-- The bump pointer itself is neither live nor pooled. -/
theorem Bounded.next_fresh {s : DeviceAllocator} (h : s.Bounded) : ¬ s.Owned ⟨s.nextAddr⟩ :=
  fun ho => absurd (h.owned _ ho).2 (Nat.lt_irrefl _)

/-- Owning fewer addresses keeps the bounds. -/
theorem Bounded.of_owned {s t : DeviceAllocator} (h : s.Bounded) (hn : t.nextAddr = s.nextAddr)
    (ho : ∀ a, t.Owned a → s.Owned a) : t.Bounded := by
  refine ⟨hn ▸ h.base_le, fun a ha => ?_⟩
  rw [hn]
  exact h.owned a (ho a ha)

/-- The bump pointer after a bump that does not wrap. -/
theorem toNat_bump {s : DeviceAllocator} (h : s.nextAddr.toNat + s.polyBytes.toNat < 2^64) :
    (s.nextAddr + s.polyBytes).toNat = s.nextAddr.toNat + s.polyBytes.toNat := by
  rw [UInt64.toNat_add, Nat.mod_eq_of_lt h]

/-- A size that is not zero is positive. -/
theorem polyBytes_pos {s : DeviceAllocator} (h : s.polyBytes ≠ 0) : 0 < s.polyBytes.toNat := by
  have : s.polyBytes.toNat ≠ (0 : UInt64).toNat := fun he => h (UInt64.toNat_inj.mp he)
  exact Nat.pos_of_ne_zero this

/-- Allocating without a wrap stays within the bounds. -/
theorem Bounded.allocateOne {s : DeviceAllocator} (hs : s.Sound) (h : s.Bounded)
    (hg : s.Guard .allocateOne) (hw : s.NoWrapAction .allocateOne) :
    (s.act .allocateOne).Bounded := by
  -- From the pool, where the address was owned before, or from the pointer.
  rcases hs.allocateOne_cases with ⟨a, rest, hp, -, he⟩ | ⟨hp, he⟩
  · refine h.of_owned (by rw [act, he]) fun b hb => ?_
    rw [act, he] at hb
    rcases hb with hb | hb
    · rcases Finset.mem_insert.mp hb with rfl | hb
      · exact .inr (by rw [hp]; exact List.mem_cons_self ..)
      · exact .inl hb
    · exact .inr (by rw [hp]; exact List.mem_cons_of_mem _ hb)
  · have hpos := polyBytes_pos hg
    have hbase := h.base_le
    rw [act, he]
    refine ⟨?_, fun b hb => ?_⟩
    · rw [toNat_bump (hw hp)]
      omega
    rw [toNat_bump (hw hp)]
    -- The only new address is the one at the pointer.
    have hcases : b = ⟨s.nextAddr⟩ ∨ s.Owned b := by
      rcases hb with hb | hb
      · rcases Finset.mem_insert.mp hb with rfl | hb
        · exact .inl rfl
        · exact .inr (.inl hb)
      · exact .inr (.inr hb)
    rcases hcases with rfl | hb
    · exact ⟨hbase, Nat.lt_add_of_pos_right hpos⟩
    · have := h.owned b hb
      omega

/-- Every action that does not wrap the bump pointer keeps the bounds. -/
theorem Bounded.act {s : DeviceAllocator} (x : AllocatorAction) (hs : s.Sound) (hx : s.Guard x)
    (hw : s.NoWrapAction x) (h : s.Bounded) : (s.act x).Bounded := by
  cases x with
  | allocateOne => exact h.allocateOne hs hx hw
  | freeOne a =>
    by_cases ha : a ∈ s.allocSet
    · refine h.of_owned (by rw [DeviceAllocator.act, freeOne_live ha]) fun b hb => ?_
      rw [DeviceAllocator.act, freeOne_live ha] at hb
      rcases hb with hb | hb
      · exact .inl (Finset.mem_erase.mp hb).2
      · rcases List.mem_cons.mp hb with rfl | hb
        · exact .inl ha
        · exact .inr hb
    · rw [DeviceAllocator.act, freeOne_dead ha]
      exact h
  | write a values => exact h.of_owned rfl fun b hb => hb
  | evict a => exact h.of_owned rfl fun b hb => hb

/-- Changing the size stays within the bounds. -/
theorem Bounded.setPolynomialSize {s : DeviceAllocator} (h : s.Bounded) (bytes : UInt64) :
    (s.setPolynomialSize bytes).Bounded := by
  rcases s.setPolynomialSize_cases bytes with ⟨-, he⟩ | ⟨-, he⟩
  · rw [he]
    exact h
  · rw [he]
    refine h.of_owned rfl fun b hb => ?_
    rcases hb with hb | hb
    · exact .inl (Finset.mem_sdiff.mp hb).1
    · exact absurd hb List.not_mem_nil

/-- No action changes the size. -/
theorem polyBytes_act (s : DeviceAllocator) (x : AllocatorAction) :
    (s.act x).polyBytes = s.polyBytes := by
  cases x with
  | allocateOne =>
    cases hp : s.poolFree with
    | nil => simp [act, allocateOneLocked, hp]
    | cons a rest => by_cases ha : a ∈ s.allocSet <;> simp [act, allocateOneLocked, hp, ha]
  | freeOne a => by_cases ha : a ∈ s.allocSet <;> simp [act, freeOneLocked, ha]
  | write a values => rfl
  | evict a => rfl

/-- Every action keeps the balance. -/
theorem balance_act {s : DeviceAllocator} (x : AllocatorAction) (hs : s.Sound) (hb : s.Bounded)
    (hw : s.NoWrapAction x) : (s.act x).balance = s.balance := by
  -- A pool entry moves to the live set; a bump adds one size to each side.
  cases x with
  | allocateOne =>
    rcases hs.allocateOne_cases with ⟨a, rest, hp, ha, he⟩ | ⟨hp, he⟩
    · rw [act, he, balance, balance, Finset.card_insert_of_notMem ha, hp, List.length_cons]
      push_cast
      ring
    · have hfresh : (⟨s.nextAddr⟩ : DevAddr) ∉ s.allocSet := fun ha => hb.next_fresh (.inl ha)
      rw [act, he, balance, balance, Finset.card_insert_of_notMem hfresh]
      dsimp only
      rw [toNat_bump (hw hp)]
      push_cast
      ring
  | freeOne a =>
    by_cases ha : a ∈ s.allocSet
    · have hcard := Finset.card_erase_add_one ha
      rw [act, freeOne_live ha, balance, balance, ← hcard, List.length_cons]
      push_cast
      ring
    · rw [act, freeOne_dead ha]
  | write a values => rfl
  | evict a => rfl

/-! ## The methods as actions -/

/-- An action of the class `K` where its guard holds, and where it does not wrap the bump pointer
when `noWrap` asks for that. -/
def Takes (noWrap : Prop) (K : AllocatorAction → Prop) (s : DeviceAllocator) (x : AllocatorAction) :
    Prop :=
  K x ∧ s.Guard x ∧ (noWrap → s.NoWrapAction x)

section Methods

variable {noWrap : Prop} {K : AllocatorAction → Prop} {s : DeviceAllocator}

/-- Freeing one address is one action. -/
theorem freeOne_performs (a : DevAddr) (hK : K (.freeOne a)) :
    Expected.Performs act (Takes noWrap K) (freeOneLocked a) :=
  .of_action (fun _ => .freeOne a) (fun _ => ⟨hK, trivial, fun _ => trivial⟩) fun _ => rfl

/-- Allocating one address is one action. -/
theorem allocateOne_performs (hK : K .allocateOne) (hsize : s.polyBytes ≠ 0)
    (hwrap : noWrap → s.NoWrapAction .allocateOne) :
    Expected.PerformsAt act (Takes noWrap K) allocateOneLocked s :=
  .of_action .allocateOne ⟨hK, hsize, hwrap⟩ rfl

/-- One allocation takes an address from the pool, or moves the bump pointer by the size. -/
theorem allocateOne_advance (s : DeviceAllocator) :
    (s.poolFree = [] ∧ (s.act .allocateOne).poolFree = [] ∧
        (s.act .allocateOne).nextAddr = s.nextAddr + s.polyBytes) ∨
      (s.poolFree.length = (s.act .allocateOne).poolFree.length + 1 ∧
        (s.act .allocateOne).nextAddr = s.nextAddr) := by
  cases hp : s.poolFree with
  | nil => simp [act, allocateOneLocked, hp]
  | cons a rest =>
    by_cases ha : a ∈ s.allocSet <;> simp [act, allocateOneLocked, hp, ha]

/-- The last address that `n` allocations bump to is below the end of the address space. -/
def RoomFor (s : DeviceAllocator) (n : ℕ) : Prop :=
  s.nextAddr.toNat + (n - s.poolFree.length) * s.polyBytes.toNat < 2^64

/-- Room for `n + 1` allocations lets the first one bump, and leaves room for `n` more. -/
theorem RoomFor.advance {n : ℕ} (h : s.RoomFor (n + 1)) :
    s.NoWrapAction .allocateOne ∧ (s.act .allocateOne).RoomFor n := by
  have hsize := polyBytes_act s .allocateOne
  unfold RoomFor at h ⊢
  constructor
  · intro hp
    rw [hp, List.length_nil, Nat.sub_zero, Nat.succ_mul] at h
    omega
  · rcases allocateOne_advance s with ⟨hp, hp', hn⟩ | ⟨hp, hn⟩
    · rw [hp, List.length_nil, Nat.sub_zero, Nat.succ_mul] at h
      rw [hsize, hn, hp', toNat_bump (by omega), List.length_nil, Nat.sub_zero]
      omega
    · rw [hp, Nat.add_sub_add_right] at h
      rw [hsize, hn]
      exact h

/-- A reservation takes its addresses one by one, and gives back what it took when it fails. -/
theorem reserve_performs (hK : K .allocateOne) (hK' : ∀ a, K (.freeOne a)) {n : ℕ}
    {out : List DevAddr} (hsize : s.polyBytes ≠ 0)
    (hroom : noWrap → s.RoomFor n) :
    Expected.PerformsAt act (Takes noWrap K) (reserve n out) s := by
  -- By induction on the batch: a failure frees what was taken, a success goes on.
  induction n generalizing s out with
  | zero => exact .of_unchanged rfl
  | succ n ih =>
    have hone := allocateOne_performs hK hsize fun hw => (hroom hw).advance.1
    refine Expected.PerformsAt.bind (x := Expected.attempt allocateOneLocked) hone ?_
    rintro (e | a) s' hs'
    · exact Expected.Performs.bind
        (Expected.Performs.forEach fun b _ =>
          Expected.Performs.bind (.attempt (freeOne_performs b (hK' b))) fun _ => .pure ())
        (fun _ => .fail e) s'
    · have hs' : s' = s.act .allocateOne := by
        rw [Expected.attempt_run, Prod.mk.injEq] at hs'
        exact hs'.2.symm
      rw [hs']
      refine ih ?_ fun hw => (hroom hw).advance.2
      rw [polyBytes_act]
      exact hsize

/-- Only a configured size passes the check. -/
theorem validate_ok {bytes : UInt64} (h : s.validatePolySizeLocked bytes = .ok ()) :
    s.polyBytes ≠ 0 ∧ bytes = s.polyBytes := by
  unfold validatePolySizeLocked at h
  split_ifs at h with h₁ h₂
  exact ⟨h₁, not_not.mp h₂⟩

/-- `hazeMalloc` takes one address when the size is accepted. -/
theorem allocate_performs (hK : K .allocateOne) {bytes : UInt64}
    (hroom : noWrap → s.validatePolySizeLocked bytes = .ok () → s.RoomFor 1) :
    Expected.PerformsAt act (Takes noWrap K) (allocate bytes) s :=
  Expected.PerformsAt.query_bind fun _ hok =>
    allocateOne_performs hK (validate_ok hok).1 fun hw => (hroom hw hok).advance.1

/-- `hazeMallocMrp` takes its addresses when the size is accepted. -/
theorem allocateMany_performs (hK : K .allocateOne) (hK' : ∀ a, K (.freeOne a)) {count : ℕ}
    {bytes : UInt64}
    (hroom : noWrap → s.validatePolySizeLocked bytes = .ok () → s.RoomFor count) :
    Expected.PerformsAt act (Takes noWrap K) (allocateMany count bytes) s := by
  unfold allocateMany
  split_ifs
  · exact .of_unchanged rfl
  · exact Expected.PerformsAt.query_bind fun _ hok =>
      reserve_performs hK hK' (validate_ok hok).1 fun hw => hroom hw hok

/-- `hazeFree` frees one address. -/
theorem free_performs (a : DevAddr) (hK : K (.freeOne a)) :
    Expected.Performs act (Takes noWrap K) (free a) := by
  unfold free
  split_ifs
  · exact .pure ()
  · exact freeOne_performs a hK

/-- `hazeFreeMrp` frees its addresses one by one. -/
theorem freeMany_performs (addrs : List DevAddr) (hK : ∀ a ∈ addrs, K (.freeOne a)) :
    Expected.Performs act (Takes noWrap K) (freeMany addrs) := by
  suffices h : ∀ first, Expected.Performs act (Takes noWrap K) (freeEach addrs first) from h _
  induction addrs with
  | nil => exact fun first => .query _
  | cons a addrs ih =>
    have ih := ih fun b hb => hK b (List.mem_cons_of_mem _ hb)
    intro first
    unfold freeEach
    split_ifs
    · exact ih first
    · exact .bind (.attempt (freeOne_performs a (hK a (List.mem_cons_self ..)))) fun _ => ih _

/-- Words are sized to the allocation before bytes are written over them. -/
theorem length_sizedShadow (a : DevAddr) : (s.sizedShadow a).length = s.wantElems := by
  unfold sizedShadow
  dsimp only
  split_ifs with h
  · exact List.length_replicate
  · exact not_not.mp h

/-- What passes the range check is a live address and a count within its words. -/
theorem checkRange_ok {a : DevAddr} {count : UInt64} (h : s.checkRange a count = .ok ()) :
    a ∈ s.allocSet ∧ count ≤ s.polyBytes := by
  unfold checkRange at h
  split_ifs at h with h₁ h₂
  exact ⟨h₁, UInt64.not_lt.mp h₂⟩

/-- Bytes that passed the range check leave an address with the words of one allocation. -/
theorem length_written {a : DevAddr} {src : List UInt8} (h : src.length ≤ s.polyBytes.toNat) :
    (Limbs.overwrite src (s.sizedShadow a)).length = s.wantElems := by
  have hwant : s.wantElems = s.polyBytes.toNat / 8 := by
    rw [wantElems, UInt64.toNat_div]
    rfl
  rw [Limbs.length_overwrite, length_sizedShadow]
  rw [length_sizedShadow, hwant]
  omega

/-- A write within the range is one action. -/
theorem write_performs {a : DevAddr} {count : UInt64} {src : List UInt8}
    (hK : ∀ values, K (.write a values)) (hsrc : src.length = count.toNat) :
    Expected.Performs act (Takes noWrap K)
      (Expected.query (checkRange a count) >>= fun _ => Expected.modify (writeShadow a src)) := by
  intro s
  refine Expected.PerformsAt.query_bind fun _ hok => ?_
  obtain ⟨hlive, hcount⟩ := checkRange_ok hok
  refine .of_action (.write a (Limbs.overwrite src (s.sizedShadow a)))
    ⟨hK _, ⟨hlive, length_written ?_⟩, fun _ => trivial⟩ rfl
  rw [hsrc]
  exact UInt64.le_iff_toNat_le.mp hcount

/-- An upload writes the words of one address. -/
theorem copyH2d_performs (dst : DevAddr) (src : Option (List UInt8)) (count : UInt64)
    (hK : ∀ values, K (.write dst values)) :
    Expected.Performs act (Takes noWrap K) (copyH2d dst src count) := by
  cases src with
  | none => exact .fail _
  | some bytes => exact write_performs hK (List.takeD_length ..)

/-- Setting writes the words of one address. -/
theorem memset_performs (addr : DevAddr) (value : ℤ) (count : UInt64)
    (hK : ∀ values, K (.write addr values)) :
    Expected.Performs act (Takes noWrap K) (memset addr value count) :=
  write_performs hK List.length_replicate

/-- What is read back is written to one address. -/
theorem updateShadow_performs (addr : DevAddr) (values : List UInt64)
    (hK : K (.write addr (values.takeD s.wantElems 0))) :
    Expected.PerformsAt act (Takes noWrap K) (updateShadow addr values) s := by
  by_cases h : addr ∈ s.allocSet
  · exact .of_action (.write addr (values.takeD s.wantElems 0))
      ⟨hK, ⟨h, List.takeD_length ..⟩, fun _ => trivial⟩ (by simp only [updateShadow, if_pos h, act])
  · exact .of_unchanged (by simp only [updateShadow, if_neg h])

/-- Reading the components evicts the words of one address. -/
theorem extract_performs (addr : DevAddr) (ringDim : UInt64) (hK : K (.evict addr)) :
    Expected.Performs act (Takes noWrap K) (extractPolynomialComponents addr ringDim) := by
  intro s
  rcases hc : components addr ringDim s with e | values
  · by_cases hm : e = .shadowSizeMismatch
    · subst hm
      exact .of_action (.evict addr) ⟨hK, trivial, fun _ => trivial⟩
        (by simp only [extractPolynomialComponents, hc, act])
    · refine .of_unchanged ?_
      unfold extractPolynomialComponents
      rw [hc]
      cases e <;> first | rfl | exact absurd rfl hm
  · exact .of_action (.evict addr) ⟨hK, trivial, fun _ => trivial⟩
      (by simp only [extractPolynomialComponents, hc, act])

end Methods

end DeviceAllocator

end Haze
