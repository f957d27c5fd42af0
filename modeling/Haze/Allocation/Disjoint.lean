import Haze.Core.ScalarRing
import Haze.Runtime.Invariant

/-!
# Live allocations

The allocations that a program was handed and did not free, each with the size that it asked for,
and the pieces that the bump pointer carved off the address space. `Tracks` ties them to the
allocator: every allocation lies in the piece carved at its address, and the pieces are apart.

A change of the ring dimension drops the pooled addresses and keeps the live ones, so an address of
an old size may be freed and handed out again at a larger size. `allocations_disjoint` says that the
allocations are disjoint as long as no address is handed out again at more than the size that was
carved at it, and the bump pointer does not wrap.
-/

namespace Haze

/-- An address with a size in bytes. -/
abbrev Extent : Type := DevAddr × UInt64

namespace Extent

/-- The addresses of an extent, in 64-bit arithmetic. -/
def Covers (e : Extent) (x : UInt64) : Prop := x - e.1.uintptr < e.2

/-- The extents share no address. -/
def Disjoint (e f : Extent) : Prop := ∀ x, ¬ (e.Covers x ∧ f.Covers x)

/-- The address after an extent, which may be past the end of the address space. -/
def finish (e : Extent) : ℕ := e.1.uintptr.toNat + e.2.toNat

/-- One extent ends before the other starts. -/
def Apart (e f : Extent) : Prop :=
  e.finish ≤ f.1.uintptr.toNat ∨ f.finish ≤ e.1.uintptr.toNat

/-- The addresses of an extent that does not wrap. -/
theorem covers_iff {e : Extent} (h : e.finish ≤ 2^64) {x : UInt64} :
    e.Covers x ↔ e.1.uintptr.toNat ≤ x.toNat ∧ x.toNat < e.finish := by
  unfold Covers finish at *
  rw [UInt64.lt_iff_toNat_lt, UInt64.toNat_sub]
  have hx := x.toNat_lt
  have ha := e.1.uintptr.toNat_lt
  have hs := e.2.toNat_lt
  omega

/-- Extents that lie in extents apart are disjoint. -/
theorem Apart.disjoint {c d e f : Extent} (h : c.Apart d) (hc : c.finish ≤ 2^64)
    (hd : d.finish ≤ 2^64) (he : e.1 = c.1 ∧ e.2 ≤ c.2) (hf : f.1 = d.1 ∧ f.2 ≤ d.2) :
    e.Disjoint f := by
  rintro x ⟨hx, hx'⟩
  have he₂ := UInt64.le_iff_toNat_le.mp he.2
  have hf₂ := UInt64.le_iff_toNat_le.mp hf.2
  unfold Apart finish at *
  rw [covers_iff (by unfold finish; rw [he.1]; omega)] at hx
  rw [covers_iff (by unfold finish; rw [hf.1]; omega)] at hx'
  unfold finish at hx hx'
  rw [he.1] at hx
  rw [hf.1] at hx'
  omega

instance : Std.Symm Apart := ⟨fun _ _ => Or.symm⟩

end Extent

/-! ## The allocations of an allocator -/

/-- The allocations handed out and not freed, with the sizes asked for, and the pieces carved. -/
structure Ledger where
  live : List Extent := []
  carved : List Extent := []

namespace DeviceAllocator

/-- The ledger after `addrs` were handed out by an allocator that was in state `s`. -/
def handOut (s : DeviceAllocator) (addrs : List DevAddr) (l : Ledger) : Ledger where
  live := l.live ++ addrs.map (·, s.polyBytes)
  carved := l.carved ++ (addrs.filter (· ∉ s.poolFree)).map (·, s.polyBytes)

/-- Every allocation lies in the piece carved at its address, and the pieces are apart and below the
bump pointer. -/
structure Tracks (s : DeviceAllocator) (l : Ledger) : Prop where
  bounded : s.Bounded
  below : ∀ c ∈ l.carved, c.finish ≤ s.nextAddr.toNat
  apart : l.carved.Pairwise Extent.Apart
  allocated : ∀ e ∈ l.live, e.1 ∈ s.allocSet
  nodup : (l.live.map Prod.fst).Nodup
  contained : ∀ e ∈ l.live, ∃ c ∈ l.carved, e.1 = c.1 ∧ e.2 ≤ c.2

/-- There is room for `n` allocations: the bump pointer does not wrap, and every address that is
taken from the pool has a piece of the size. -/
structure Fits (s : DeviceAllocator) (l : Ledger) (n : ℕ) : Prop where
  room : s.RoomFor n
  carved : ∀ a ∈ s.poolFree.take n, ∃ c ∈ l.carved, a = c.1 ∧ s.polyBytes ≤ c.2

variable {s : DeviceAllocator} {l : Ledger}

/-- Tracked allocations are pairwise disjoint. -/
theorem Tracks.disjoint (h : s.Tracks l) : l.live.Pairwise Extent.Disjoint := by
  have hlt := s.nextAddr.toNat_lt
  have hne : l.live.Pairwise fun e f => e.1 ≠ f.1 := List.pairwise_map.mp h.nodup
  refine hne.imp_of_mem fun {e f} he hf hef => ?_
  obtain ⟨c, hc, hec⟩ := h.contained e he
  obtain ⟨d, hd, hfd⟩ := h.contained f hf
  have hcd : c ≠ d := fun heq => hef (by rw [hec.1, hfd.1, heq])
  refine (h.apart.forall hc hd hcd).disjoint ?_ ?_ hec hfd
  · exact (h.below c hc).trans (Nat.le_of_lt hlt)
  · exact (h.below d hd).trans (Nat.le_of_lt hlt)

/-- What `Tracks` says is about the live addresses, the pool and the bump pointer only. -/
theorem Tracks.of_layout {t : DeviceAllocator} (h : s.Tracks l) (halloc : t.allocSet = s.allocSet)
    (hpool : ∀ a ∈ t.poolFree, a ∈ s.poolFree) (hnext : t.nextAddr = s.nextAddr) : t.Tracks l where
  bounded := h.bounded.of_owned hnext fun a ha => ha.imp (fun ha => halloc ▸ ha) (hpool a)
  below := hnext ▸ h.below
  apart := h.apart
  allocated := halloc ▸ h.allocated
  nodup := h.nodup
  contained := h.contained

/-- One more allocation, in a piece that was carved before or is carved now. -/
theorem Tracks.extend {t : DeviceAllocator} (h : s.Tracks l) (hbounded : t.Bounded) {a : DevAddr}
    {size : UInt64} (ha : a ∉ s.allocSet) (halloc : t.allocSet = insert a s.allocSet)
    {carved : List Extent} (hbelow : ∀ c ∈ carved, c.finish ≤ t.nextAddr.toNat)
    (hapart : carved.Pairwise Extent.Apart) (hkept : ∀ c ∈ l.carved, c ∈ carved)
    (hcarved : ∃ c ∈ carved, a = c.1 ∧ size ≤ c.2) :
    t.Tracks ⟨l.live ++ [(a, size)], carved⟩ where
  bounded := hbounded
  -- The new entry is the last one of the ledger; the others were contained before.
  below := hbelow
  apart := hapart
  allocated e he := by
    rw [halloc]
    rcases List.mem_append.mp he with he | he
    · exact Finset.mem_insert_of_mem (h.allocated e he)
    · rw [List.mem_singleton.mp he]
      exact Finset.mem_insert_self ..
  nodup := by
    rw [List.map_append, List.map_singleton]
    refine List.nodup_append.mpr ⟨h.nodup, List.nodup_singleton a, fun x hx y hy hxy => ha ?_⟩
    obtain ⟨e, he, rfl⟩ := List.mem_map.mp hx
    have hya : y = a := List.mem_singleton.mp hy
    rw [← hya, ← hxy]
    exact h.allocated e he
  contained e he := by
    rcases List.mem_append.mp he with he | he
    · obtain ⟨c, hc, hec⟩ := h.contained e he
      exact ⟨c, hkept c hc, hec⟩
    · rw [List.mem_singleton.mp he]
      exact hcarved

/-- One allocation is tracked, and leaves room for one less. -/
theorem Tracks.allocateOne {n : ℕ} (hs : s.Sound) (h : s.Tracks l) (hsize : s.polyBytes ≠ 0)
    (hfits : s.Fits l (n + 1)) :
    ∃ a, allocateOneLocked s = (.ok a, s.act .allocateOne) ∧ a ∉ s.allocSet ∧
      a ∈ (s.act .allocateOne).allocSet ∧
      (∀ b ≠ a, b ∈ (s.act .allocateOne).poolFree ↔ b ∈ s.poolFree) ∧
      (s.act .allocateOne).Tracks (s.handOut [a] l) ∧
      (s.act .allocateOne).Fits (s.handOut [a] l) n := by
  obtain ⟨hwrap, hroom⟩ := hfits.room.advance
  have hbounded := h.bounded.allocateOne hs hsize hwrap
  have hpolyBytes := polyBytes_act s .allocateOne
  -- The address comes from the pool, inside an extent carved before, or from the pointer.
  rcases hs.allocateOne_cases with ⟨a, rest, hp, ha, he⟩ | ⟨hp, he⟩
  · have hact : s.act .allocateOne = { s with poolFree := rest, allocSet := insert a s.allocSet } := by
      rw [act, he]
    have hmem : a ∈ s.poolFree := by rw [hp]; exact List.mem_cons_self ..
    have hout : s.handOut [a] l = ⟨l.live ++ [(a, s.polyBytes)], l.carved⟩ := by
      simp [handOut, hmem]
    refine ⟨a, by rw [he, hact], ha, ?_, fun b hb => ?_, ?_, ⟨hroom, fun b hb => ?_⟩⟩
    · rw [hact]
      exact Finset.mem_insert_self ..
    · rw [hact, hp, List.mem_cons]
      exact (or_iff_right hb).symm
    · rw [hout]
      refine h.extend hbounded ha (by rw [hact]) ?_ h.apart (fun c hc => hc) ?_
      · rw [hact]
        exact h.below
      · refine hfits.carved a ?_
        rw [hp]
        exact List.mem_cons_self ..
    · rw [hout, hpolyBytes]
      refine hfits.carved b ?_
      rw [hact] at hb
      rw [hp]
      exact List.mem_cons_of_mem _ hb
  · have hact : s.act .allocateOne = { s with
        nextAddr := s.nextAddr + s.polyBytes, allocSet := insert ⟨s.nextAddr⟩ s.allocSet } := by
      rw [act, he]
    have hnext := toNat_bump (hwrap hp)
    have hout : s.handOut [⟨s.nextAddr⟩] l = ⟨l.live ++ [(⟨s.nextAddr⟩, s.polyBytes)],
        l.carved ++ [(⟨s.nextAddr⟩, s.polyBytes)]⟩ := by
      simp [handOut, hp]
    -- The bump carves a new extent, above every one there is.
    have hfresh : (⟨s.nextAddr⟩ : DevAddr) ∉ s.allocSet := fun ha => h.bounded.next_fresh (.inl ha)
    refine ⟨⟨s.nextAddr⟩, by rw [he, hact], hfresh, ?_, fun b hb => ?_, ?_, ⟨hroom, fun b hb => ?_⟩⟩
    · rw [hact]
      exact Finset.mem_insert_self ..
    · rw [hact]
    · rw [hout]
      refine h.extend hbounded hfresh (by rw [hact]) (fun c hc => ?_) ?_
        (fun c hc => List.mem_append_left _ hc)
        ⟨_, List.mem_append_right _ (List.mem_singleton_self _), rfl, UInt64.le_refl _⟩
      · rw [hact]
        dsimp only
        rw [hnext]
        rcases List.mem_append.mp hc with hc | hc
        · have := h.below c hc
          omega
        · rw [List.mem_singleton.mp hc]
          exact Nat.le_refl _
      -- It lies above the others, so it is apart from each.
      · refine List.pairwise_append.mpr ⟨h.apart, List.pairwise_singleton .., fun c hc d hd => ?_⟩
        rw [List.mem_singleton.mp hd]
        exact .inl (h.below c hc)
    · rw [hact, hp, List.take_nil] at hb
      exact absurd hb List.not_mem_nil

/-- A batch of allocations is tracked. -/
theorem Tracks.reserve {n : ℕ} {out : List DevAddr} (hs : s.Sound) (h : s.Tracks l)
    (hsize : s.polyBytes ≠ 0) (hfits : s.Fits l n) :
    ∃ addrs t, DeviceAllocator.reserve n out s = (.ok (out ++ addrs), t) ∧
      t.Tracks (s.handOut addrs l) ∧ ∀ a ∈ addrs, a ∉ s.allocSet := by
  -- By induction on the batch; each address is handed out before the next is looked for.
  induction n generalizing s l out with
  | zero =>
    refine ⟨[], s, by rw [List.append_nil]; rfl, ?_, fun a ha => absurd ha List.not_mem_nil⟩
    simp only [handOut, List.map_nil, List.filter_nil, List.append_nil]
    exact h
  | succ n ih =>
    obtain ⟨a, he, ha, hin, hpool, htracks, hrest⟩ := h.allocateOne hs hsize hfits
    have hpolyBytes := polyBytes_act s .allocateOne
    have hkeep : ∀ b ∈ s.allocSet, b ∈ (s.act .allocateOne).allocSet := by
      rcases hs.allocateOne_cases with ⟨_, _, _, _, h'⟩ | ⟨_, h'⟩ <;>
        rw [act, h'] <;> exact fun b hb => Finset.mem_insert_of_mem hb
    obtain ⟨addrs, t, hrun, ht, hnew⟩ := ih hs.allocateOne htracks
      (hpolyBytes ▸ hsize) hrest
    refine ⟨a :: addrs, t, ?_, ?_, fun b hb => ?_⟩
    · rw [DeviceAllocator.reserve, Expected.attempt_bind_run, he]
      dsimp only
      rw [hrun, List.append_assoc, List.singleton_append]
    -- Of the pool only `a` has gone, and no later address is `a`.
    · have hfilter : addrs.filter (· ∉ (s.act .allocateOne).poolFree) =
          addrs.filter (· ∉ s.poolFree) := by
        refine List.filter_congr fun b hb => ?_
        have hba : b ≠ a := fun hba => hnew b hb (hba ▸ hin)
        rw [decide_eq_decide, hpool b hba]
      have hout : (s.act .allocateOne).handOut addrs (s.handOut [a] l) = s.handOut (a :: addrs) l := by
        simp only [handOut, hpolyBytes, hfilter, List.map_cons, List.map_nil, List.append_assoc,
          List.singleton_append, ← List.map_append, ← List.filter_append]
      rwa [← hout]
    · rcases List.mem_cons.mp hb with rfl | hb
      · exact ha
      · exact fun hin => hnew b hb (hkeep b hin)

/-- Freed addresses leave the allocations. -/
theorem Tracks.erase {t : DeviceAllocator} (h : s.Tracks l) (hbounded : t.Bounded)
    (hnext : t.nextAddr = s.nextAddr) {live : List Extent} (hlive : live.Sublist l.live)
    (halloc : ∀ e ∈ live, e.1 ∈ t.allocSet) : t.Tracks ⟨live, l.carved⟩ where
  bounded := hbounded
  below := hnext ▸ h.below
  apart := h.apart
  allocated := halloc
  nodup := h.nodup.sublist (hlive.map _)
  contained e he := h.contained e (hlive.subset he)

end DeviceAllocator

/-! ## The allocations of a program -/

variable {P M : Type}

open World (takePtrs)

/-- The ledger after a call that succeeded with a reply, in a state of the allocator. -/
def Call.ledger (s : DeviceAllocator) (reply : Reply) (l : Ledger) : Call → Ledger
  | .malloc _ size => { s.handOut reply.ptrs l with live := l.live ++ reply.ptrs.map (·, size) }
  | .mallocMrp _ _ size => { s.handOut reply.ptrs l with live := l.live ++ reply.ptrs.map (·, size) }
  | .free ptr => { l with live := l.live.filter (·.1 ≠ ptr) }
  | .freeMrp (some ptrs) count =>
    { l with live := l.live.filter (·.1 ∉ takePtrs count.toNat ptrs) }
  | .deviceReset => {}
  | _ => l

/-- An allocation does not wrap the bump pointer, and takes an address from the pool only at a size
that was carved at it. -/
def Call.Roomy (s : DeviceAllocator) (l : Ledger) : Call → Prop
  | .malloc _ _ => s.Fits l 1
  | .mallocMrp _ count _ => s.Fits l count.toNat
  | _ => True

/-- The state and the ledger after an invocation. -/
def ledgerStep (F : Fhetch P M) (t : World P M × Ledger) (i : Invocation P) : World P M × Ledger :=
  (t.1.after F i, i.call.ledger t.1.allocator (i.run F t.1).1 t.2)

/-- An invocation succeeds, and is roomy if it allocates. -/
def RoomySuccess (F : Fhetch P M) (t : World P M × Ledger) (i : Invocation P) : Prop :=
  (i.run F t.1).1.code = .success ∧ i.call.Roomy t.1.allocator t.2

/-- The actions that leave the live addresses, the pool and the bump pointer alone. -/
def Action.KeepsLayout : Action P M → Prop
  | .allocator .allocateOne => False
  | .allocator (.freeOne _) => False
  | .ringDimension _ => False
  | .reset => False
  | _ => True

/-- The calls that change the layout of the allocations. -/
def Call.ChangesLayout : Call → Prop
  | .malloc _ _ => True
  | .mallocMrp _ _ _ => True
  | .free _ => True
  | .freeMrp _ _ => True
  | .deviceReset => True
  | .setRingDimension _ => True
  | _ => False

section

variable {F : Fhetch P M} {w : World P M} {l : Ledger}

/-- What an upload does keeps the layout. -/
theorem Action.Uploads.keepsLayout {dst : DevAddr → Prop} {x : Action P M} (h : x.Uploads dst) :
    x.KeepsLayout := by
  cases x with
  | allocator x => cases x <;> first | exact h.elim | trivial
  | _ => first | exact h.elim | trivial

/-- Clearing the epoch keeps the layout. -/
theorem Action.Clears.keepsLayout {dst : DevAddr → Prop} {x : Action P M} (h : x.Clears dst) :
    x.KeepsLayout := by
  cases x with
  | allocator x => cases x <;> first | exact h.elim | trivial
  | _ => first | exact h.elim | trivial

/-- What the body of a compute call does keeps the layout. -/
theorem Action.Body.keepsLayout {dst : DevAddr → Prop} {x : Action P M} (h : x.Body dst) :
    x.KeepsLayout := by
  cases x with
  | allocator x => cases x <;> first | exact h.elim | trivial
  | _ => first | exact h.elim | trivial

/-- In a session the layout is kept by what keeps it in the body. -/
theorem Action.InSession.keepsLayout {C : Action P M → Prop} (hC : ∀ x, C x → x.KeepsLayout)
    {x : Action P M} (h : x.InSession C) : x.KeepsLayout := by
  cases x with
  | session env => trivial
  | _ => exact hC _ h

/-- What a finalization does keeps the layout. -/
theorem Action.Finalizes.keepsLayout {pending : DevAddr → Prop} {x : Action P M}
    (h : x.Finalizes pending) : x.KeepsLayout := by
  cases x with
  | allocator x => cases x <;> first | exact h.elim | trivial
  | _ => first | exact h.elim | trivial

/-- Only allocations, frees, a reset and a change of the ring dimension change the layout. -/
theorem Call.acts_keepsLayout {pending : DevAddr → Prop} {c : Call} {x : Action P M}
    (hc : ¬ c.ChangesLayout) (h : c.Acts F pending x) : x.KeepsLayout := by
  -- A call that does not change the layout acts inside a session, or on the words alone.
  cases c with
  | malloc | mallocMrp | free | freeMrp | deviceReset | setRingDimension => exact absurd trivial hc
  | memcpy transfer count =>
    cases transfer with
    | hostToDevice dst src =>
      exact Action.InSession.keepsLayout (fun _ => Action.Uploads.keepsLayout) h
    | deviceToDevice dst src => exact Action.InSession.keepsLayout (fun _ => Action.Body.keepsLayout) h
    | _ => exact h.elim
  | memcpyMrp transfer count base =>
    cases transfer with
    | hostToDevice dst src =>
      exact Action.InSession.keepsLayout (fun _ => Action.Uploads.keepsLayout) h
    | deviceToDevice dst src => exact Action.InSession.keepsLayout (fun _ => Action.Body.keepsLayout) h
    | _ => exact h.elim
  | memset devPtr value count => exact Action.Clears.keepsLayout h
  | tagOutput ptr =>
    cases h
    trivial
  | flush => exact Action.Finalizes.keepsLayout h
  | writeProgram => exact Action.Finalizes.keepsLayout h
  | config call =>
    obtain ⟨c, rfl⟩ := h
    trivial
  | _ => exact Action.InSession.keepsLayout (fun _ => Action.Body.keepsLayout) h

/-- An action that keeps the layout moves no address and not the bump pointer. -/
theorem act_layout {x : Action P M} (hx : x.KeepsLayout) :
    (w.act F x).allocator.allocSet = w.allocator.allocSet ∧
      (w.act F x).allocator.poolFree = w.allocator.poolFree ∧
      (w.act F x).allocator.nextAddr = w.allocator.nextAddr := by
  cases x with
  | allocator x =>
    cases x with
    | allocateOne => exact hx.elim
    | freeOne a => exact hx.elim
    | _ => exact ⟨rfl, rfl, rfl⟩
  | ringDimension n => exact hx.elim
  | reset => exact hx.elim
  | session env =>
    obtain ⟨_, _, _, -, he⟩ := World.session_frame (F := F) env w
    rw [he]
    exact ⟨rfl, rfl, rfl⟩
  | _ => exact ⟨rfl, rfl, rfl⟩

/-- A call that keeps the layout keeps the tracking. -/
theorem tracks_of_keepsLayout {c : Call} (hc : ¬ c.ChangesLayout) (env : CompilerReplies P)
    (h : w.allocator.Tracks l) : (c.run F env w).2.allocator.Tracks l := by
  have hlayout := (Call.performs env c w).preserves
    (I := fun v : World P M => v.allocator.allocSet = w.allocator.allocSet ∧
      v.allocator.poolFree = w.allocator.poolFree ∧ v.allocator.nextAddr = w.allocator.nextAddr)
    (fun v x hx hI => by
      obtain ⟨h₁, h₂, h₃⟩ := act_layout (F := F) (w := v) (Call.acts_keepsLayout hc hx.1)
      exact ⟨h₁.trans hI.1, h₂.trans hI.2.1, h₃.trans hI.2.2⟩) ⟨rfl, rfl, rfl⟩
  exact h.of_layout hlayout.1 (fun a ha => hlayout.2.1 ▸ ha) hlayout.2.2

/-- A call that frees addresses keeps the tracking of the others. -/
theorem tracks_of_frees {w' : World P M} {frees : List DevAddr}
    (hsteps : World.Steps F (Action.Frees (· ∈ frees)) w w') (hs : w.allocator.Sound)
    (h : w.allocator.Tracks l) :
    w'.allocator.Tracks { l with live := l.live.filter (·.1 ∉ frees) } := by
  -- Each free keeps the pointer and every address that is not listed.
  have hkept := hsteps.preserves (I := fun v : World P M => v.allocator.Sound ∧ v.allocator.Bounded ∧
      v.allocator.nextAddr = w.allocator.nextAddr ∧
      ∀ a ∈ w.allocator.allocSet, a ∉ frees → a ∈ v.allocator.allocSet)
    (fun v x hx ⟨hsound, hbounded, hnext, hin⟩ => by
      cases x with
      | allocator x =>
        cases x with
        | freeOne b =>
          refine ⟨hsound.freeOne b, hbounded.act (.freeOne b) hsound trivial trivial, ?_, ?_⟩
          · refine Eq.trans ?_ hnext
            by_cases hb : b ∈ v.allocator.allocSet
            · change (v.allocator.act (.freeOne b)).nextAddr = _
              rw [DeviceAllocator.act, DeviceAllocator.freeOne_live hb]
            · change (v.allocator.act (.freeOne b)).nextAddr = _
              rw [DeviceAllocator.act, DeviceAllocator.freeOne_dead hb]
          · intro a ha hfree
            have hab : a ≠ b := fun hab => hfree (hab ▸ hx.1)
            change a ∈ (v.allocator.act (.freeOne b)).allocSet
            by_cases hb : b ∈ v.allocator.allocSet
            · rw [DeviceAllocator.act, DeviceAllocator.freeOne_live hb]
              exact Finset.mem_erase.mpr ⟨hab, hin a ha hfree⟩
            · rw [DeviceAllocator.act, DeviceAllocator.freeOne_dead hb]
              exact hin a ha hfree
        | _ => exact hx.1.elim
      | epoch x => exact ⟨hsound, hbounded, hnext, hin⟩
      | _ => exact hx.1.elim)
    ⟨hs, h.bounded, rfl, fun a ha _ => ha⟩
  refine h.erase hkept.2.1 hkept.2.2.1 List.filter_sublist fun e he => ?_
  obtain ⟨he, hfree⟩ := List.mem_filter.mp he
  exact hkept.2.2.2 e.1 (h.allocated e he) (of_decide_eq_true hfree)

/-- A change of the ring dimension drops the pool and keeps the live addresses. -/
theorem tracks_of_ringDimension (n : UInt64) (env : CompilerReplies P) (hs : w.allocator.Sound)
    (h : w.allocator.Tracks l) :
    ((Call.setRingDimension n).run F env w).2.allocator.Tracks l := by
  have hkept := (Call.performs (F := F) env (.setRingDimension n) w).preserves
    (I := fun v : World P M => v.allocator.Sound ∧ v.allocator.Tracks l)
    (fun v x hx ⟨hsound, htracks⟩ => by
      obtain rfl : x = .ringDimension n := hx.1
      refine ⟨hsound.setPolynomialSize (n * 8), ?_⟩
      change (v.allocator.setPolynomialSize (n * 8)).Tracks l
      rcases v.allocator.setPolynomialSize_cases (n * 8) with ⟨-, he⟩ | ⟨-, he⟩
      · rw [he]
        exact htracks
      · rw [he]
        refine htracks.of_layout ?_ (fun a ha => absurd ha List.not_mem_nil) rfl
        refine Finset.sdiff_eq_self_of_disjoint (Finset.disjoint_left.mpr fun a ha hpool => ?_)
        exact hsound.pool_dead a (List.mem_toFinset.mp hpool) ha) ⟨hs, h⟩
  exact hkept.2

/-- A successful allocation of a size is of the configured size. -/
theorem tracks_of_malloc {ptr : Bool} {size : UInt64} (hs : w.allocator.Sound)
    (h : w.allocator.Tracks l) (hfits : w.allocator.Fits l 1)
    (hok : (hazeMalloc ptr size w : Reply × World P M).1.code = .success) :
    (hazeMalloc ptr size w : Reply × World P M).2.allocator.Tracks
      ((Call.malloc ptr size).ledger w.allocator (hazeMalloc ptr size w).1 l) := by
  unfold hazeMalloc Shim.guarded at hok ⊢
  -- A null pointer is refused before anything is allocated.
  rcases ptr with _ | _
  · cases hok
  simp only [Bool.not_true, Bool.false_eq_true, if_false] at hok ⊢
  unfold Shim.replyWith World.onAllocator at hok ⊢
  rw [Expected.zoom_run] at hok ⊢
  -- So is a size that is not the polynomial's.
  rcases hv : w.allocator.validatePolySizeLocked size with e | _
  · have hrun : DeviceAllocator.allocate size w.allocator = (.error e, w.allocator) :=
      Expected.query_bind_error hv
    rw [hrun] at hok
    exact absurd hok (toPublicError_ne_success e)
  obtain ⟨hsize, rfl⟩ := DeviceAllocator.validate_ok hv
  obtain ⟨a, hrun, -, -, -, htracks, -⟩ := h.allocateOne hs hsize hfits
  have hrun : DeviceAllocator.allocate w.allocator.polyBytes w.allocator =
      (.ok a, w.allocator.act .allocateOne) :=
    (Expected.query_bind_ok hv).trans hrun
  rw [hrun]
  exact htracks

/-- A successful batch of allocations is of the configured size. -/
theorem tracks_of_mallocMrp {ptrs : Bool} {count size : UInt64} (hs : w.allocator.Sound)
    (h : w.allocator.Tracks l) (hfits : w.allocator.Fits l count.toNat)
    (hok : (hazeMallocMrp ptrs count size w : Reply × World P M).1.code = .success) :
    (hazeMallocMrp ptrs count size w : Reply × World P M).2.allocator.Tracks
      ((Call.mallocMrp ptrs count size).ledger w.allocator (hazeMallocMrp ptrs count size w).1 l) := by
  unfold hazeMallocMrp Shim.guarded at hok ⊢
  split_ifs at hok ⊢ with hguard
  · cases hok
  unfold Shim.replyWith World.onAllocator at hok ⊢
  rw [Expected.zoom_run] at hok ⊢
  -- A batch of none succeeds without looking at the size.
  by_cases hzero : count.toNat = 0
  · have hrun : DeviceAllocator.allocateMany count.toNat size w.allocator = (.ok [], w.allocator) := by
      unfold DeviceAllocator.allocateMany
      rw [if_pos hzero]
      rfl
    rw [hrun]
    simp only [Call.ledger, DeviceAllocator.handOut, List.map_nil, List.filter_nil, List.append_nil]
    exact h
  rcases hv : w.allocator.validatePolySizeLocked size with e | _
  · have hrun : DeviceAllocator.allocateMany count.toNat size w.allocator = (.error e, w.allocator) := by
      unfold DeviceAllocator.allocateMany
      rw [if_neg hzero]
      exact Expected.query_bind_error hv
    rw [hrun] at hok
    exact absurd hok (toPublicError_ne_success e)
  obtain ⟨hsize, rfl⟩ := DeviceAllocator.validate_ok hv
  obtain ⟨addrs, t, hrun, htracks, -⟩ := h.reserve hs hsize hfits
  have hrun : DeviceAllocator.allocateMany count.toNat w.allocator.polyBytes w.allocator =
      (.ok addrs, t) := by
    unfold DeviceAllocator.allocateMany
    rw [if_neg hzero]
    exact (Expected.query_bind_ok hv).trans hrun
  rw [hrun]
  exact htracks

/-- A successful call whose allocations are roomy keeps the tracking. -/
theorem tracks_after {i : Invocation P} (hw : w.Inv) (h : w.allocator.Tracks l)
    (hi : RoomySuccess F (w, l) i) :
    (w.after F i).allocator.Tracks (i.call.ledger w.allocator (i.run F w).1 l) := by
  obtain ⟨env, c⟩ := i
  obtain ⟨hok, hroomy⟩ := hi
  -- The two mallocs extend the ledger, the frees shorten it and a reset empties it.
  cases c with
  | malloc ptr size => exact tracks_of_malloc hw.allocator h hroomy hok
  | mallocMrp ptrs count size => exact tracks_of_mallocMrp hw.allocator h hroomy hok
  | free ptr =>
    have hfree := tracks_of_frees (Call.performs (F := F) env (.free ptr) w) hw.allocator h
    have hsame : l.live.filter (·.1 ∉ (Call.free ptr).frees) = l.live.filter (·.1 ≠ ptr) :=
      List.filter_congr fun e _ => by simp [Call.frees]
    rw [hsame] at hfree
    exact hfree
  | freeMrp ptrs count =>
    rcases ptrs with _ | ptrs
    · exact h
    · exact tracks_of_frees (Call.performs (F := F) env (.freeMrp (some ptrs) count) w) hw.allocator h
  | deviceReset =>
    exact ⟨DeviceAllocator.bounded_init, fun c hc => absurd hc List.not_mem_nil, .nil,
      fun e he => absurd he List.not_mem_nil, List.nodup_nil, fun e he => absurd he List.not_mem_nil⟩
  | setRingDimension n => exact tracks_of_ringDimension n env hw.allocator h
  | _ =>
    refine tracks_of_keepsLayout ?_ env h
    exact fun hc => hc

/-- Live allocations are disjoint: after every program of successful calls whose allocations are
roomy, the extents that were handed out and not freed, of the sizes that were asked for, share no
address. -/
theorem allocations_disjoint (F : Fhetch P M) (is : List (Invocation P))
    (h : Expected.Along (ledgerStep F) (RoomySuccess F) (World.init, {}) is) :
    (is.foldl (ledgerStep F) (World.init, {})).2.live.Pairwise Extent.Disjoint := by
  have hI := h.invariant (I := fun t => t.1.Inv ∧ t.1.allocator.Tracks t.2)
    (fun t i hi hI => ⟨hI.1.after i, tracks_after hI.1 hI.2 hi⟩)
    ⟨World.inv_init, DeviceAllocator.bounded_init, fun c hc => absurd hc List.not_mem_nil, .nil,
      fun e he => absurd he List.not_mem_nil, List.nodup_nil, fun e he => absurd he List.not_mem_nil⟩
  exact hI.2.disjoint

end

/-! ## An address handed out again at a larger size -/

/-- Two allocations of eight bytes, and after the ring dimension was doubled one of them freed and
handed out again as sixteen bytes. -/
def recycledLarger : List (Invocation UInt64) :=
  scalarProgram [.setRingDimension 1, .malloc true 8, .malloc true 8, .setRingDimension 2,
    .free ⟨kHbmBase⟩, .malloc true 16]

/-- Every call succeeds, and the two live allocations overlap. -/
theorem allocations_disjoint_counterexample :
    (∀ reply ∈ World.replies scalarRing .init recycledLarger, reply.code = .success) ∧
      ¬ (recycledLarger.foldl (ledgerStep scalarRing) (World.init, {})).2.live.Pairwise
        Extent.Disjoint := by
  refine ⟨by decide +kernel, fun h => ?_⟩
  have hlive : (recycledLarger.foldl (ledgerStep scalarRing) (World.init, {})).2.live =
      [(⟨kHbmBase + 8⟩, 8), (⟨kHbmBase⟩, 16)] := by decide +kernel
  rw [hlive] at h
  exact (List.pairwise_cons.mp h).1 _ (List.mem_singleton_self _) (kHbmBase + 8)
    ⟨by unfold Extent.Covers; decide, by unfold Extent.Covers; decide⟩

/-- An allocation freed and handed out again at its own size. -/
theorem allocations_disjoint_example :
    ((scalarProgram [.setRingDimension 1, .malloc true 8, .malloc true 8, .free ⟨kHbmBase⟩,
      .malloc true 8]).foldl (ledgerStep scalarRing) (World.init, {})).2.live.Pairwise
        Extent.Disjoint := by
  refine allocations_disjoint scalarRing _ ⟨⟨by decide +kernel, trivial⟩, ⟨by decide +kernel, ?_⟩,
    ⟨by decide +kernel, ?_⟩, ⟨by decide +kernel, trivial⟩, ⟨by decide +kernel, ?_⟩, trivial⟩
  · exact ⟨by unfold DeviceAllocator.RoomFor; decide +kernel, by decide +kernel⟩
  · exact ⟨by unfold DeviceAllocator.RoomFor; decide +kernel, by decide +kernel⟩
  · exact ⟨by unfold DeviceAllocator.RoomFor; decide +kernel, by decide +kernel⟩

end Haze
