import Haze.Epoch.Registry

/-!
# What an invalidation drops

Dropping every trace of an address takes the address out of every map and its groups out of the
registry and the reverse index (`Forgets`). Nothing is dropped of another address, and of a group
that the address is not in.
-/

namespace Haze

namespace EpochState

variable {P : Type}

/-- Everything of `a` and of the groups with it is gone, and everything else is as it was. -/
structure Forgets (s t : EpochState P) (a : DevAddr) : Prop where
  frame : t = { s with
    polyMap := t.polyMap
    pendingOutputs := t.pendingOutputs
    addrModulus := t.addrModulus
    inputAddrs := t.inputAddrs
    mrpInNames := t.mrpInNames
    mrpOutNames := t.mrpOutNames
    addrToMrpGroups := t.addrToMrpGroups
    knownMrpGroups := t.knownMrpGroups
    pendingMrpGroups := t.pendingMrpGroups }
  gone : a ∉ t.polyMap ∧ a ∉ t.pendingOutputs ∧ a ∉ t.addrModulus ∧ a ∉ t.inputAddrs ∧
    a ∉ t.mrpInNames ∧ a ∉ t.mrpOutNames ∧ a ∉ t.addrToMrpGroups
  groups_gone : ∀ name, s.Member name a → name ∉ t.knownMrpGroups ∧ name ∉ t.pendingMrpGroups ∧
    ∀ b, ¬ Claims t.addrToMrpGroups b name
  others : ∀ b, b ≠ a → AList.lookup b t.polyMap = AList.lookup b s.polyMap ∧
    AList.lookup b t.pendingOutputs = AList.lookup b s.pendingOutputs ∧
    AList.lookup b t.addrModulus = AList.lookup b s.addrModulus ∧
    (b ∈ t.inputAddrs ↔ b ∈ s.inputAddrs) ∧
    AList.lookup b t.mrpInNames = AList.lookup b s.mrpInNames ∧
    AList.lookup b t.mrpOutNames = AList.lookup b s.mrpOutNames
  groups_kept : ∀ name, ¬ s.Member name a →
    AList.lookup name t.knownMrpGroups = AList.lookup name s.knownMrpGroups ∧
    (name ∈ t.pendingMrpGroups ↔ name ∈ s.pendingMrpGroups) ∧
    ∀ b, Claims t.addrToMrpGroups b name ↔ Claims s.addrToMrpGroups b name

/-- Where the index is exact, so is the index entry of an address without a group. -/
theorem Indexed.notMem {s : EpochState P} (h : s.Indexed) {a : DevAddr}
    (ha : ∀ name, ¬ s.Member name a) : a ∉ s.addrToMrpGroups := by
  intro hmem
  obtain ⟨names, hl⟩ := UMap.mem_iff_lookup.mp hmem
  refine h.noEmpty a names hl (UMap.eq_empty_iff.mpr fun name hname => ?_)
  exact ha name (h.member_iff.mpr ⟨names, hl, hname⟩)

/-- An invalidation drops an address and nothing else. -/
theorem Consistent.invalidate_forgets {s : EpochState P} (h : s.Consistent) (a : DevAddr) :
    s.Forgets (s.invalidate a) a := by
  have he := evictGroupsOf_spec h.indexed a
  have hframe := he.frame
  have hindexed := he.indexed _ h.indexed
  unfold RegistryOnly at hframe
  unfold invalidate
  dsimp only
  generalize s.evictGroupsOf a = t at he hframe hindexed
  -- The groups that are left are those without `a`.
  have hmember : ∀ name b, t.Member name b ↔ s.Member name b ∧ ¬ s.Member name a := fun _ _ =>
    he.member
  have hnone : ∀ name, ¬ t.Member name a := fun name hm =>
    ((hmember name a).mp hm).2 ((hmember name a).mp hm).1
  have hclaims : ∀ name b, Claims t.addrToMrpGroups b name ↔ t.Member name b := fun name b =>
    (hindexed.claims b name).trans (and_iff_left id)
  refine ⟨?_, ⟨?_, ?_, ?_, ?_, ?_, ?_, Indexed.notMem hindexed hnone⟩, fun name hm => ⟨?_, ?_, ?_⟩, ?_,
    fun name hm => ⟨he.known_kept name hm, ?_, fun b => ?_⟩⟩
  · rw [hframe]
  · exact fun hmem => (AList.mem_erase.mp hmem).1 rfl
  · exact fun hmem => (AList.mem_erase.mp hmem).1 rfl
  · exact fun hmem => (AList.mem_erase.mp hmem).1 rfl
  · exact Finset.notMem_erase a _
  · exact fun hmem => (AList.mem_erase.mp hmem).1 rfl
  · exact fun hmem => (AList.mem_erase.mp hmem).1 rfl
  · exact UMap.notMem_iff_lookup.mpr (he.known_gone name hm)
  · obtain ⟨group, hg, -⟩ := id hm
    exact fun hp => ((he.pending name).mp hp).2 ⟨hm, UMap.mem_of_lookup hg⟩
  · exact fun b hb => ((hmember name b).mp ((hclaims name b).mp hb)).2 hm
  · intro b hb
    dsimp only
    simp only [UMap.lookup_erase_ite, Finset.mem_erase, ne_eq, hb, not_false_eq_true,
      true_and]
    rw [hframe]
    exact ⟨rfl, rfl, rfl, Iff.rfl, rfl, rfl⟩
  · exact (he.pending name).trans (and_iff_left fun hgone => hm hgone.1)
  · refine (hclaims name b).trans ((hmember name b).trans ((and_iff_left hm).trans ?_))
    exact ((h.indexed.claims b name).trans (and_iff_left id)).symm

end EpochState

end Haze
