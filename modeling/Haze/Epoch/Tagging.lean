import Haze.Epoch.Registry

/-!
# What a tag declares

A tag of an address declares the members of its group outputs, and the address alone where it is in
no group (`Declares`). Each output that was not tagged yet takes the next name, so that what several
tags leave depends on what they declare together and not on their order (`Tags.permuted`), but for
which name an output has. A tag of what is declared already changes nothing.
-/

namespace Haze

namespace EpochState

variable {P : Type}

/-- A tag of `a` is for `b`: a member of its group, or itself where it is in no group. -/
def Declares (s : EpochState P) (a b : DevAddr) : Prop :=
  (∃ name, s.Member name a ∧ s.Member name b) ∨ b = a ∧ ∀ name, ¬ s.Member name a

/-- The addresses of `added` are tagged and the groups of `groups` are pending afterwards. Earlier
tags keep their names, the new ones take the names that follow, and the rest is as it was. -/
structure Tags (s t : EpochState P) (added : DevAddr → Prop) (groups : ProbeName → Prop) : Prop where
  frame : t = { s with
    pendingOutputs := t.pendingOutputs
    pendingMrpGroups := t.pendingMrpGroups
    outputCounter := t.outputCounter }
  outputs : ∀ a, a ∈ t.pendingOutputs ↔ a ∈ s.pendingOutputs ∨ added a
  kept : ∀ a name, AList.lookup a s.pendingOutputs = some name →
    AList.lookup a t.pendingOutputs = some name
  groups : ∀ name, name ∈ t.pendingMrpGroups ↔ name ∈ s.pendingMrpGroups ∨ groups name
  count : t.outputCounter + s.pendingOutputs.keys.length =
    s.outputCounter + t.pendingOutputs.keys.length
  names : ∀ name, (∃ a, AList.lookup a t.pendingOutputs = some name) ↔
    (∃ a, AList.lookup a s.pendingOutputs = some name) ∨
      ∃ k, s.outputCounter ≤ k ∧ k < t.outputCounter ∧ name = .hazeOut k

namespace Tags

variable {s t u : EpochState P} {added added' : DevAddr → Prop} {groups groups' : ProbeName → Prop}

/-- Tagging nothing changes nothing. -/
theorem refl (s : EpochState P) : s.Tags s (fun _ => False) fun _ => False where
  frame := rfl
  outputs _ := (or_iff_left id).symm
  kept _ _ h := h
  groups _ := (or_iff_left id).symm
  count := rfl
  names name := by
    refine (or_iff_left ?_).symm
    rintro ⟨k, hle, hlt, -⟩
    omega

/-- No tag is dropped, so that the counter does not go down. -/
theorem counter_le (h : s.Tags t added groups) : s.outputCounter ≤ t.outputCounter := by
  have hkeys : s.pendingOutputs.keys.length ≤ t.pendingOutputs.keys.length := by
    refine ((AList.keys_nodup s.pendingOutputs).subperm fun a ha => ?_).length_le
    exact AList.mem_keys.mp ((h.outputs a).mpr (.inl (AList.mem_keys.mpr ha)))
  have hcount := h.count
  omega

/-- Tags may be added in two steps. -/
theorem trans (h : s.Tags t added groups) (h' : t.Tags u added' groups') :
    s.Tags u (fun a => added a ∨ added' a) fun name => groups name ∨ groups' name where
  frame := by
    have hframe := h'.frame
    rw [h.frame] at hframe
    exact hframe
  outputs a := by rw [h'.outputs, h.outputs, or_assoc]
  kept a name hl := h'.kept a name (h.kept a name hl)
  groups name := by rw [h'.groups, h.groups, or_assoc]
  count := by
    have hcount := h.count
    have hcount' := h'.count
    omega
  names name := by
    have hle := h.counter_le
    have hle' := h'.counter_le
    rw [h'.names, h.names, or_assoc]
    refine or_congr_right ⟨?_, ?_⟩
    -- The numbers given out one after the other are those between the two counters.
    · rintro (⟨k, hk, hlt, rfl⟩ | ⟨k, hk, hlt, rfl⟩)
      · exact ⟨k, hk, hlt.trans_le hle', rfl⟩
      · exact ⟨k, hle.trans hk, hlt, rfl⟩
    · rintro ⟨k, hk, hlt, rfl⟩
      rcases Nat.lt_or_ge k t.outputCounter with hmid | hmid
      · exact .inl ⟨k, hk, hmid, rfl⟩
      · exact .inr ⟨k, hmid, hlt, rfl⟩

/-- What matters is which addresses and groups are tagged. -/
theorem congr (h : s.Tags t added groups) (hadded : ∀ a, added' a ↔ added a)
    (hgroups : ∀ name, groups' name ↔ groups name) : s.Tags t added' groups' := by
  rwa [funext fun a => propext (hadded a), funext fun name => propext (hgroups name)]

/-- Tagging does not change what an address stands for. -/
theorem declares (h : s.Tags t added groups) {a b : DevAddr} : t.Declares a b ↔ s.Declares a b := by
  rw [h.frame]
  rfl

/-- Tagging does not change the members of groups. -/
theorem member (h : s.Tags t added groups) {name : ProbeName} {a : DevAddr} :
    t.Member name a ↔ s.Member name a := by
  rw [h.frame]
  rfl

/-- Tagging binds nothing. -/
theorem polyMap (h : s.Tags t added groups) : t.polyMap = s.polyMap := by rw [h.frame]

end Tags

/-! ## One tag -/

/-- One address is tagged, under the next name if it was not. -/
theorem tagIfUntagged_adds (s : EpochState P) (a : DevAddr) :
    s.Tags (s.tagIfUntagged a) (· = a) fun _ => False := by
  have hspec := tagIfUntagged_spec s a
  unfold tagIfUntagged at hspec ⊢
  split_ifs at hspec ⊢ with ha
  · refine ⟨rfl, hspec.keys, hspec.kept, (Tags.refl s).groups, rfl, (Tags.refl s).names⟩
  -- A new output gets the next number of the counter.
  · refine ⟨rfl, hspec.keys, hspec.kept, fun _ => (or_iff_left id).symm, ?_, fun name => ?_⟩
    · dsimp only
      rw [AList.keys_insert, List.length_cons, List.erase_of_not_mem fun h => ha (AList.mem_keys.mpr h)]
      omega
    · dsimp only
      have hlook : ∀ b, AList.lookup b (AList.insert a (.hazeOut s.outputCounter) s.pendingOutputs) =
          some name ↔ b = a ∧ name = .hazeOut s.outputCounter ∨
            AList.lookup b s.pendingOutputs = some name := by
        intro b
        rw [UMap.lookup_insert_ite]
        by_cases hb : b = a
        · subst hb
          rw [UMap.notMem_iff_lookup.mp ha]
          simp [eq_comm]
        · simp [hb]
      simp only [hlook]
      constructor
      · rintro ⟨b, ⟨rfl, rfl⟩ | hl⟩
        · exact .inr ⟨_, le_rfl, Nat.lt_succ_self _, rfl⟩
        · exact .inl ⟨b, hl⟩
      · rintro (⟨b, hl⟩ | ⟨k, hle, hlt, rfl⟩)
        · exact ⟨b, .inr hl⟩
        · exact ⟨a, .inl ⟨rfl, by rw [Nat.le_antisymm hle (Nat.le_of_lt_succ hlt)]⟩⟩

/-- The addresses of a list are tagged. -/
theorem tagAll_adds (s : EpochState P) (addrs : List DevAddr) :
    s.Tags (addrs.foldl tagIfUntagged s) (· ∈ addrs) fun _ => False := by
  induction addrs generalizing s with
  | nil => exact (Tags.refl s).congr (fun _ => List.mem_nil_iff _) fun _ => Iff.rfl
  | cons a addrs ih =>
    exact ((tagIfUntagged_adds s a).trans (ih _)).congr (fun _ => List.mem_cons) fun _ =>
      (or_iff_left id).symm

/-- Where all are tagged, nothing is. -/
theorem tagAll_self {s : EpochState P} {addrs : List DevAddr}
    (h : ∀ a ∈ addrs, a ∈ s.pendingOutputs) : addrs.foldl tagIfUntagged s = s := by
  induction addrs with
  | nil => rfl
  | cons a addrs ih =>
    rw [List.forall_mem_cons] at h
    rw [List.foldl_cons, tagIfUntagged, if_pos h.1, ih h.2]

/-- A group is tagged with its members. -/
theorem tagGroup_adds {s : EpochState P} {name : ProbeName} {group : MrpGroup}
    (hg : AList.lookup name s.knownMrpGroups = some group) :
    s.Tags (s.tagGroup name) (· ∈ group.addrs) (· = name) := by
  have hall := tagAll_adds s group.addrs
  unfold tagGroup
  rw [hg]
  dsimp only
  generalize group.addrs.foldl tagIfUntagged s = t at hall
  have hframe := hall.frame
  refine ⟨?_, hall.outputs, hall.kept, fun n => ?_, hall.count, hall.names⟩
  · rw [hframe]
  · dsimp only
    rw [AList.mem_insert, hall.groups, or_false, or_comm]

section

variable {s : EpochState P} {a b : DevAddr} {name : ProbeName}

/-- A tag of a group's member tags the group. -/
theorem Consistent.tagOutput_member (h : s.Consistent) (hm : s.Member name a) :
    tagOutputLocked a s = (.ok (), s.tagGroup name) := by
  obtain ⟨names, hl, hname⟩ := h.indexed.member_iff.mp hm
  obtain ⟨n, hkeys, hn⟩ := h.claimed hl
  rw [h.unique a n name hn hm] at hkeys
  unfold tagOutputLocked
  rw [if_neg (not_not.mpr (h.member_bound name a hm)), hl]
  dsimp only
  rw [hkeys]
  rfl

/-- A tag of a bound address that is in no group tags that address. -/
theorem Consistent.tagOutput_alone (h : s.Consistent) (ha : a ∈ s.polyMap)
    (hm : ∀ name, ¬ s.Member name a) : tagOutputLocked a s = (.ok (), s.tagIfUntagged a) := by
  have hl : AList.lookup a s.addrToMrpGroups = none := by
    rcases hl : AList.lookup a s.addrToMrpGroups with _ | names
    · rfl
    · obtain ⟨name, -, hname⟩ := h.claimed hl
      exact absurd hname (hm name)
  unfold tagOutputLocked
  rw [if_neg (not_not.mpr ha), hl]

/-- A tag of an address that is not bound fails and changes nothing. -/
theorem tagOutput_unbound (ha : a ∉ s.polyMap) :
    tagOutputLocked a s = (.error .sourceUnavailable, s) := if_pos ha

/-- A tag of a bound address tags what it declares. -/
theorem Consistent.tagOutput_tags (h : s.Consistent) (ha : a ∈ s.polyMap) :
    ∃ t, tagOutputLocked a s = (.ok (), t) ∧ s.Tags t (s.Declares a) (s.Member · a) := by
  by_cases hm : ∃ name, s.Member name a
  · obtain ⟨name, group, hg, hmem⟩ := hm
    have hname : ∀ n, s.Member n a ↔ n = name := fun n =>
      ⟨fun hn => h.unique a n name hn ⟨group, hg, hmem⟩, fun hn => hn ▸ ⟨group, hg, hmem⟩⟩
    refine ⟨_, h.tagOutput_member ⟨group, hg, hmem⟩, (tagGroup_adds hg).congr (fun b => ?_) hname⟩
    constructor
    · rintro (⟨n, hn, old, hold, hb⟩ | ⟨-, hnone⟩)
      · rw [(hname n).mp hn, hg] at hold
        cases hold
        exact hb
      · exact absurd ((hname name).mpr rfl) (hnone name)
    · exact fun hb => .inl ⟨name, (hname name).mpr rfl, group, hg, hb⟩
  · rw [not_exists] at hm
    refine ⟨_, h.tagOutput_alone ha hm, (tagIfUntagged_adds s a).congr (fun b => ?_) fun n => ?_⟩
    · exact ⟨fun hb => (hb.resolve_left fun ⟨n, hn, _⟩ => hm n hn).1, fun hb => .inr ⟨hb, hm⟩⟩
    · exact iff_false_intro (hm n)

/-- What an address declares is declared by each of them alike. -/
theorem Consistent.declares_congr (h : s.Consistent) (hb : s.Declares a b) (c : DevAddr) :
    s.Declares b c ↔ s.Declares a c := by
  rcases hb with ⟨name, ha, hb⟩ | ⟨rfl, -⟩
  · have hone : ∀ {d : DevAddr}, s.Member name d → (s.Declares d c ↔ s.Member name c) := by
      intro d hd
      constructor
      · rintro (⟨n, hn, hc⟩ | ⟨-, hnone⟩)
        · exact h.unique d n name hn hd ▸ hc
        · exact absurd hd (hnone name)
      · exact fun hc => .inl ⟨name, hd, hc⟩
    exact (hone hb).trans (hone ha).symm
  · exact Iff.rfl

/-- The group of what an address declares is its own. -/
theorem Consistent.declares_member (h : s.Consistent) (hb : s.Declares a b) (hm : s.Member name b) :
    s.Member name a := by
  rcases hb with ⟨n, ha, hb⟩ | ⟨rfl, -⟩
  · exact h.unique b n name hb hm ▸ ha
  · exact hm

/-- What a bound address declares is bound. -/
theorem Consistent.declares_bound (h : s.Consistent) (ha : a ∈ s.polyMap) (hb : s.Declares a b) :
    b ∈ s.polyMap := by
  rcases hb with ⟨name, -, hb⟩ | ⟨rfl, -⟩
  · exact h.member_bound name b hb
  · exact ha

/-- A tag of what is tagged already changes nothing but the order of the pending groups. -/
theorem Consistent.tagOutput_tagged (h : s.Consistent) (ha : a ∈ s.polyMap)
    (houtputs : ∀ b, s.Declares a b → b ∈ s.pendingOutputs)
    (hgroups : ∀ name, s.Member name a → name ∈ s.pendingMrpGroups) :
    ∃ groups, tagOutputLocked a s = (.ok (), { s with pendingMrpGroups := groups }) ∧
      ∀ name, name ∈ groups ↔ name ∈ s.pendingMrpGroups := by
  by_cases hm : ∃ name, s.Member name a
  · obtain ⟨name, group, hg, hmem⟩ := hm
    have hself : group.addrs.foldl tagIfUntagged s = s := tagAll_self fun b hb =>
      houtputs b (.inl ⟨name, ⟨group, hg, hmem⟩, group, hg, hb⟩)
    refine ⟨AList.insert name () s.pendingMrpGroups, ?_, fun n => ?_⟩
    · rw [h.tagOutput_member ⟨group, hg, hmem⟩, tagGroup, hg]
      dsimp only
      rw [hself]
    · rw [AList.mem_insert, or_iff_right_of_imp]
      rintro rfl
      exact hgroups n ⟨group, hg, hmem⟩
  · rw [not_exists] at hm
    refine ⟨s.pendingMrpGroups, ?_, fun _ => Iff.rfl⟩
    rw [h.tagOutput_alone ha hm, tagIfUntagged, if_pos (houtputs a (.inr ⟨rfl, hm⟩))]

end

/-- A group is tagged once. -/
theorem tagGroup_again (s : EpochState P) (name : ProbeName) :
    (s.tagGroup name).tagGroup name = s.tagGroup name := by
  -- A group that is not known is not tagged at all.
  rcases hg : AList.lookup name s.knownMrpGroups with _ | group
  · have hnone : s.tagGroup name = s := by
      unfold tagGroup
      rw [hg]
    rw [hnone, hnone]
  have htags := tagGroup_adds hg
  have hknown : AList.lookup name (s.tagGroup name).knownMrpGroups = some group := by
    rw [htags.frame]
    exact hg
  -- All members are outputs by now, and the group is pending.
  have hself : group.addrs.foldl tagIfUntagged (s.tagGroup name) = s.tagGroup name :=
    tagAll_self fun b hb => (htags.outputs b).mpr (.inr hb)
  have hpending : AList.insert name () (s.tagGroup name).pendingMrpGroups =
      (s.tagGroup name).pendingMrpGroups := by
    unfold tagGroup
    rw [hg]
    exact AList.insert_insert _
  have hagain : (s.tagGroup name).tagGroup name = { s.tagGroup name with
      pendingMrpGroups := AList.insert name () (s.tagGroup name).pendingMrpGroups } := by
    rw [tagGroup, hknown]
    dsimp only
    rw [hself]
  rw [hagain, hpending]

/-- A second tag of what the first has declared changes nothing. -/
theorem Valid.tagOutput_again {s : EpochState P} (h : s.Valid) {a b : DevAddr} (ha : a ∈ s.polyMap)
    (hb : s.Declares a b) :
    tagOutputLocked b (tagOutputLocked a s).2 = (.ok (), (tagOutputLocked a s).2) := by
  have hvalid := h.tagOutput a
  obtain ⟨t, ht, htags⟩ := h.consistent.tagOutput_tags ha
  rcases hb with ⟨name, hname, hb⟩ | ⟨rfl, hnone⟩
  · rw [h.consistent.tagOutput_member hname] at hvalid ht ⊢
    cases ht
    rw [hvalid.consistent.tagOutput_member (htags.member.mpr hb), tagGroup_again]
  · rw [h.consistent.tagOutput_alone ha hnone] at hvalid ht ⊢
    cases ht
    rw [hvalid.consistent.tagOutput_alone (htags.polyMap ▸ ha) fun name hm =>
      hnone name (htags.member.mp hm)]
    dsimp only
    rw [tagIfUntagged, if_pos ((htags.outputs b).mpr (.inr (.inr ⟨rfl, hnone⟩)))]

/-! ## Tags one after the other -/

/-- Several tags in order, whatever becomes of each. -/
def tagOutputs (s : EpochState P) (addrs : List DevAddr) : EpochState P :=
  addrs.foldl (fun s a => (tagOutputLocked a s).2) s

section

variable {s t t' : EpochState P} {added : DevAddr → Prop} {groups : ProbeName → Prop}

/-- Tagging outputs keeps validity. -/
theorem Valid.tagOutputs (h : s.Valid) (addrs : List DevAddr) : (s.tagOutputs addrs).Valid := by
  induction addrs generalizing s with
  | nil => exact h
  | cons a addrs ih => exact ih (h.tagOutput a)

/-- Several tags tag what they declare together. -/
theorem Valid.tagOutputs_tags (h : s.Valid) (addrs : List DevAddr) :
    s.Tags (s.tagOutputs addrs) (fun b => ∃ a ∈ addrs, a ∈ s.polyMap ∧ s.Declares a b)
      fun name => ∃ a ∈ addrs, s.Member name a := by
  induction addrs generalizing s with
  | nil => exact (Tags.refl s).congr (fun _ => by simp) fun _ => by simp
  | cons a addrs ih =>
    have hrest := ih (h.tagOutput a)
    have hone : s.Tags (tagOutputLocked a s).2 (fun b => a ∈ s.polyMap ∧ s.Declares a b)
        (s.Member · a) := by
      by_cases ha : a ∈ s.polyMap
      · obtain ⟨t, ht, htags⟩ := h.consistent.tagOutput_tags ha
        rw [ht]
        exact htags.congr (fun b => and_iff_right ha) fun _ => Iff.rfl
      · rw [tagOutput_unbound ha]
        exact (Tags.refl s).congr (fun b => iff_false_intro fun hb => ha hb.1) fun name =>
          iff_false_intro fun hm => ha (h.consistent.member_bound name a hm)
    refine (hone.trans hrest).congr (fun b => ?_) fun name => ?_
    · simp only [List.exists_mem_cons_iff, hone.polyMap, hone.declares]
    · simp only [List.exists_mem_cons_iff, hone.member]

/-- One address and one group are tagged in the one state as in the other, and the outputs have the
same names, which may be exchanged. -/
structure TagsPermuted (t t' : EpochState P) : Prop where
  frame : t' = { t with
    pendingOutputs := t'.pendingOutputs
    pendingMrpGroups := t'.pendingMrpGroups }
  outputs : ∀ a, a ∈ t'.pendingOutputs ↔ a ∈ t.pendingOutputs
  groups : ∀ name, name ∈ t'.pendingMrpGroups ↔ name ∈ t.pendingMrpGroups
  names : (t'.pendingOutputs.entries.map Sigma.snd).Perm (t.pendingOutputs.entries.map Sigma.snd)

/-- The names of the outputs are distinct. -/
theorem OutputsNamed.nodup (h : s.OutputsNamed) :
    (s.pendingOutputs.entries.map Sigma.snd).Nodup := by
  refine s.pendingOutputs.nodupKeys.nodup.map_on ?_
  rintro ⟨a, name⟩ ha ⟨b, name'⟩ hb heq
  cases heq
  rw [h.injective a b name (UMap.mem_entries_iff.mp ha) (UMap.mem_entries_iff.mp hb)]

/-- The names of the outputs are those that some address has. -/
theorem mem_outputNames {name : ProbeName} : name ∈ s.pendingOutputs.entries.map Sigma.snd ↔
    ∃ a, AList.lookup a s.pendingOutputs = some name := by
  rw [List.mem_map]
  constructor
  · rintro ⟨⟨a, name⟩, ha, rfl⟩
    exact ⟨a, UMap.mem_entries_iff.mp ha⟩
  · rintro ⟨a, hl⟩
    exact ⟨⟨a, name⟩, UMap.mem_entries_iff.mpr hl, rfl⟩

/-- Two ways to tag the same addresses and groups leave the same tags, up to the names. -/
theorem Tags.permuted (h : s.Tags t added groups) (h' : s.Tags t' added groups)
    (ht : t.OutputsNamed) (ht' : t'.OutputsNamed) : t.TagsPermuted t' := by
  have houtputs : ∀ a, a ∈ t'.pendingOutputs ↔ a ∈ t.pendingOutputs := fun a =>
    (h'.outputs a).trans (h.outputs a).symm
  -- As many names were taken, since as many addresses are tagged.
  have hkeys : t'.pendingOutputs.keys.length = t.pendingOutputs.keys.length := by
    refine ((List.perm_ext_iff_of_nodup (AList.keys_nodup _) (AList.keys_nodup _)).mpr
      fun a => ?_).length_eq
    rw [← AList.mem_keys, ← AList.mem_keys, houtputs]
  have hcounter : t'.outputCounter = t.outputCounter := by
    have hcount := h.count
    have hcount' := h'.count
    omega
  refine ⟨?_, houtputs, fun name => (h'.groups name).trans (h.groups name).symm, ?_⟩
  · have hframe := h'.frame
    rw [hcounter] at hframe
    rw [hframe, h.frame]
  · refine (List.perm_ext_iff_of_nodup ht'.nodup ht.nodup).mpr fun name => ?_
    rw [mem_outputNames, mem_outputNames, h'.names, h.names, hcounter]

end

end EpochState

end Haze
