import Haze.Epoch.Index

/-!
# The epoch's invariant

`Consistent` is the representation invariant of the epoch state: tags, moduli and inputs are kept
for bound addresses only, the members of a group are bound, the tagged groups are registered, the
reverse index is the inverse of group membership, and an address is in one group at most. `Named`
ties each group to the name that its leading address was assigned, and `OutputsNamed` says that no
two outputs have one name.

An `EpochAction` is one change of the epoch state as the public calls issue it. `Issued` says where
they issue it, and each action keeps the three invariants there.
-/

namespace Haze

namespace EpochState

variable {P : Type}

/-- The representation invariant. -/
structure Consistent (s : EpochState P) : Prop where
  pending_bound : ∀ a ∈ s.pendingOutputs, a ∈ s.polyMap
  modulus_bound : ∀ a ∈ s.addrModulus, a ∈ s.polyMap
  input_bound : ∀ a ∈ s.inputAddrs, a ∈ s.polyMap
  indexed : s.Indexed
  member_bound : ∀ name a, s.Member name a → a ∈ s.polyMap
  lengths : ∀ name group, AList.lookup name s.knownMrpGroups = some group →
    group.addrs.length = group.moduli.length
  pending_known : ∀ name ∈ s.pendingMrpGroups, name ∈ s.knownMrpGroups
  /-- An address belongs to at most one group. -/
  unique : ∀ a name name', s.Member name a → s.Member name' a → name = name'

/-- Every group has the name that its leading address was assigned, and no two addresses were
assigned one name. -/
structure Named (s : EpochState P) : Prop where
  leading : ∀ name group, AList.lookup name s.knownMrpGroups = some group →
    group.addrs ≠ [] ∧ AList.lookup (group.addrs.headD .null) s.mrpOutNames = some name
  injective : UMap.Injective s.mrpOutNames
  fresh : ∀ a name, AList.lookup a s.mrpOutNames = some name →
    ∃ k < s.mrpOutNameCounter, name = .hazeMrpOut k

/-- No two outputs have one name, and the next name is new. -/
structure OutputsNamed (s : EpochState P) : Prop where
  injective : UMap.Injective s.pendingOutputs
  fresh : ∀ a name, AList.lookup a s.pendingOutputs = some name →
    ∃ k < s.outputCounter, name = .hazeOut k

/-- An address that is claimed is claimed by one name, that of its group. -/
theorem Consistent.claimed {s : EpochState P} (h : s.Consistent) {a : DevAddr}
    {names : USet ProbeName} (hl : AList.lookup a s.addrToMrpGroups = some names) :
    ∃ name, names.keys = [name] ∧ s.Member name a := by
  have hmember : ∀ n ∈ names.keys, s.Member n a := fun n hn =>
    h.indexed.member_iff.mpr ⟨names, hl, hn⟩
  have hnodup := AList.keys_nodup names
  rcases hk : names.keys with _ | ⟨n, _ | ⟨m, ns⟩⟩ <;> rw [hk] at hmember hnodup
  · refine absurd (UMap.eq_empty_iff.mpr fun n hn => ?_) (h.indexed.noEmpty a names hl)
    have hkey : n ∈ names.keys := AList.mem_keys.mp hn
    rw [hk] at hkey
    exact absurd hkey List.not_mem_nil
  · exact ⟨n, rfl, hmember n (List.mem_cons_self ..)⟩
  · have heq := h.unique a n m (hmember n (List.mem_cons_self ..))
      (hmember m (List.mem_cons_of_mem _ (List.mem_cons_self ..)))
    subst heq
    exact absurd (List.mem_cons_self ..) (List.nodup_cons.mp hnodup).1

/-! ## Tags -/

/-- Some addresses were tagged: they are pending now, and every earlier tag keeps its name. -/
structure TagsAdded (s t : EpochState P) (added : DevAddr → Prop) : Prop where
  frame : t = { s with pendingOutputs := t.pendingOutputs, outputCounter := t.outputCounter }
  keys : ∀ a, a ∈ t.pendingOutputs ↔ a ∈ s.pendingOutputs ∨ added a
  kept : ∀ a name, AList.lookup a s.pendingOutputs = some name →
    AList.lookup a t.pendingOutputs = some name
  named : s.OutputsNamed → t.OutputsNamed

/-- Adding no tags changes nothing. -/
theorem TagsAdded.refl (s : EpochState P) : s.TagsAdded s fun _ => False :=
  ⟨rfl, by simp, fun _ _ h => h, id⟩

/-- Tags may be added in two steps. -/
theorem TagsAdded.trans {s t u : EpochState P} {added added' : DevAddr → Prop}
    (h : s.TagsAdded t added) (h' : t.TagsAdded u added') :
    s.TagsAdded u fun a => added a ∨ added' a where
  frame := by
    have := h'.frame
    rw [h.frame] at this
    exact this
  keys a := by rw [h'.keys, h.keys, or_assoc]
  kept a name hl := h'.kept a name (h.kept a name hl)
  named hn := h'.named (h.named hn)

/-- What matters is which addresses are tagged. -/
theorem TagsAdded.congr {s t : EpochState P} {added added' : DevAddr → Prop}
    (h : s.TagsAdded t added) (ha : ∀ a, added a ↔ added' a) : s.TagsAdded t added' := by
  have : added = added' := funext fun a => propext (ha a)
  rwa [← this]

/-- One address is tagged, under the next name if it was not. -/
theorem tagIfUntagged_spec (s : EpochState P) (a : DevAddr) :
    s.TagsAdded (s.tagIfUntagged a) (· = a) := by
  unfold tagIfUntagged
  -- An address with a name keeps it; any other gets the next number, which is fresh.
  split_ifs with ha
  · refine ⟨rfl, fun b => ⟨.inl, ?_⟩, fun _ _ h => h, id⟩
    rintro (hb | rfl)
    · exact hb
    · exact ha
  · refine ⟨rfl, fun b => ?_, fun b name hl => ?_, fun hn => ⟨?_, fun b name hl => ?_⟩⟩
    · dsimp only
      rw [AList.mem_insert, or_comm]
    · have hb : b ≠ a := by
        rintro rfl
        exact ha (UMap.mem_of_lookup hl)
      simpa [hb] using hl
    · refine hn.injective.insert fun b hl => ?_
      obtain ⟨k, hk, he⟩ := hn.fresh b _ hl
      cases he
      exact Nat.lt_irrefl _ hk
    · dsimp only at hl ⊢
      rw [UMap.lookup_insert_ite] at hl
      split_ifs at hl
      · cases hl
        exact ⟨s.outputCounter, Nat.lt_succ_self _, rfl⟩
      · obtain ⟨k, hk, he⟩ := hn.fresh b name hl
        exact ⟨k, Nat.lt_succ_of_lt hk, he⟩

/-- Tagging a list tags what was untagged in it. -/
theorem tagAll_spec (s : EpochState P) (addrs : List DevAddr) :
    s.TagsAdded (addrs.foldl tagIfUntagged s) (· ∈ addrs) := by
  induction addrs generalizing s with
  | nil => exact (TagsAdded.refl s).congr fun _ => by simp
  | cons a addrs ih =>
    exact ((tagIfUntagged_spec s a).trans (ih _)).congr fun b => by simp [List.mem_cons]

/-! ## Registration -/

/-- What a registration leaves: the group under its name, no other group with one of its addresses,
and the tags of the group's name extended to its addresses. -/
structure Registers (s t : EpochState P) (group : MrpGroup) (name : ProbeName) : Prop where
  frame : t = { s with
    addrToMrpGroups := t.addrToMrpGroups
    knownMrpGroups := t.knownMrpGroups
    pendingMrpGroups := t.pendingMrpGroups
    pendingOutputs := t.pendingOutputs
    outputCounter := t.outputCounter }
  known_self : AList.lookup name t.knownMrpGroups = some group
  known_gone : ∀ n, n ≠ name → s.Touches group.addrs n → AList.lookup n t.knownMrpGroups = none
  known_kept : ∀ n, n ≠ name → ¬ s.Touches group.addrs n →
    AList.lookup n t.knownMrpGroups = AList.lookup n s.knownMrpGroups
  pending : ∀ n, n ∈ t.pendingMrpGroups ↔ n ∈ s.pendingMrpGroups ∧
    ¬ (n ≠ name ∧ s.Touches group.addrs n)
  indexed : t.Indexed
  outputs : ∀ a, a ∈ t.pendingOutputs → a ∈ s.pendingOutputs ∨ a ∈ group.addrs
  outputs_kept : ∀ a n, AList.lookup a s.pendingOutputs = some n →
    AList.lookup a t.pendingOutputs = some n
  named : s.OutputsNamed → t.OutputsNamed

/-- An address that touches a registered group's addresses is in that group. -/
theorem Consistent.touches_eq {s : EpochState P} (h : s.Consistent) {group : MrpGroup}
    {name n : ProbeName} (hg : AList.lookup name s.knownMrpGroups = some group)
    (ht : s.Touches group.addrs n) : n = name := by
  obtain ⟨a, ha, hm⟩ := ht
  exact h.unique a n name hm ⟨group, hg, ha⟩

/-- Registering the shape that a group has changes nothing, and is a registration. -/
theorem Consistent.registers_self {s : EpochState P} (h : s.Consistent) {group : MrpGroup}
    {name : ProbeName} (hg : AList.lookup name s.knownMrpGroups = some group) :
    s.Registers s group name where
  frame := rfl
  known_self := hg
  known_gone _ hn ht := absurd (h.touches_eq hg ht) hn
  known_kept _ _ _ := rfl
  pending _ := ⟨fun hp => ⟨hp, fun hc => hc.1 (h.touches_eq hg hc.2)⟩, fun hp => hp.1⟩
  indexed := h.indexed
  outputs _ ha := .inl ha
  outputs_kept _ _ hl := hl
  named hn := hn

/-- The conflict sweep followed by the entry of the group is a registration. -/
theorem Consistent.registers_claim {s : EpochState P} (h : s.Consistent) (group : MrpGroup)
    (name : ProbeName) :
    s.Registers ((group.addrs.foldl (evictConflicting name) s).replaceGroup
      (AList.lookup name s.knownMrpGroups) group name) group name := by
  -- The sweep first, which keeps the group of the same name out.
  have hsweep := sweep_spec h.indexed name group.addrs
  have hown := hsweep.known_kept name fun hg => hg.1 rfl
  have hindexed := replaceGroup_indexed (hsweep.indexed _ h.indexed) group name
  rw [hown] at hindexed
  clear hown
  generalize group.addrs.foldl (evictConflicting name) s = u at hsweep hindexed ⊢
  -- Whether or not the name was known, only the index and its own entry change.
  have hwithdraw : ∃ index, u.replaceGroup (AList.lookup name s.knownMrpGroups) group name =
      { u with
        addrToMrpGroups := index
        knownMrpGroups := AList.insert name group u.knownMrpGroups } := by
    cases AList.lookup name s.knownMrpGroups <;> exact ⟨_, rfl⟩
  obtain ⟨index, hindex⟩ := hwithdraw
  rw [hindex] at hindexed ⊢
  have hframe := hsweep.frame
  refine ⟨?_, by simp, fun n hn ht => ?_, fun n hn ht => ?_, fun n => ?_, hindexed, ?_, ?_, ?_⟩
  · unfold RegistryOnly at hframe
    rw [hframe]
  · dsimp only
    rw [UMap.lookup_insert_ite, if_neg hn]
    exact hsweep.known_gone n ⟨hn, ht⟩
  · dsimp only
    rw [UMap.lookup_insert_ite, if_neg hn]
    exact hsweep.known_kept n fun hg => ht hg.2
  · refine (hsweep.pending n).trans (and_congr_right fun hp => not_congr ⟨fun hg => hg.1, fun hg => ?_⟩)
    exact ⟨hg, h.pending_known n hp⟩
  -- The rest of the state is framed.
  all_goals
    unfold RegistryOnly at hframe
    rw [hframe]
    intros
  · exact .inl ‹_›
  · assumption
  · exact ⟨(‹s.OutputsNamed›).injective, (‹s.OutputsNamed›).fresh⟩

/-- Tagging the group's addresses afterwards is part of the registration. -/
theorem Registers.tagAll {s t : EpochState P} {group : MrpGroup} {name : ProbeName}
    (h : s.Registers t group name) : s.Registers (group.addrs.foldl tagIfUntagged t) group name := by
  -- A tag adds outputs, and touches no group.
  have htag := tagAll_spec t group.addrs
  generalize group.addrs.foldl tagIfUntagged t = u at htag
  have hf := htag.frame
  refine ⟨?_, ?_, ?_, ?_, ?_, ?_, fun a ha => ?_, fun a n hl => htag.kept a n (h.outputs_kept a n hl),
    fun hn => htag.named (h.named hn)⟩
  · have := h.frame
    rw [hf, this]
  · rw [hf]
    exact h.known_self
  · rw [hf]
    exact h.known_gone
  · rw [hf]
    exact h.known_kept
  · rw [hf]
    exact h.pending
  · have := h.indexed
    rw [hf]
    exact ⟨this.claims, this.noEmpty⟩
  · rcases (htag.keys a).mp ha with ha | ha
    · exact h.outputs a ha
    · exact .inr ha

/-- A registration with a modulus for each address succeeds and does what `Registers` says. -/
theorem register_spec {s : EpochState P} (h : s.Consistent) {addrs : List DevAddr}
    {moduli : List UInt64} (hlen : addrs.length = moduli.length) (name : ProbeName) :
    ∃ t, registerMrpOutputGroupLocked addrs moduli name s = (.ok (), t) ∧
      s.Registers t ⟨addrs, moduli⟩ name := by
  unfold registerMrpOutputGroupLocked
  rw [if_neg (not_not.mpr hlen)]
  have hclaim := h.registers_claim ⟨addrs, moduli⟩ name
  rcases hg : AList.lookup name s.knownMrpGroups with _ | existing
  · rw [hg] at hclaim
    exact ⟨_, rfl, hclaim⟩
  · rw [hg] at hclaim
    dsimp only at hclaim ⊢
    split_ifs with he hp
    · exact ⟨s, rfl, h.registers_self (he ▸ hg)⟩
    · exact ⟨_, rfl, hclaim.tagAll⟩
    · exact ⟨_, rfl, hclaim⟩

end EpochState

/-! ## Actions -/

/-- One change of the epoch state. -/
inductive EpochAction (P : Type) where
  | bindInput (addr : DevAddr) (poly : P)
  | dropTag (addr : DevAddr)
  | store (addr : DevAddr) (poly : P) (modulus : UInt64)
  | recordModulus (addr : DevAddr) (modulus : UInt64)
  | nameGroup (output : Bool) (leading : DevAddr)
  | tagMrpInputName (name : ProbeName)
  | register (addrs : List DevAddr) (moduli : List UInt64) (name : ProbeName)
  | tagOutput (addr : DevAddr)
  | invalidate (addr : DevAddr)
  | clear

namespace EpochState

variable {P : Type}

/-- The effect of an action. -/
def act (s : EpochState P) : EpochAction P → EpochState P
  | .bindInput addr poly => s.bindInput addr poly
  | .dropTag addr => s.dropTag addr
  | .store addr poly modulus => s.storeComputeResultLocked addr poly modulus
  | .recordModulus addr modulus => s.recordModulus addr modulus
  | .nameGroup output leading => (mrpGroupNameLocked output leading s).2
  | .tagMrpInputName name => { s with mrpInputTaggedNames := insert name s.mrpInputTaggedNames }
  | .register addrs moduli name => (registerMrpOutputGroupLocked addrs moduli name s).2
  | .tagOutput addr => (tagOutputLocked addr s).2
  | .invalidate addr => s.invalidate addr
  | .clear => .init

/-- Where the public calls issue an action: a modulus is recorded for a bound address, and a group
is registered after its several addresses were bound, each with a modulus, under the name of its
leading address. -/
def Issued (s : EpochState P) : EpochAction P → Prop
  | .recordModulus addr _ => addr ∈ s.polyMap
  | .register addrs moduli name => addrs.length = moduli.length ∧ 1 < addrs.length ∧
    AList.lookup (addrs.headD .null) s.mrpOutNames = some name ∧ ∀ a ∈ addrs, a ∈ s.polyMap
  | _ => True

/-- The three invariants. -/
structure Valid (s : EpochState P) : Prop where
  consistent : s.Consistent
  named : s.Named
  outputsNamed : s.OutputsNamed

/-- The state at start is valid. -/
theorem valid_init : (init : EpochState P).Valid where
  consistent :=
    { pending_bound := fun a h => absurd h (AList.notMem_empty a)
      modulus_bound := fun a h => absurd h (AList.notMem_empty a)
      input_bound := fun a h => absurd h (Finset.notMem_empty a)
      indexed := ⟨fun a name => by simp [Claims, Member, init], fun a names h => by simp [init] at h⟩
      member_bound := fun name a h => by simp [Member, init] at h
      lengths := fun name group h => by simp [init] at h
      pending_known := fun name h => absurd h (AList.notMem_empty name)
      unique := fun a name name' h => by simp [Member, init] at h }
  named :=
    { leading := fun name group h => by simp [init] at h
      injective := UMap.injective_empty
      fresh := fun a name h => by simp [init] at h }
  outputsNamed := ⟨UMap.injective_empty, fun a name h => by simp [init] at h⟩

/-- A change that keeps every bound address bound, leaves the tags and the registry alone and has
moduli and inputs for bound addresses only. -/
theorem Valid.of_bindings {s t : EpochState P} (h : s.Valid)
    (hframe : t = { s with
      polyMap := t.polyMap
      inputAddrs := t.inputAddrs
      addrModulus := t.addrModulus
      inputCounter := t.inputCounter
      mrpInputTaggedNames := t.mrpInputTaggedNames
      recording := t.recording })
    (hpoly : ∀ a ∈ s.polyMap, a ∈ t.polyMap) (hmodulus : ∀ a ∈ t.addrModulus, a ∈ t.polyMap)
    (hinput : ∀ a ∈ t.inputAddrs, a ∈ t.polyMap) : t.Valid := by
  obtain ⟨hc, hn, ho⟩ := h
  rw [hframe]
  exact ⟨⟨fun a ha => hpoly a (hc.pending_bound a ha), hmodulus, hinput,
    ⟨hc.indexed.claims, hc.indexed.noEmpty⟩, fun name a hm => hpoly a (hc.member_bound name a hm),
    hc.lengths, hc.pending_known, hc.unique⟩, ⟨hn.leading, hn.injective, hn.fresh⟩,
    ⟨ho.injective, ho.fresh⟩⟩

/-- Whether the compiler records does not matter. -/
theorem Valid.recording {s : EpochState P} (h : s.Valid) (recording : Bool) :
    ({ s with recording := recording } : EpochState P).Valid :=
  h.of_bindings rfl (fun _ hb => hb) h.consistent.modulus_bound h.consistent.input_bound

/-- Binding an input keeps validity. -/
theorem Valid.bindInput {s : EpochState P} (h : s.Valid) (a : DevAddr) (poly : P) :
    (s.bindInput a poly).Valid := by
  have hgrow : ∀ b ∈ s.polyMap, b ∈ (s.bindInput a poly).polyMap := fun b hb =>
    (AList.mem_insert _).mpr (.inr hb)
  refine h.of_bindings rfl hgrow (fun b hb => hgrow b (h.consistent.modulus_bound b hb)) fun b hb => ?_
  rcases Finset.mem_insert.mp hb with rfl | hb
  · exact (AList.mem_insert _).mpr (.inl rfl)
  · exact hgrow b (h.consistent.input_bound b hb)

/-- Storing a result keeps validity. -/
theorem Valid.store {s : EpochState P} (h : s.Valid) (a : DevAddr) (poly : P) (q : UInt64) :
    (s.storeComputeResultLocked a poly q).Valid := by
  have hself : a ∈ (s.storeComputeResultLocked a poly q).polyMap := (AList.mem_insert _).mpr (.inl rfl)
  have hgrow : ∀ b ∈ s.polyMap, b ∈ (s.storeComputeResultLocked a poly q).polyMap := fun b hb =>
    (AList.mem_insert _).mpr (.inr hb)
  refine h.of_bindings rfl hgrow (fun b hb => ?_) fun b hb =>
    hgrow b (h.consistent.input_bound b (Finset.mem_erase.mp hb).2)
  unfold storeComputeResultLocked at hb
  dsimp only at hb
  split_ifs at hb
  · rcases (AList.mem_insert _).mp hb with rfl | hb
    · exact hself
    · exact hgrow b (h.consistent.modulus_bound b hb)
  · exact hgrow b (h.consistent.modulus_bound b (AList.mem_erase.mp hb).2)

/-- Recording a modulus keeps validity. -/
theorem Valid.recordModulus {s : EpochState P} (h : s.Valid) {a : DevAddr} (q : UInt64)
    (ha : a ∈ s.polyMap) : (s.recordModulus a q).Valid := by
  refine h.of_bindings rfl (fun _ hb => hb) (fun b hb => ?_) h.consistent.input_bound
  rcases (AList.mem_insert _).mp hb with rfl | hb
  · exact ha
  · exact h.consistent.modulus_bound b hb

/-- Dropping a tag keeps the names of the others distinct. -/
theorem OutputsNamed.erase {s t : EpochState P} (h : s.OutputsNamed) {a : DevAddr}
    (hp : t.pendingOutputs = AList.erase a s.pendingOutputs) (hc : t.outputCounter = s.outputCounter) :
    t.OutputsNamed := by
  refine ⟨hp ▸ h.injective.erase, fun b name hl => ?_⟩
  rw [hp, UMap.lookup_erase_ite] at hl
  split_ifs at hl
  rw [hc]
  exact h.fresh b name hl

/-- Dropping a tag keeps validity. -/
theorem Valid.dropTag {s : EpochState P} (h : s.Valid) (a : DevAddr) : (s.dropTag a).Valid := by
  obtain ⟨hc, hn, ho⟩ := h
  exact ⟨⟨fun b hb => hc.pending_bound b (AList.mem_erase.mp hb).2, hc.modulus_bound, hc.input_bound,
    ⟨hc.indexed.claims, hc.indexed.noEmpty⟩, hc.member_bound, hc.lengths, hc.pending_known, hc.unique⟩,
    ⟨hn.leading, hn.injective, hn.fresh⟩, ho.erase rfl rfl⟩

/-- Naming a group keeps validity. -/
theorem Valid.nameGroup {s : EpochState P} (h : s.Valid) (output : Bool) (leading : DevAddr) :
    (mrpGroupNameLocked output leading s).2.Valid := by
  obtain ⟨hc, hn, ho⟩ := h
  -- A change of the names alone keeps the bindings.
  have hc' : ∀ names counter names' counter', Consistent
      { s with
        mrpOutNames := names
        mrpOutNameCounter := counter
        mrpInNames := names'
        mrpInNameCounter := counter' } := fun _ _ _ _ =>
    ⟨hc.pending_bound, hc.modulus_bound, hc.input_bound, ⟨hc.indexed.claims, hc.indexed.noEmpty⟩,
      hc.member_bound, hc.lengths, hc.pending_known, hc.unique⟩
  unfold mrpGroupNameLocked
  -- A leading address that has a name keeps it; any other gets the next number.
  split_ifs
  · rcases hl : AList.lookup leading s.mrpOutNames with _ | name
    · refine ⟨hc' _ _ _ _, ⟨fun n group hg => ?_, ?_, fun a n ha => ?_⟩, ⟨ho.injective, ho.fresh⟩⟩
      · obtain ⟨hne, hlead⟩ := hn.leading n group hg
        -- No known group starts at this address, since those have names already.
        have hhead : group.addrs.headD .null ≠ leading := by
          intro he
          rw [he, hl] at hlead
          cases hlead
        refine ⟨hne, ?_⟩
        dsimp only
        rw [UMap.lookup_insert_ite, if_neg hhead]
        exact hlead
      · refine hn.injective.insert fun b hb => ?_
        obtain ⟨k, hk, he⟩ := hn.fresh b _ hb
        cases he
        exact Nat.lt_irrefl _ hk
      · dsimp only at ha ⊢
        rw [UMap.lookup_insert_ite] at ha
        split_ifs at ha
        · cases ha
          exact ⟨_, Nat.lt_succ_self _, rfl⟩
        · obtain ⟨k, hk, he⟩ := hn.fresh a n ha
          exact ⟨k, Nat.lt_succ_of_lt hk, he⟩
    · exact ⟨hc, hn, ho⟩
  · rcases AList.lookup leading s.mrpInNames with _ | name
    · exact ⟨hc' _ _ _ _, ⟨hn.leading, hn.injective, hn.fresh⟩, ⟨ho.injective, ho.fresh⟩⟩
    · exact ⟨hc, hn, ho⟩

/-- The leading address of a group is one of its addresses. -/
theorem headD_mem {addrs : List DevAddr} (h : addrs ≠ []) : addrs.headD .null ∈ addrs := by
  cases addrs with
  | nil => exact absurd rfl h
  | cons a addrs => exact List.mem_cons_self ..

/-- A registration under a name that was issued keeps validity. -/
theorem Valid.registers {s t : EpochState P} (h : s.Valid) {group : MrpGroup} {name : ProbeName}
    (ht : s.Registers t group name)
    (hi : s.Issued (.register group.addrs group.moduli name)) : t.Valid := by
  obtain ⟨hc, hn, ho⟩ := h
  obtain ⟨hlen, hlong, hname, hbound⟩ := hi
  have hpoly : t.polyMap = s.polyMap := by rw [ht.frame]
  have hout : t.mrpOutNames = s.mrpOutNames := by rw [ht.frame]
  have hne : group.addrs ≠ [] := List.ne_nil_of_length_pos (by omega)
  -- A group after the registration is the new one, or an old one apart from its addresses.
  have hcases : ∀ n g, AList.lookup n t.knownMrpGroups = some g →
      (n = name ∧ g = group) ∨
      (n ≠ name ∧ ¬ s.Touches group.addrs n ∧ AList.lookup n s.knownMrpGroups = some g) := by
    intro n g hg
    by_cases hnn : n = name
    · subst hnn
      rw [ht.known_self] at hg
      exact .inl ⟨rfl, (Option.some.inj hg).symm⟩
    · by_cases htouch : s.Touches group.addrs n
      · rw [ht.known_gone n hnn htouch] at hg
        cases hg
      · exact .inr ⟨hnn, htouch, ht.known_kept n hnn htouch ▸ hg⟩
  refine ⟨⟨fun a ha => ?_, ?_, ?_, ht.indexed, ?_, fun n g hg => ?_, fun n hp => ?_, ?_⟩,
    ⟨fun n g hg => ?_, ?_, ?_⟩, ht.named ho⟩
  · rw [hpoly]
    exact (ht.outputs a ha).elim (hc.pending_bound a) (hbound a)
  · rw [ht.frame]
    exact hc.modulus_bound
  · rw [ht.frame]
    exact hc.input_bound
  · rintro n a ⟨g, hg, ha⟩
    rw [hpoly]
    rcases hcases n g hg with ⟨-, rfl⟩ | ⟨-, -, hg⟩
    · exact hbound a ha
    · exact hc.member_bound n a ⟨g, hg, ha⟩
  · rcases hcases n g hg with ⟨-, rfl⟩ | ⟨-, -, hg⟩
    · exact hlen
    · exact hc.lengths n g hg
  · obtain ⟨hp, hkeep⟩ := (ht.pending n).mp hp
    by_cases hnn : n = name
    · exact hnn ▸ UMap.mem_of_lookup ht.known_self
    · obtain ⟨g, hg⟩ := UMap.mem_iff_lookup.mp (hc.pending_known n hp)
      rw [← ht.known_kept n hnn fun htouch => hkeep ⟨hnn, htouch⟩] at hg
      exact UMap.mem_of_lookup hg
  · rintro a n n' ⟨g, hg, ha⟩ ⟨g', hg', ha'⟩
    rcases hcases n g hg with ⟨rfl, rfl⟩ | ⟨-, hfar, hg⟩ <;>
      rcases hcases n' g' hg' with ⟨rfl, rfl⟩ | ⟨-, hfar', hg'⟩
    · rfl
    · exact absurd ⟨a, ha, g', hg', ha'⟩ hfar'
    · exact absurd ⟨a, ha', g, hg, ha⟩ hfar
    · exact hc.unique a n n' ⟨g, hg, ha⟩ ⟨g', hg', ha'⟩
  · rw [hout]
    rcases hcases n g hg with ⟨rfl, rfl⟩ | ⟨-, -, hg⟩
    · exact ⟨hne, hname⟩
    · exact hn.leading n g hg
  · rw [hout]
    exact hn.injective
  · rw [ht.frame]
    exact hn.fresh

/-- Tagging bound addresses keeps validity. -/
theorem Valid.tagsAdded {s t : EpochState P} (h : s.Valid) {added : DevAddr → Prop}
    (ht : s.TagsAdded t added) (hbound : ∀ a, added a → a ∈ s.polyMap) : t.Valid := by
  obtain ⟨hc, hn, ho⟩ := h
  have hkeys : ∀ a ∈ t.pendingOutputs, a ∈ s.polyMap := fun a ha =>
    ((ht.keys a).mp ha).elim (hc.pending_bound a) (hbound a)
  have hnamed := ht.named ho
  rw [ht.frame] at hnamed ⊢
  exact ⟨⟨hkeys, hc.modulus_bound, hc.input_bound, ⟨hc.indexed.claims, hc.indexed.noEmpty⟩,
    hc.member_bound, hc.lengths, hc.pending_known, hc.unique⟩,
    ⟨hn.leading, hn.injective, hn.fresh⟩, hnamed⟩

/-- Tagging a group keeps validity. -/
theorem Valid.tagGroup {s : EpochState P} (h : s.Valid) (name : ProbeName) :
    (s.tagGroup name).Valid := by
  unfold EpochState.tagGroup
  rcases hg : AList.lookup name s.knownMrpGroups with _ | group
  · exact h
  have htag := tagAll_spec s group.addrs
  have hv := h.tagsAdded htag fun a ha => h.consistent.member_bound name a ⟨group, hg, ha⟩
  dsimp only
  generalize group.addrs.foldl tagIfUntagged s = t at htag hv
  obtain ⟨hc, hn, ho⟩ := hv
  have hknown : name ∈ t.knownMrpGroups := by
    rw [htag.frame]
    exact UMap.mem_of_lookup hg
  refine ⟨⟨hc.pending_bound, hc.modulus_bound, hc.input_bound, ⟨hc.indexed.claims, hc.indexed.noEmpty⟩,
    hc.member_bound, hc.lengths, fun n hp => ?_, hc.unique⟩, ⟨hn.leading, hn.injective, hn.fresh⟩,
    ⟨ho.injective, ho.fresh⟩⟩
  rcases (AList.mem_insert _).mp hp with rfl | hp
  · exact hknown
  · exact hc.pending_known n hp

/-- Tagging groups keeps validity. -/
theorem Valid.tagGroups {s : EpochState P} (h : s.Valid) (names : List ProbeName) :
    (names.foldl EpochState.tagGroup s).Valid := by
  induction names generalizing s with
  | nil => exact h
  | cons name names ih => exact ih (h.tagGroup name)

/-- Tagging an output keeps validity. -/
theorem Valid.tagOutput {s : EpochState P} (h : s.Valid) (a : DevAddr) :
    (tagOutputLocked a s).2.Valid := by
  unfold tagOutputLocked
  split_ifs with ha
  · rcases AList.lookup a s.addrToMrpGroups with _ | names
    · exact h.tagsAdded (tagIfUntagged_spec s a) fun b hb => hb ▸ ha
    · dsimp only
      exact h.tagGroups names.keys
  · exact h

/-- Invalidating an address keeps validity. -/
theorem Valid.invalidate {s : EpochState P} (h : s.Valid) (a : DevAddr) :
    (s.invalidate a).Valid := by
  obtain ⟨hc, hn, ho⟩ := h
  have he := evictGroupsOf_spec hc.indexed a
  have hi := he.indexed _ hc.indexed
  have hframe := he.frame
  unfold EpochState.invalidate
  dsimp only
  generalize s.evictGroupsOf a = t at he hi hframe ⊢
  -- The groups that are left are known from before and do not hold `a`.
  have hold : ∀ n g, AList.lookup n t.knownMrpGroups = some g →
      AList.lookup n s.knownMrpGroups = some g ∧ a ∉ g.addrs := by
    intro n g hg
    have hnot : ¬ s.Member n a := fun hm => by
      rw [he.known_gone n hm] at hg
      cases hg
    rw [he.known_kept n hnot] at hg
    exact ⟨hg, fun ha => hnot ⟨g, hg, ha⟩⟩
  have hpoly : t.polyMap = s.polyMap := by rw [hframe]
  have hpend : t.pendingOutputs = s.pendingOutputs := by rw [hframe]
  have hmod : t.addrModulus = s.addrModulus := by rw [hframe]
  have hin : t.inputAddrs = s.inputAddrs := by rw [hframe]
  have hout : t.mrpOutNames = s.mrpOutNames := by rw [hframe]
  -- The bindings without `a`, then the names, then the outputs.
  refine ⟨⟨fun b hb => ?_, fun b hb => ?_, fun b hb => ?_, ⟨hi.claims, hi.noEmpty⟩, ?_,
    fun n g hg => hc.lengths n g (hold n g hg).1, fun n hp => ?_, ?_⟩,
    ⟨fun n g hg => ?_, ?_, fun b n hl => ?_⟩, ho.erase (by rw [hpend]) (by rw [hframe])⟩
  · dsimp only at hb ⊢
    rw [hpend, AList.mem_erase] at hb
    rw [hpoly, AList.mem_erase]
    exact ⟨hb.1, hc.pending_bound b hb.2⟩
  · dsimp only at hb ⊢
    rw [hmod, AList.mem_erase] at hb
    rw [hpoly, AList.mem_erase]
    exact ⟨hb.1, hc.modulus_bound b hb.2⟩
  · dsimp only at hb ⊢
    rw [hin, Finset.mem_erase] at hb
    rw [hpoly, AList.mem_erase]
    exact ⟨hb.1, hc.input_bound b hb.2⟩
  · rintro n b ⟨g, hg, hb⟩
    obtain ⟨hg, ha⟩ := hold n g hg
    dsimp only
    rw [hpoly, AList.mem_erase]
    exact ⟨fun hba => ha (hba ▸ hb), hc.member_bound n b ⟨g, hg, hb⟩⟩
  · dsimp only at hp ⊢
    obtain ⟨hp, hkeep⟩ := (he.pending n).mp hp
    have hknown := hc.pending_known n hp
    exact he.known_mem.mpr ⟨hknown, fun hm => hkeep ⟨hm, hknown⟩⟩
  · rintro b n n' ⟨g, hg, hb⟩ ⟨g', hg', hb'⟩
    exact hc.unique b n n' ⟨g, (hold n g hg).1, hb⟩ ⟨g', (hold n' g' hg').1, hb'⟩
  -- No leading address goes, since `a` is in none of the groups that stay.
  · obtain ⟨hg, ha⟩ := hold n g hg
    obtain ⟨hne, hlead⟩ := hn.leading n g hg
    have hhead : g.addrs.headD .null ≠ a := fun hha => ha (hha ▸ headD_mem hne)
    refine ⟨hne, ?_⟩
    dsimp only
    rw [hout, UMap.lookup_erase_ite, if_neg hhead]
    exact hlead
  · dsimp only
    rw [hout]
    exact hn.injective.erase
  · dsimp only at hl ⊢
    rw [hout, UMap.lookup_erase_ite] at hl
    split_ifs at hl
    have hcounter : t.mrpOutNameCounter = s.mrpOutNameCounter := by rw [hframe]
    rw [hcounter]
    exact hn.fresh b n hl

/-- Every action keeps the invariants where it is issued. -/
theorem Valid.act {s : EpochState P} (x : EpochAction P) (hx : s.Issued x) (h : s.Valid) :
    (s.act x).Valid := by
  cases x with
  | bindInput a poly => exact h.bindInput a poly
  | dropTag a => exact h.dropTag a
  | store a poly q => exact h.store a poly q
  | recordModulus a q => exact h.recordModulus q hx
  | nameGroup output leading => exact h.nameGroup output leading
  | tagMrpInputName name =>
    exact h.of_bindings rfl (fun _ hb => hb) h.consistent.modulus_bound h.consistent.input_bound
  | register addrs moduli name =>
    obtain ⟨t, ht, hreg⟩ := register_spec h.consistent hx.1 name
    rw [EpochState.act, ht]
    exact h.registers hreg hx
  | tagOutput a => exact h.tagOutput a
  | invalidate a => exact h.invalidate a
  | clear => exact valid_init

end EpochState

end Haze
