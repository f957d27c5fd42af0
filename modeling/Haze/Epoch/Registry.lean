import Haze.Epoch.Invariant

/-!
# The registry of groups as a map of entries

What the registry is for, in its own terms: a map from a leading address to an entry, where the
latest write wins. A write takes the entry of its leading address and removes every other entry with
one of its addresses; an invalidation removes the entry of an address, and a tag marks it. The
epoch's maps represent such a registry (`EpochState.Refines`), and each action on them is an
operation on it.
-/

namespace Haze

/-- A group as it is registered. -/
structure RegistryEntry where
  addrs : List DevAddr
  moduli : List UInt64
  tagged : Bool
deriving DecidableEq

/-- The entry of each leading address. -/
def Registry : Type := DevAddr → Option RegistryEntry

namespace Registry

/-- The registry without entries. -/
def empty : Registry := fun _ => none

/-- Enter a group under its leading address, keeping the tag of an earlier entry there, and remove
the other entries that have one of its addresses. -/
def write (addrs : List DevAddr) (moduli : List UInt64) (r : Registry) : Registry := fun a =>
  if a = addrs.headD .null then some ⟨addrs, moduli, ((r a).map (·.tagged)).getD false⟩
  else (r a).filter fun e => e.addrs.all (· ∉ addrs)

/-- Remove the entry that contains an address. -/
def invalidate (b : DevAddr) (r : Registry) : Registry := fun a =>
  (r a).filter fun e => b ∉ e.addrs

/-- Mark the entry that contains an address. -/
def tag (b : DevAddr) (r : Registry) : Registry := fun a =>
  (r a).map fun e => { e with tagged := e.tagged || b ∈ e.addrs }

/-- No address is in two entries. -/
def Disjoint (r : Registry) : Prop :=
  ∀ a b e e', r a = some e → r b = some e' → a ≠ b → ∀ c ∈ e.addrs, c ∉ e'.addrs

end Registry

/-- The effect of an action on the registry. -/
def EpochAction.registry {P : Type} : EpochAction P → Registry → Registry
  | .register addrs moduli _ => Registry.write addrs moduli
  | .invalidate a => Registry.invalidate a
  | .tagOutput a => Registry.tag a
  | .clear => fun _ => Registry.empty
  | _ => id

namespace EpochState

variable {P : Type}

/-- The registry that the maps represent: the name of the leading address leads to the group, and
the group is tagged when its name is. -/
def registry (s : EpochState P) : Registry := fun a =>
  (AList.lookup a s.mrpOutNames).bind fun name =>
    (AList.lookup name s.knownMrpGroups).map fun group =>
      ⟨group.addrs, group.moduli, name ∈ s.pendingMrpGroups⟩

/-- An address that leads no named group has no entry. -/
theorem registry_unnamed {s : EpochState P} {a : DevAddr}
    (h : AList.lookup a s.mrpOutNames = none) : s.registry a = none := by
  rw [registry, h, Option.bind_none]

/-- The entry of an address is the group of its name, with whether it is tagged. -/
theorem registry_named {s : EpochState P} {a : DevAddr} {name : ProbeName}
    (h : AList.lookup a s.mrpOutNames = some name) :
    s.registry a = (AList.lookup name s.knownMrpGroups).map fun group =>
      ⟨group.addrs, group.moduli, name ∈ s.pendingMrpGroups⟩ := by
  rw [registry, h, Option.bind_some]

/-- An address has an entry when it has a name under which a group is known. -/
theorem registry_eq_some {s : EpochState P} {a : DevAddr} {e : RegistryEntry} :
    s.registry a = some e ↔ ∃ name, AList.lookup a s.mrpOutNames = some name ∧
      AList.lookup name s.knownMrpGroups = some ⟨e.addrs, e.moduli⟩ ∧
      (e.tagged = true ↔ name ∈ s.pendingMrpGroups) := by
  obtain ⟨addrs, moduli, tagged⟩ := e
  unfold registry
  constructor
  · intro h
    obtain ⟨name, hname, h⟩ := Option.bind_eq_some_iff.mp h
    obtain ⟨group, hgroup, h⟩ := Option.map_eq_some_iff.mp h
    cases h
    exact ⟨name, hname, hgroup, by simp⟩
  · rintro ⟨name, hname, hgroup, htagged⟩
    rw [hname, Option.bind_some, hgroup, Option.map_some]
    dsimp only at htagged ⊢
    congr 2
    rw [← Bool.coe_iff_coe, decide_eq_true_iff, htagged]

/-- The maps correspond to a registry: each entry is the group of its leading address's name, tagged
when the name is; every group is an entry; the index lists the names of the entries with an
address; and no address is in two entries. -/
structure Refines (s : EpochState P) (r : Registry) : Prop where
  entry : ∀ a e, r a = some e → a = e.addrs.headD .null ∧
    ∃ name, AList.lookup a s.mrpOutNames = some name ∧
      AList.lookup name s.knownMrpGroups = some ⟨e.addrs, e.moduli⟩ ∧
      (e.tagged = true ↔ name ∈ s.pendingMrpGroups)
  group : ∀ name group, AList.lookup name s.knownMrpGroups = some group →
    ∃ a e, r a = some e ∧ AList.lookup a s.mrpOutNames = some name ∧
      e.addrs = group.addrs ∧ e.moduli = group.moduli
  pending : ∀ name ∈ s.pendingMrpGroups, ∃ a e, r a = some e ∧
    AList.lookup a s.mrpOutNames = some name
  index : ∀ b name, (∃ names, AList.lookup b s.addrToMrpGroups = some names ∧ name ∈ names) ↔
    ∃ a e, r a = some e ∧ AList.lookup a s.mrpOutNames = some name ∧ b ∈ e.addrs
  disjoint : r.Disjoint

/-- Where the invariants hold the maps correspond to the registry that they represent. -/
theorem Valid.refines {s : EpochState P} (h : s.Valid) : s.Refines s.registry := by
  -- A known group stands in the registry under the address that leads it.
  have hgroup : ∀ name group, AList.lookup name s.knownMrpGroups = some group →
      s.registry (group.addrs.headD .null) =
        some ⟨group.addrs, group.moduli, name ∈ s.pendingMrpGroups⟩ := fun name group hg =>
    registry_eq_some.mpr ⟨name, (h.named.leading name group hg).2, hg, by simp⟩
  refine ⟨fun a e he => ?_, fun name group hg => ?_, fun name hp => ?_, fun b name => ?_, ?_⟩
  -- Both name maps are injective, so the entry has one name, and the name one entry.
  · obtain ⟨name, hname, hg, ht⟩ := registry_eq_some.mp he
    have hlead := (h.named.leading name _ hg).2
    exact ⟨h.named.injective _ _ name hname hlead, name, hname, hg, ht⟩
  · exact ⟨_, _, hgroup name group hg, (h.named.leading name group hg).2, rfl, rfl⟩
  · obtain ⟨group, hg⟩ := UMap.mem_iff_lookup.mp (h.consistent.pending_known name hp)
    exact ⟨_, _, hgroup name group hg, (h.named.leading name group hg).2⟩
  · rw [← h.consistent.indexed.member_iff]
    constructor
    · rintro ⟨group, hg, hb⟩
      exact ⟨_, _, hgroup name group hg, (h.named.leading name group hg).2, hb⟩
    · rintro ⟨a, e, he, hname, hb⟩
      obtain ⟨name', hname', hg, -⟩ := registry_eq_some.mp he
      rw [hname] at hname'
      cases hname'
      exact ⟨_, hg, hb⟩
  -- Two entries with an address in common have one name, and so one leading address.
  · intro a b e e' he he' hab c hc hc'
    obtain ⟨name, hname, hg, -⟩ := registry_eq_some.mp he
    obtain ⟨name', hname', hg', -⟩ := registry_eq_some.mp he'
    have heq := h.consistent.unique c name name' ⟨_, hg, hc⟩ ⟨_, hg', hc'⟩
    subst heq
    exact hab (h.named.injective a b name hname hname')

/-! ## Writes -/

/-- A registration is a write. -/
theorem Registers.registry {s t : EpochState P} {group : MrpGroup} {name : ProbeName}
    (hs : s.Valid) (h : s.Registers t group name)
    (hlead : AList.lookup (group.addrs.headD .null) s.mrpOutNames = some name) :
    t.registry = s.registry.write group.addrs group.moduli := by
  have hnames : t.mrpOutNames = s.mrpOutNames := by rw [h.frame]
  funext a
  unfold Registry.write
  split_ifs with ha
  · subst ha
    have hkeep : name ∈ t.pendingMrpGroups ↔ name ∈ s.pendingMrpGroups := by
      rw [h.pending]
      simp
    rw [registry_named (hnames ▸ hlead), registry_named hlead, h.known_self]
    rcases hg : AList.lookup name s.knownMrpGroups with _ | old
    · have hnot : name ∉ s.pendingMrpGroups := fun hp =>
        UMap.notMem_iff_lookup.mpr hg (hs.consistent.pending_known name hp)
      simp [hkeep, hnot]
    · simp [hkeep]
  · rcases hname : AList.lookup a s.mrpOutNames with _ | n
    · rw [registry_unnamed (hnames ▸ hname), registry_unnamed hname]
      rfl
    -- Another leading address has another name.
    have hn : n ≠ name := by
      rintro rfl
      exact ha (hs.named.injective _ _ n hname hlead)
    rw [registry_named (hnames ▸ hname), registry_named hname]
    by_cases ht : s.Touches group.addrs n
    · rw [h.known_gone n hn ht]
      obtain ⟨b, hb, old, hg, hmem⟩ := ht
      have hall : ¬ old.addrs.all (fun c => c ∉ group.addrs) = true := by
        rw [List.all_eq_true]
        exact fun hall => by simpa [hb] using hall b hmem
      rw [hg, Option.map_some, Option.map_none, Option.filter_some, if_neg hall]
    · rw [h.known_kept n hn ht]
      rcases hg : AList.lookup n s.knownMrpGroups with _ | old
      · rfl
      have hkeep : n ∈ t.pendingMrpGroups ↔ n ∈ s.pendingMrpGroups := by
        rw [h.pending]
        simp [ht]
      have hall : old.addrs.all (fun c => c ∉ group.addrs) = true := by
        rw [List.all_eq_true]
        intro c hc
        simp only [decide_eq_true_eq]
        exact fun hcg => ht ⟨c, hcg, old, hg, hc⟩
      rw [Option.map_some, Option.map_some, Option.filter_some, if_pos hall]
      simp [hkeep]

/-! ## Invalidations and tags -/

/-- Dropping every trace of an address is an invalidation. -/
theorem registry_invalidate {s : EpochState P} (hs : s.Valid) (a : DevAddr) :
    (s.invalidate a).registry = s.registry.invalidate a := by
  have he := evictGroupsOf_spec hs.consistent.indexed a
  have hframe := he.frame
  unfold EpochState.invalidate
  generalize s.evictGroupsOf a = t at he hframe
  have hnames : t.mrpOutNames = s.mrpOutNames := by rw [hframe]
  funext b
  unfold Registry.invalidate
  by_cases hb : b = a
  · -- The group that an address leads is one that it is in.
    subst hb
    rw [registry_unnamed (by dsimp only; rw [UMap.lookup_erase_ite, if_pos rfl])]
    rcases hr : s.registry b with _ | e
    · rfl
    obtain ⟨name, hname, hg, -⟩ := registry_eq_some.mp hr
    obtain ⟨hne, hlead⟩ := hs.named.leading name _ hg
    have hmem : b ∈ e.addrs := by
      rw [hs.named.injective b _ name hname hlead]
      exact headD_mem hne
    rw [Option.filter_some, if_neg (by simp [hmem])]
  -- An address that is not `a` keeps its name; its group goes exactly when `a` is a member.
  · have hlook : AList.lookup b (AList.erase a t.mrpOutNames) = AList.lookup b s.mrpOutNames := by
      rw [UMap.lookup_erase_ite, if_neg hb, hnames]
    rcases hname : AList.lookup b s.mrpOutNames with _ | n
    · rw [registry_unnamed (hlook.trans hname), registry_unnamed hname]
      rfl
    rw [registry_named (hlook.trans hname), registry_named hname]
    dsimp only
    by_cases hm : s.Member n a
    · rw [he.known_gone n hm]
      obtain ⟨old, hg, hmem⟩ := hm
      rw [hg, Option.map_some, Option.map_none, Option.filter_some, if_neg (by simp [hmem])]
    · rw [he.known_kept n hm]
      rcases hg : AList.lookup n s.knownMrpGroups with _ | old
      · rfl
      have hnot : a ∉ old.addrs := fun ha => hm ⟨old, hg, ha⟩
      have hkeep : n ∈ t.pendingMrpGroups ↔ n ∈ s.pendingMrpGroups := by
        rw [he.pending]
        simp [hm]
      rw [Option.map_some, Option.map_some, Option.filter_some, if_pos (by simp [hnot])]
      simp [hkeep]

/-- What tagging a group does to the registry's maps. -/
theorem tagGroup_registry (s : EpochState P) (name : ProbeName) :
    (s.tagGroup name).mrpOutNames = s.mrpOutNames ∧
      (s.tagGroup name).knownMrpGroups = s.knownMrpGroups ∧
      ∀ n, n ∈ (s.tagGroup name).pendingMrpGroups ↔
        n ∈ s.pendingMrpGroups ∨ n = name ∧ n ∈ s.knownMrpGroups := by
  unfold tagGroup
  rcases hg : AList.lookup name s.knownMrpGroups with _ | group
  · refine ⟨rfl, rfl, fun n => ⟨.inl, ?_⟩⟩
    rintro (hp | ⟨rfl, hn⟩)
    · exact hp
    · exact absurd hn (UMap.notMem_iff_lookup.mpr hg)
  · have hframe := (tagAll_spec s group.addrs).frame
    have hknown := UMap.mem_of_lookup hg
    dsimp only
    generalize group.addrs.foldl tagIfUntagged s = t at hframe
    refine ⟨by rw [hframe], by rw [hframe], fun n => ?_⟩
    rw [AList.mem_insert, hframe, or_comm]
    refine or_congr_right ⟨?_, fun h => h.1⟩
    rintro rfl
    exact ⟨rfl, hknown⟩

/-- Tagging groups tags those that are known, and changes no group. -/
theorem tagGroups_registry (s : EpochState P) (names : List ProbeName) :
    (names.foldl tagGroup s).mrpOutNames = s.mrpOutNames ∧
      (names.foldl tagGroup s).knownMrpGroups = s.knownMrpGroups ∧
      ∀ n, n ∈ (names.foldl tagGroup s).pendingMrpGroups ↔
        n ∈ s.pendingMrpGroups ∨ n ∈ names ∧ n ∈ s.knownMrpGroups := by
  induction names generalizing s with
  | nil => exact ⟨rfl, rfl, fun n => by simp⟩
  | cons name names ih =>
    obtain ⟨h₁, h₂, h₃⟩ := tagGroup_registry s name
    obtain ⟨h₁', h₂', h₃'⟩ := ih (s.tagGroup name)
    refine ⟨h₁'.trans h₁, h₂'.trans h₂, fun n => ?_⟩
    rw [List.foldl_cons, h₃', h₃, h₂, List.mem_cons]
    tauto

/-- Declaring an output is a tag. -/
theorem registry_tagOutput {s : EpochState P} (hs : s.Valid) (a : DevAddr) :
    (tagOutputLocked a s).2.registry = s.registry.tag a := by
  -- The tagged names are those of the groups that the address is in.
  have hspec : (tagOutputLocked a s).2.mrpOutNames = s.mrpOutNames ∧
      (tagOutputLocked a s).2.knownMrpGroups = s.knownMrpGroups ∧
      ∀ n, n ∈ (tagOutputLocked a s).2.pendingMrpGroups ↔
        n ∈ s.pendingMrpGroups ∨ s.Member n a := by
    unfold tagOutputLocked
    split_ifs with ha
    · rcases hl : AList.lookup a s.addrToMrpGroups with _ | names
      · have hframe := (tagIfUntagged_spec s a).frame
        refine ⟨by dsimp only; rw [hframe], by dsimp only; rw [hframe], fun n => ?_⟩
        dsimp only
        rw [hframe, hs.consistent.indexed.member_iff, hl]
        simp
      · obtain ⟨h₁, h₂, h₃⟩ := tagGroups_registry s names.keys
        refine ⟨h₁, h₂, fun n => ?_⟩
        rw [h₃, hs.consistent.indexed.member_iff, hl]
        simp only [Option.some.injEq, exists_eq_left', AList.mem_keys]
        refine or_congr_right ⟨fun h => h.1, fun hn => ⟨hn, ?_⟩⟩
        obtain ⟨group, hg, -⟩ := hs.consistent.indexed.member_iff.mpr ⟨names, hl, AList.mem_keys.mpr hn⟩
        exact UMap.mem_of_lookup hg
    · refine ⟨rfl, rfl, fun n => ⟨.inl, ?_⟩⟩
      rintro (hp | hm)
      · exact hp
      · exact absurd (hs.consistent.member_bound n a hm) ha
  obtain ⟨hnames, hknown, hpending⟩ := hspec
  funext b
  unfold Registry.tag
  rcases hname : AList.lookup b s.mrpOutNames with _ | n
  · rw [registry_unnamed (hnames ▸ hname), registry_unnamed hname]
    rfl
  rw [registry_named (hnames ▸ hname), registry_named hname, hknown]
  rcases hg : AList.lookup n s.knownMrpGroups with _ | group
  · rfl
  have hmem : s.Member n a ↔ a ∈ group.addrs := by
    unfold Member
    simp [hg]
  simp [hpending, hmem]

/-- A name that no address had until now is that of no group. -/
theorem registry_nameGroup {s : EpochState P} (hs : s.Valid) (output : Bool) (leading : DevAddr) :
    (mrpGroupNameLocked output leading s).2.registry = s.registry := by
  unfold mrpGroupNameLocked
  split_ifs
  · rcases hl : AList.lookup leading s.mrpOutNames with _ | name
    -- A fresh name has no group yet, so nothing appears in the registry with it.
    · have hnew : AList.lookup (ProbeName.hazeMrpOut s.mrpOutNameCounter) s.knownMrpGroups = none := by
        rcases hg : AList.lookup (ProbeName.hazeMrpOut s.mrpOutNameCounter) s.knownMrpGroups
          with _ | group
        · rfl
        obtain ⟨k, hk, heq⟩ := hs.named.fresh _ _ (hs.named.leading _ group hg).2
        cases heq
        exact absurd hk (Nat.lt_irrefl _)
      funext a
      by_cases ha : a = leading
      · subst ha
        rw [registry_named (by dsimp only; exact AList.lookup_insert _), registry_unnamed hl]
        dsimp only
        rw [hnew, Option.map_none]
      · have hlook : AList.lookup a (AList.insert leading (.hazeMrpOut s.mrpOutNameCounter)
            s.mrpOutNames) = AList.lookup a s.mrpOutNames := by
          rw [UMap.lookup_insert_ite, if_neg ha]
        unfold registry
        dsimp only
        rw [hlook]
    · rfl
  · rcases AList.lookup leading s.mrpInNames with _ | name <;> rfl

/-- Every action where it is issued is its operation on the registry. -/
theorem registry_act {s : EpochState P} (hs : s.Valid) (x : EpochAction P) (hx : s.Issued x) :
    (s.act x).registry = x.registry s.registry := by
  cases x with
  | nameGroup output leading => exact registry_nameGroup hs output leading
  | register addrs moduli name =>
    obtain ⟨t, ht, hreg⟩ := register_spec hs.consistent hx.1 name
    rw [EpochState.act, ht]
    exact hreg.registry hs hx.2.2.1
  | tagOutput a => exact registry_tagOutput hs a
  | invalidate a => exact registry_invalidate hs a
  | _ => rfl

end EpochState

end Haze
