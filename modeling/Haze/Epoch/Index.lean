import Haze.Core.Epoch

/-!
# The reverse index and the eviction of groups

`Indexed` says that the reverse index is the inverse of group membership and has no empty entry.
Evicting a group keeps it and erases that group only (`evict_spec`), so a loop of evictions over a
list of names erases exactly the groups of that list (`evictAll_spec`), whatever the loop does to
the index that it is run from.
-/

namespace Haze

namespace EpochState

variable {P : Type}

/-- A group's name is in the index entry of an address. -/
def Claims (index : UMap DevAddr (USet ProbeName)) (a : DevAddr) (name : ProbeName) : Prop :=
  ∃ names, AList.lookup a index = some names ∧ name ∈ names

/-- No entry of the index is empty. -/
def NoEmpty (index : UMap DevAddr (USet ProbeName)) : Prop :=
  ∀ a names, AList.lookup a index = some names → names ≠ ∅

/-- An address is a member of the group of a name. -/
def Member (s : EpochState P) (name : ProbeName) (a : DevAddr) : Prop :=
  ∃ group, AList.lookup name s.knownMrpGroups = some group ∧ a ∈ group.addrs

/-! ## Claims -/

section Claims

variable {index : UMap DevAddr (USet ProbeName)} {a m : DevAddr} {name n : ProbeName}

/-- An erased address has no claims, and the others keep theirs. -/
theorem claims_erase : Claims (AList.erase m index) a name ↔ Claims index a name ∧ a ≠ m := by
  unfold Claims
  rw [UMap.lookup_erase_ite]
  split_ifs with h <;> simp [h]

/-- Erasing an address leaves no empty entry. -/
theorem noEmpty_erase (h : NoEmpty index) : NoEmpty (AList.erase m index) := by
  intro b names hb
  rw [UMap.lookup_erase_ite] at hb
  split_ifs at hb
  exact h b names hb

/-- Dropping one claim drops that claim. -/
theorem claims_dropClaim :
    Claims (dropClaim n index m) a name ↔ Claims index a name ∧ ¬ (a = m ∧ name = n) := by
  unfold dropClaim
  -- The address claims nothing, or the set of names it claims.
  rcases hm : AList.lookup m index with _ | names
  · refine ⟨fun h => ⟨h, ?_⟩, fun h => h.1⟩
    rintro ⟨rfl, -⟩
    obtain ⟨names, hl, -⟩ := h
    rw [hm] at hl
    cases hl
  · dsimp only
    have hmem : ∀ b, b ∈ AList.erase n names ↔ b ∈ names ∧ b ≠ n := fun b =>
      AList.mem_erase.trans and_comm
    -- A set that has become empty is erased, so that no address is left with an empty set.
    split_ifs with hempty
    · rw [claims_erase]
      refine and_congr_right fun hc => ⟨fun hne h => hne h.1, fun h ha => h ⟨ha, ?_⟩⟩
      subst ha
      obtain ⟨names', hl, hname⟩ := hc
      rw [hm] at hl
      cases hl
      by_contra hn
      have : name ∈ AList.erase n names := (hmem name).mpr ⟨hname, hn⟩
      rw [hempty] at this
      exact AList.notMem_empty name this
    · unfold Claims
      rw [UMap.lookup_insert_ite]
      split_ifs with ha
      · subst ha
        simp [hm, hmem]
      · simp [ha]

/-- Dropping a claim leaves no empty entry. -/
theorem noEmpty_dropClaim (h : NoEmpty index) : NoEmpty (dropClaim n index m) := by
  unfold dropClaim
  rcases hm : AList.lookup m index with _ | names
  · exact h
  · dsimp only
    split_ifs with hempty
    · exact noEmpty_erase h
    · intro b names' hb
      rw [UMap.lookup_insert_ite] at hb
      split_ifs at hb
      · cases hb
        exact hempty
      · exact h b names' hb

/-- Dropping the claims of a name on some addresses drops these alone. -/
theorem claims_dropClaims {ms : List DevAddr} :
    Claims (ms.foldl (dropClaim n) index) a name ↔
      Claims index a name ∧ ¬ (a ∈ ms ∧ name = n) := by
  induction ms generalizing index with
  | nil => simp
  | cons m ms ih =>
    rw [List.foldl_cons, ih, claims_dropClaim, List.mem_cons]
    tauto

/-- Dropping claims leaves no empty entry. -/
theorem noEmpty_dropClaims {ms : List DevAddr} (h : NoEmpty index) :
    NoEmpty (ms.foldl (dropClaim n) index) := by
  induction ms generalizing index with
  | nil => exact h
  | cons m ms ih => exact ih (noEmpty_dropClaim h)

/-- Adding one claim adds that claim. -/
theorem claims_addClaim :
    Claims (addClaim n index m) a name ↔ Claims index a name ∨ (a = m ∧ name = n) := by
  unfold addClaim Claims
  rw [UMap.lookup_insert_ite]
  split_ifs with ha
  · subst ha
    simp only [Option.some.injEq, exists_eq_left', AList.mem_insert, true_and]
    rcases AList.lookup a index with _ | names
    · simp only [Option.getD_none, AList.notMem_empty, reduceCtorEq, false_and, exists_false, or_false,
        false_or]
    · simp only [Option.getD_some, Option.some.injEq, exists_eq_left', or_comm]
  · simp [ha]

/-- Adding a claim leaves no empty entry. -/
theorem noEmpty_addClaim (h : NoEmpty index) : NoEmpty (addClaim n index m) := by
  intro b names hb
  unfold addClaim at hb
  rw [UMap.lookup_insert_ite] at hb
  split_ifs at hb
  · cases hb
    intro he
    have : n ∈ AList.insert n () ((AList.lookup m index).getD ∅) := (AList.mem_insert _).mpr (.inl rfl)
    rw [he] at this
    exact AList.notMem_empty n this
  · exact h b names hb

/-- Adding the claims of a name on some addresses adds these alone. -/
theorem claims_addClaims {ms : List DevAddr} :
    Claims (ms.foldl (addClaim n) index) a name ↔
      Claims index a name ∨ (a ∈ ms ∧ name = n) := by
  induction ms generalizing index with
  | nil => simp
  | cons m ms ih =>
    rw [List.foldl_cons, ih, claims_addClaim, List.mem_cons]
    tauto

/-- Adding claims leaves no empty entry. -/
theorem noEmpty_addClaims {ms : List DevAddr} (h : NoEmpty index) :
    NoEmpty (ms.foldl (addClaim n) index) := by
  induction ms generalizing index with
  | nil => exact h
  | cons m ms ih => exact ih (noEmpty_addClaim h)

end Claims

/-! ## Eviction -/

/-- Outside of the addresses in `except`, the index is the inverse of group membership; those have
no entry. No entry is empty. -/
structure IndexedExcept (s : EpochState P) (except : DevAddr → Prop) : Prop where
  claims : ∀ a name, Claims s.addrToMrpGroups a name ↔ s.Member name a ∧ ¬ except a
  noEmpty : NoEmpty s.addrToMrpGroups

/-- The index is the inverse of group membership. -/
abbrev Indexed (s : EpochState P) : Prop := s.IndexedExcept fun _ => False

/-- Two states differ in the registry of groups at most. -/
def RegistryOnly (s t : EpochState P) : Prop :=
  t = { s with
    addrToMrpGroups := t.addrToMrpGroups
    knownMrpGroups := t.knownMrpGroups
    pendingMrpGroups := t.pendingMrpGroups }

/-- A state differs from itself in nothing. -/
theorem RegistryOnly.refl (s : EpochState P) : s.RegistryOnly s := rfl

/-- Two changes in the registry alone are one. -/
theorem RegistryOnly.trans {s t u : EpochState P} (h : s.RegistryOnly t) (h' : t.RegistryOnly u) :
    s.RegistryOnly u := by
  unfold RegistryOnly at h h' ⊢
  rw [h', h]

/-- What an eviction of the groups of some names leaves: those groups are gone from the registry,
the others stay, and the index stays the inverse of membership. -/
structure Evicted (s t : EpochState P) (gone : ProbeName → Prop) : Prop where
  frame : s.RegistryOnly t
  known_gone : ∀ name, gone name → AList.lookup name t.knownMrpGroups = none
  known_kept : ∀ name, ¬ gone name →
    AList.lookup name t.knownMrpGroups = AList.lookup name s.knownMrpGroups
  pending : ∀ name, name ∈ t.pendingMrpGroups ↔ name ∈ s.pendingMrpGroups ∧
    ¬ (gone name ∧ name ∈ s.knownMrpGroups)
  indexed : ∀ except, s.IndexedExcept except → t.IndexedExcept except

/-- Evicting nothing evicts nothing. -/
theorem Evicted.refl (s : EpochState P) : s.Evicted s fun _ => False where
  frame := .refl s
  known_gone _ h := h.elim
  known_kept _ _ := rfl
  pending _ := by simp
  indexed _ h := h

/-- The members that are left are those of the groups that were not evicted. -/
theorem Evicted.member {s t : EpochState P} {gone : ProbeName → Prop} (h : s.Evicted t gone)
    {name : ProbeName} {a : DevAddr} : t.Member name a ↔ s.Member name a ∧ ¬ gone name := by
  unfold Member
  by_cases hg : gone name
  · simp [h.known_gone name hg, hg]
  · simp [h.known_kept name hg, hg]

/-- The groups that are left are those that were not evicted. -/
theorem Evicted.known_mem {s t : EpochState P} {gone : ProbeName → Prop} (h : s.Evicted t gone)
    {name : ProbeName} : name ∈ t.knownMrpGroups ↔ name ∈ s.knownMrpGroups ∧ ¬ gone name := by
  rw [UMap.mem_iff_lookup, UMap.mem_iff_lookup]
  by_cases hg : gone name
  · simp [h.known_gone name hg, hg]
  · simp [h.known_kept name hg, hg]

/-- Two evictions are one of all groups of both. -/
theorem Evicted.trans {s t u : EpochState P} {gone gone' : ProbeName → Prop}
    (h : s.Evicted t gone) (h' : t.Evicted u gone') :
    s.Evicted u fun name => gone name ∨ gone' name where
  frame := h.frame.trans h'.frame
  known_gone name hg := by
    by_cases hg' : gone' name
    · exact h'.known_gone name hg'
    · rw [h'.known_kept name hg']
      exact h.known_gone name (hg.resolve_right hg')
  known_kept name hg := by
    rw [not_or] at hg
    rw [h'.known_kept name hg.2, h.known_kept name hg.1]
  pending name := by
    rw [h'.pending, h.pending, h.known_mem]
    tauto
  indexed except hi := h'.indexed except (h.indexed except hi)

/-- Only which names are gone matters. -/
theorem Evicted.congr {s t : EpochState P} {gone gone' : ProbeName → Prop} (h : s.Evicted t gone)
    (hg : ∀ name, gone name ↔ gone' name) : s.Evicted t gone' := by
  have : gone = gone' := funext fun name => propext (hg name)
  rwa [← this]

/-- One eviction erases one group. -/
theorem evict_spec (s : EpochState P) (name : ProbeName) :
    s.Evicted (s.evictMrpGroupLocked name) (· = name) := by
  unfold evictMrpGroupLocked
  -- A name that is not known has no claims to take back.
  rcases hg : AList.lookup name s.knownMrpGroups with _ | group
  · refine ⟨.refl s, ?_, fun _ _ => rfl, fun n => ?_, fun _ h => h⟩
    · rintro n rfl
      exact hg
    · have : name ∉ s.knownMrpGroups := UMap.notMem_iff_lookup.mpr hg
      refine ⟨fun h => ⟨h, ?_⟩, fun h => h.1⟩
      rintro ⟨rfl, hn⟩
      exact this hn
  -- The group leaves the known groups, the pending ones and the claims together.
  · refine ⟨rfl, ?_, ?_, fun n => ?_, fun except h => ⟨fun a n => ?_, noEmpty_dropClaims h.noEmpty⟩⟩
    · rintro n rfl
      simp
    · intro n hn
      simp [hn]
    · have hknown : name ∈ s.knownMrpGroups := UMap.mem_of_lookup hg
      dsimp only
      rw [AList.mem_erase]
      refine ⟨fun h => ⟨h.2, fun h' => h.1 h'.1⟩, fun h => ⟨?_, h.1⟩⟩
      rintro rfl
      exact h.2 ⟨rfl, hknown⟩
    · dsimp only
      rw [claims_dropClaims, h.claims]
      unfold Member
      dsimp only
      rw [UMap.lookup_erase_ite]
      by_cases hn : n = name
      · subst hn
        simp only [hg, Option.some.injEq, exists_eq_left', if_true]
        tauto
      · simp [hn]

/-- A loop of evictions erases the groups of its names. -/
theorem evictAll_spec (s : EpochState P) (names : List ProbeName) :
    s.Evicted (names.foldl evictMrpGroupLocked s) (· ∈ names) := by
  induction names generalizing s with
  | nil => exact (Evicted.refl s).congr fun _ => by simp
  | cons name names ih =>
    exact ((evict_spec s name).trans (ih _)).congr fun n => by simp [List.mem_cons]

/-- The groups of an address are the names of its index entry. -/
theorem Indexed.member_iff {s : EpochState P} (h : s.Indexed) {a : DevAddr} {name : ProbeName} :
    s.Member name a ↔ ∃ names, AList.lookup a s.addrToMrpGroups = some names ∧ name ∈ names := by
  have := h.claims a name
  rw [and_iff_left id] at this
  exact this.symm

/-- Dropping the groups of an address erases those that it is a member of. -/
theorem evictGroupsOf_spec {s : EpochState P} (h : s.Indexed) (a : DevAddr) :
    s.Evicted (s.evictGroupsOf a) (s.Member · a) := by
  unfold evictGroupsOf
  rcases hl : AList.lookup a s.addrToMrpGroups with _ | names
  · refine (Evicted.refl s).congr fun name => ?_
    rw [h.member_iff, hl]
    simp
  · have hmem : ∀ name, s.Member name a ↔ name ∈ names := by
      intro name
      rw [h.member_iff, hl]
      simp
    -- Without the entry of `a` the index is exact but for `a`, and in the end no group has `a`.
    obtain ⟨t, ht⟩ : ∃ t, t = { s with addrToMrpGroups := AList.erase a s.addrToMrpGroups } := ⟨_, rfl⟩
    have hspec : t.Evicted (names.keys.foldl evictMrpGroupLocked t) (s.Member · a) :=
      (evictAll_spec t names.keys).congr fun name => AList.mem_keys.trans (hmem name).symm
    rw [← ht]
    have hts : s.RegistryOnly t := by rw [ht]; rfl
    have hknown : t.knownMrpGroups = s.knownMrpGroups := by rw [ht]
    have hpending : t.pendingMrpGroups = s.pendingMrpGroups := by rw [ht]
    have htm : ∀ name b, t.Member name b ↔ s.Member name b := fun name b => by
      unfold Member
      rw [hknown]
    refine ⟨hts.trans hspec.frame, hspec.known_gone, fun name hg => ?_, fun name => ?_,
      fun except hi => ?_⟩
    · rw [hspec.known_kept name hg, hknown]
    · rw [hspec.pending, hknown, hpending]
    · have he : t.IndexedExcept (fun b => except b ∨ b = a) := by
        refine ⟨fun b name => ?_, ?_⟩
        · rw [htm, ht, claims_erase, hi.claims b name, not_or, and_assoc]
        · rw [ht]
          exact noEmpty_erase hi.noEmpty
      have hu := hspec.indexed _ he
      refine ⟨fun b name => ?_, hu.noEmpty⟩
      rw [hu.claims, hspec.member, htm]
      constructor
      · rintro ⟨hm, hb⟩
        exact ⟨hm, fun he => hb (.inl he)⟩
      · rintro ⟨⟨hm, hn⟩, hb⟩
        refine ⟨⟨hm, hn⟩, not_or.mpr ⟨hb, ?_⟩⟩
        rintro rfl
        exact hn hm

/-! ## Registration -/

/-- The members of a list of addresses have a group in common with the name. -/
def Touches (s : EpochState P) (addrs : List DevAddr) (name : ProbeName) : Prop :=
  ∃ a ∈ addrs, s.Member name a

/-- Evicting for a name drops every other group that has the address. -/
theorem evictConflicting_spec {s : EpochState P} (h : s.Indexed) (name : ProbeName) (a : DevAddr) :
    s.Evicted (s.evictConflicting name a) fun n => n ≠ name ∧ s.Member n a := by
  unfold evictConflicting
  rcases hl : AList.lookup a s.addrToMrpGroups with _ | names
  · refine (Evicted.refl s).congr fun n => ?_
    rw [h.member_iff, hl]
    simp
  · refine (evictAll_spec s _).congr fun n => ?_
    rw [h.member_iff, hl, List.mem_filter]
    simp [AList.mem_keys, and_comm]

/-- The conflict sweep erases every other group that has one of the addresses. -/
theorem sweep_spec {s : EpochState P} (h : s.Indexed) (name : ProbeName) (addrs : List DevAddr) :
    s.Evicted (addrs.foldl (evictConflicting name) s) fun n => n ≠ name ∧ s.Touches addrs n := by
  induction addrs generalizing s with
  | nil => exact (Evicted.refl s).congr fun n => by simp [Touches]
  | cons a addrs ih =>
    have hone := evictConflicting_spec h name a
    refine (hone.trans (ih (hone.indexed _ h))).congr fun n => ?_
    unfold Touches
    simp only [hone.member, List.mem_cons, exists_eq_or_imp]
    by_cases hn : n = name
    · simp [hn]
    · by_cases ha : s.Member n a <;> simp [hn, ha]

/-- Enter a group's new shape, withdrawing the claims of the shape that it had. -/
def replaceGroup (existing : Option MrpGroup) (group : MrpGroup) (name : ProbeName)
    (s : EpochState P) : EpochState P :=
  match existing with
  | some old => (s.withdrawClaims old name).claimGroup group name
  | none => s.claimGroup group name

/-- Replacing a group's shape keeps the index exact. -/
theorem replaceGroup_indexed {s : EpochState P} (h : s.Indexed) (group : MrpGroup)
    (name : ProbeName) :
    Indexed (s.replaceGroup (AList.lookup name s.knownMrpGroups) group name) := by
  -- After the replacement the name stands for the new group, and the others for what they did.
  have hmember : ∀ n a, Member ({ s with
      knownMrpGroups := AList.insert name group s.knownMrpGroups }) n a ↔
      (n ≠ name ∧ s.Member n a) ∨ (n = name ∧ a ∈ group.addrs) := by
    intro n a
    unfold Member
    rw [UMap.lookup_insert_ite]
    split_ifs with hn <;> simp [hn]
  -- The claims of the old group are taken back before the new ones are made.
  rcases he : AList.lookup name s.knownMrpGroups with _ | old
  · have hnone : ∀ a, ¬ s.Member name a := fun a => by
      unfold Member
      simp [he]
    refine ⟨fun a n => ?_, noEmpty_addClaims h.noEmpty⟩
    refine Iff.trans claims_addClaims (Iff.trans ?_ (and_congr_left' (hmember n a)).symm)
    rw [h.claims]
    by_cases hn : n = name
    · subst hn
      simp [hnone]
    · simp [hn]
  · refine ⟨fun a n => ?_, noEmpty_addClaims (noEmpty_dropClaims h.noEmpty)⟩
    refine Iff.trans claims_addClaims (Iff.trans ?_ (and_congr_left' (hmember n a)).symm)
    refine Iff.trans (or_congr_left (Iff.trans claims_dropClaims (and_congr_left' (h.claims a n)))) ?_
    by_cases hn : n = name
    · subst hn
      have hold : s.Member n a ↔ a ∈ old.addrs := by
        unfold Member
        simp [he]
      simp [hold]
    · simp [hn]

end EpochState

end Haze
