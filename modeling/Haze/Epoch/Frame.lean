import Haze.Epoch.Invariant

/-!
# What an action leaves alone

The registry of groups and the output tags are apart from the bindings: an action on one leaves the
other as it is. `bindings_act` says what each action does to the bindings of addresses.
-/

namespace Haze

namespace EpochState

variable {P : Type}

/-- What says how the addresses are bound, and whether the compiler is recording. -/
def bindings (s : EpochState P) : UMap DevAddr P × Finset DevAddr × Bool :=
  (s.polyMap, s.inputAddrs, s.recording)

/-- A part of the state that neither the registry of groups nor the output tags belong to. -/
structure Apart {γ : Type} (f : EpochState P → γ) : Prop where
  registry : ∀ {s t : EpochState P}, s.RegistryOnly t → f t = f s
  tags : ∀ {s t : EpochState P} {added : DevAddr → Prop}, s.TagsAdded t added → f t = f s

namespace Apart

variable {γ : Type} {f : EpochState P → γ}

/-- What each step of a fold leaves alone, the fold leaves alone. -/
theorem foldl {β : Type} {step : EpochState P → β → EpochState P}
    (hstep : ∀ s b, f (step s b) = f s) (bs : List β) (s : EpochState P) :
    f (bs.foldl step s) = f s := by
  induction bs generalizing s with
  | nil => rfl
  | cons b bs ih => rw [List.foldl_cons, ih, hstep]

/-- Evicting the groups of an address keeps what is apart from the registry. -/
theorem evictGroupsOf (hf : Apart f) (a : DevAddr) (s : EpochState P) :
    f (s.evictGroupsOf a) = f s := by
  unfold EpochState.evictGroupsOf
  rcases AList.lookup a s.addrToMrpGroups with _ | names
  · rfl
  · have herase : f { s with addrToMrpGroups := AList.erase a s.addrToMrpGroups } = f s :=
      hf.registry rfl
    exact (hf.registry (evictAll_spec _ names.keys).frame).trans herase

/-- So does evicting the groups that conflict with one. -/
theorem evictConflicting (hf : Apart f) (name : ProbeName) (s : EpochState P) (a : DevAddr) :
    f (s.evictConflicting name a) = f s := by
  unfold EpochState.evictConflicting
  rcases AList.lookup a s.addrToMrpGroups with _ | names
  · rfl
  · exact hf.registry (evictAll_spec s _).frame

/-- So does tagging a group. -/
theorem tagGroup (hf : Apart f) (s : EpochState P) (name : ProbeName) :
    f (s.tagGroup name) = f s := by
  unfold EpochState.tagGroup
  rcases AList.lookup name s.knownMrpGroups with _ | group
  · rfl
  · have htags := hf.tags (tagAll_spec s group.addrs)
    have hpending : ∀ t names, f { t with pendingMrpGroups := names } = f t := fun t names =>
      hf.registry rfl
    exact (hpending _ _).trans htags

/-- So does tagging an output. -/
theorem tagOutput (hf : Apart f) (a : DevAddr) (s : EpochState P) :
    f (tagOutputLocked a s).2 = f s := by
  unfold tagOutputLocked
  split_ifs
  · rcases AList.lookup a s.addrToMrpGroups with _ | names
    · exact hf.tags (tagIfUntagged_spec s a)
    · exact foldl hf.tagGroup names.keys s
  · rfl

/-- So does registering a group. -/
theorem register (hf : Apart f) (addrs : List DevAddr) (moduli : List UInt64) (name : ProbeName)
    (s : EpochState P) : f (registerMrpOutputGroupLocked addrs moduli name s).2 = f s := by
  have hsweep := foldl (hf.evictConflicting name) addrs s
  have hclaim : ∀ t group, f (claimGroup group name t) = f t := fun t group => hf.registry rfl
  have hwithdraw : ∀ t group, f (withdrawClaims group name t) = f t := fun t group =>
    hf.registry rfl
  unfold registerMrpOutputGroupLocked
  split_ifs
  · rfl
  rcases AList.lookup name s.knownMrpGroups with _ | existing
  · exact (hclaim _ _).trans hsweep
  have hshape : f ((withdrawClaims existing name
      (addrs.foldl (EpochState.evictConflicting name) s)).claimGroup ⟨addrs, moduli⟩ name) = f s :=
    (hclaim _ _).trans ((hwithdraw _ _).trans hsweep)
  dsimp only
  split_ifs
  · rfl
  · exact (hf.tags (tagAll_spec _ addrs)).trans hshape
  · exact hshape

end Apart

/-- The bindings are apart from the registry. -/
theorem apart_bindings : Apart (@bindings P) where
  registry h := by
    unfold RegistryOnly at h
    rw [h]
    rfl
  tags h := by
    rw [h.frame]
    rfl

/-- Evicting groups keeps the bindings. -/
theorem evictGroupsOf_bindings (a : DevAddr) (s : EpochState P) :
    (s.evictGroupsOf a).bindings = s.bindings := apart_bindings.evictGroupsOf a s

/-- Tagging an output keeps the bindings. -/
theorem tagOutput_bindings (a : DevAddr) (s : EpochState P) :
    (tagOutputLocked a s).2.bindings = s.bindings := apart_bindings.tagOutput a s

/-- Registering a group keeps the bindings. -/
theorem register_bindings (addrs : List DevAddr) (moduli : List UInt64) (name : ProbeName)
    (s : EpochState P) :
    (registerMrpOutputGroupLocked addrs moduli name s).2.bindings = s.bindings :=
  apart_bindings.register addrs moduli name s

/-- The names of the groups that addresses lead. -/
def groupNames (s : EpochState P) : UMap DevAddr ProbeName × UMap DevAddr ProbeName :=
  (s.mrpInNames, s.mrpOutNames)

/-- The names of the groups are apart from the registry. -/
theorem apart_groupNames : Apart (@groupNames P) where
  registry h := by
    unfold RegistryOnly at h
    rw [h]
    rfl
  tags h := by
    rw [h.frame]
    rfl

/-- The recorded moduli are apart from the registry. -/
theorem apart_addrModulus : Apart (@addrModulus P) where
  registry h := by
    unfold RegistryOnly at h
    rw [h]
  tags h := by rw [h.frame]

/-- Naming a group keeps the bindings. -/
theorem nameGroup_bindings (output : Bool) (leading : DevAddr) (s : EpochState P) :
    (mrpGroupNameLocked output leading s).2.bindings = s.bindings := by
  unfold mrpGroupNameLocked
  split_ifs
  · rcases AList.lookup leading s.mrpOutNames with _ | name <;> rfl
  · rcases AList.lookup leading s.mrpInNames with _ | name <;> rfl

/-- The effect of an action on the bindings. -/
theorem bindings_act (s : EpochState P) (x : EpochAction P) : (s.act x).bindings = match x with
    | .bindInput a poly => (AList.insert a poly s.polyMap, insert a s.inputAddrs, s.recording)
    | .store a poly _ => (AList.insert a poly s.polyMap, s.inputAddrs.erase a, s.recording)
    | .invalidate a => (AList.erase a s.polyMap, s.inputAddrs.erase a, s.recording)
    | .clear => (∅, ∅, false)
    | _ => s.bindings := by
  cases x with
  | nameGroup output leading => exact nameGroup_bindings output leading s
  | register addrs moduli name => exact register_bindings addrs moduli name s
  | tagOutput a => exact tagOutput_bindings a s
  | invalidate a =>
    have h := evictGroupsOf_bindings a s
    simp only [bindings, Prod.mk.injEq] at h
    simp only [EpochState.act, EpochState.invalidate, bindings, h]
  | _ => rfl

/-! ## The known groups -/

/-- Every group that is known in the second state is known in the first. -/
def KnownIn (s t : EpochState P) : Prop :=
  ∀ n g, AList.lookup n t.knownMrpGroups = some g → AList.lookup n s.knownMrpGroups = some g

namespace KnownIn

/-- The groups are known in their own state. -/
theorem refl (s : EpochState P) : s.KnownIn s := fun _ _ h => h

/-- What is known in a state is known in a state that it is known from. -/
theorem trans {s t u : EpochState P} (h : s.KnownIn t) (h' : t.KnownIn u) : s.KnownIn u :=
  fun n g hg => h n g (h' n g hg)

/-- States with the same groups know the same. -/
theorem of_eq {s t : EpochState P} (h : t.knownMrpGroups = s.knownMrpGroups) : s.KnownIn t :=
  fun _ _ hg => h ▸ hg

/-- A fold of steps that enter no group enters none. -/
theorem foldl {β : Type} {step : EpochState P → β → EpochState P}
    (hstep : ∀ (s : EpochState P) b, s.KnownIn (step s b)) (bs : List β) (s : EpochState P) :
    s.KnownIn (bs.foldl step s) := by
  induction bs generalizing s with
  | nil => exact refl s
  | cons b bs ih => exact (hstep s b).trans (ih _)

/-- Evicting a group makes none known. -/
theorem evict (s : EpochState P) (name : ProbeName) : s.KnownIn (s.evictMrpGroupLocked name) := by
  unfold evictMrpGroupLocked
  rcases AList.lookup name s.knownMrpGroups with _ | group
  · exact refl s
  · intro n g hg
    change AList.lookup n (AList.erase name s.knownMrpGroups) = some g at hg
    rw [UMap.lookup_erase_ite] at hg
    split_ifs at hg
    exact hg

/-- Evicting the groups of an address makes none known. -/
theorem evictGroupsOf (a : DevAddr) (s : EpochState P) : s.KnownIn (s.evictGroupsOf a) := by
  unfold EpochState.evictGroupsOf
  rcases AList.lookup a s.addrToMrpGroups with _ | names
  · exact refl s
  · exact foldl evict names.keys { s with addrToMrpGroups := AList.erase a s.addrToMrpGroups }

/-- Nor does evicting those that conflict with one. -/
theorem evictConflicting (name : ProbeName) (s : EpochState P) (a : DevAddr) :
    s.KnownIn (s.evictConflicting name a) := by
  unfold EpochState.evictConflicting
  rcases AList.lookup a s.addrToMrpGroups with _ | names
  · exact refl s
  · exact foldl evict _ s

/-- Nor does adding tags. -/
theorem tags {s t : EpochState P} {added : DevAddr → Prop} (h : s.TagsAdded t added) :
    s.KnownIn t :=
  of_eq (by rw [h.frame])

/-- Nor does tagging an output. -/
theorem tagOutput (a : DevAddr) (s : EpochState P) : s.KnownIn (tagOutputLocked a s).2 := by
  have hgroup : ∀ (s : EpochState P) name, s.KnownIn (s.tagGroup name) := by
    intro s name
    unfold EpochState.tagGroup
    rcases AList.lookup name s.knownMrpGroups with _ | group
    · exact refl s
    · exact (tags (tagAll_spec s group.addrs)).trans (of_eq rfl)
  unfold tagOutputLocked
  split_ifs
  · rcases AList.lookup a s.addrToMrpGroups with _ | names
    · exact tags (tagIfUntagged_spec s a)
    · exact foldl hgroup names.keys s
  · exact refl s

/-- A group is entered under the name that it is registered with. -/
theorem register {addrs : List DevAddr} {moduli : List UInt64} {name n : ProbeName}
    {s : EpochState P} {g : MrpGroup} (h : AList.lookup n
      (registerMrpOutputGroupLocked addrs moduli name s).2.knownMrpGroups = some g) :
    AList.lookup n s.knownMrpGroups = some g ∨ g = ⟨addrs, moduli⟩ := by
  -- A group is claimed after the sweep, which only takes groups away.
  have hclaim : ∀ t : EpochState P, s.KnownIn t →
      AList.lookup n (AList.insert name ⟨addrs, moduli⟩ t.knownMrpGroups) = some g →
        AList.lookup n s.knownMrpGroups = some g ∨ g = ⟨addrs, moduli⟩ := by
    intro t ht hg
    rw [UMap.lookup_insert_ite] at hg
    split_ifs at hg
    · exact .inr (Option.some.inj hg).symm
    · exact .inl (ht n g hg)
  have hsweep : s.KnownIn (addrs.foldl (EpochState.evictConflicting name) s) :=
    foldl (evictConflicting name) addrs s
  unfold registerMrpOutputGroupLocked at h
  split_ifs at h
  · exact .inl h
  -- The name is new, or known with the same group, or known with another one.
  rcases he : AList.lookup name s.knownMrpGroups with _ | existing <;> rw [he] at h
  · exact hclaim _ hsweep h
  dsimp only at h
  split_ifs at h
  · exact .inl h
  · exact hclaim _ hsweep (tags (tagAll_spec _ addrs) n g h)
  · exact hclaim _ hsweep h

end KnownIn

/-- A group that is known after an action was known before, or was registered by it. -/
theorem known_act {s : EpochState P} {x : EpochAction P} {n : ProbeName} {g : MrpGroup}
    (h : AList.lookup n (s.act x).knownMrpGroups = some g) :
    AList.lookup n s.knownMrpGroups = some g ∨
      ∃ addrs moduli name, x = .register addrs moduli name ∧ g = ⟨addrs, moduli⟩ := by
  cases x with
  | register addrs moduli name =>
    exact (KnownIn.register h).imp_right fun hg => ⟨addrs, moduli, name, rfl, hg⟩
  | tagOutput a => exact .inl (KnownIn.tagOutput a s n g h)
  | invalidate a => exact .inl (KnownIn.evictGroupsOf a s n g h)
  | nameGroup output leading =>
    change AList.lookup n (mrpGroupNameLocked output leading s).2.knownMrpGroups = some g at h
    unfold mrpGroupNameLocked at h
    split_ifs at h
    · rcases hl : AList.lookup leading s.mrpOutNames with _ | name <;> rw [hl] at h <;> exact .inl h
    · rcases hl : AList.lookup leading s.mrpInNames with _ | name <;> rw [hl] at h <;> exact .inl h
  | clear => cases h
  | _ => exact .inl h

end EpochState

end Haze
