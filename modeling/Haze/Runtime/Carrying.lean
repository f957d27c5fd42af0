import Haze.Runtime.Flush
import Haze.Runtime.Keeping

/-!
# What the values of a run keep to

A domain that the library and the configuration keep to (`Domain.Closed`) holds every value of the
state (`World.Carries`): the bindings, the recorded moduli, those of the known groups, which a flush
exports, and what the compiler's calls since its captures were last dropped carry. A call keeps this
where the operations that it applies stay in the domain (`Carries.after`).
-/

namespace Haze

variable {P M : Type}

/-! ## The bases of the basis conversions -/

/-- A base that is accepted is given and has elements. -/
theorem nonemptyBase_ok {base : Option (List UInt64)} {qs : List UInt64}
    (h : nonemptyBase base = .ok qs) : base = some qs ∧ qs ≠ [] := by
  rcases base with _ | _ | ⟨q, base⟩
  · cases h
  · cases h
  · cases h
    exact ⟨rfl, List.cons_ne_nil q base⟩

/-- The bases of an accepted basis conversion are its arguments, and the source's has elements. -/
theorem basisConvert_bases {p : BasisConvertParams} {srcBase dstBase : List UInt64}
    (h : p.validate = .ok (srcBase, dstBase)) :
    p.srcBase = some srcBase ∧ srcBase ≠ [] ∧ p.dstBase = some dstBase := by
  unfold BasisConvertParams.validate at h
  rcases hs : nonemptyBase p.srcBase with e | s
  · rw [hs] at h
    cases h
  rcases hd : nonemptyBase p.dstBase with e | d
  · rw [hs, hd] at h
    cases h
  · rw [hs, hd] at h
    cases h
    exact ⟨(nonemptyBase_ok hs).1, (nonemptyBase_ok hs).2, (nonemptyBase_ok hd).1⟩

/-- What is rescaled away is among the source's moduli. -/
theorem modDown_bases {p : ModDownParams} {srcBase rescaleBase : List UInt64}
    (h : p.validate = .ok (srcBase, rescaleBase)) :
    p.srcBase = some srcBase ∧ srcBase ≠ [] ∧ (∀ q ∈ rescaleBase, q ∈ srcBase) ∧
      rescaleBase.length < srcBase.length := by
  unfold ModDownParams.validate at h
  rcases hs : nonemptyBase p.srcBase with e | s
  · rw [hs] at h
    cases h
  rcases hr : nonemptyBase p.rescaleBase with e | r
  · rw [hs, hr] at h
    cases h
  · rw [hs, hr] at h
    change (if r.length ≥ s.length then _ else if r.any (fun q => q ∉ s) then _ else _) = _ at h
    split_ifs at h with hlen hany
    cases h
    refine ⟨(nonemptyBase_ok hs).1, (nonemptyBase_ok hs).2, fun q hq => ?_, Nat.lt_of_not_le hlen⟩
    by_contra hnot
    exact hany (List.any_eq_true.mpr ⟨q, hq, decide_eq_true hnot⟩)

/-- The bases of an accepted lifting are its arguments, and its lengths sum up to the total. -/
theorem modUp_bases {p : ModUpParams} {srcBase digitBases lens pBase : List UInt64}
    (h : p.validate = .ok (srcBase, digitBases, lens, pBase)) :
    p.srcBase = some srcBase ∧ srcBase ≠ [] ∧ p.digitBases = some digitBases ∧
      p.pBase = some pBase ∧ pBase ≠ [] ∧ lens ≠ [] ∧
      lens.foldl (· + ·) 0 = p.digitBasesTotalLen := by
  -- The checks in the order of the source; each one that fails ends the call.
  unfold ModUpParams.validate at h
  rcases hs : nonemptyBase p.srcBase with e | s
  · rw [hs] at h
    cases h
  rcases hd : p.digitBases with _ | d
  · rw [hs, hd] at h
    cases h
  rcases hl : nonemptyBase p.digitBaseLens with e | l
  · rw [hs, hd, hl] at h
    cases h
  rcases hp : nonemptyBase p.pBase with e | b
  · rw [hs, hd, hl, hp] at h
    cases h
  · rw [hs, hd, hl, hp] at h
    change (if l.foldl (· + ·) 0 ≠ p.digitBasesTotalLen then _ else _) = _ at h
    split_ifs at h with hsum
    cases h
    exact ⟨(nonemptyBase_ok hs).1, (nonemptyBase_ok hs).2, rfl, (nonemptyBase_ok hp).1,
      (nonemptyBase_ok hp).2, (nonemptyBase_ok hl).2, not_not.mp hsum⟩

/-- A digit's base is cut out of the flat array. -/
theorem mem_sliceDigits {digitBases lens digitBase : List UInt64}
    (h : digitBase ∈ sliceDigits digitBases lens) : ∀ q ∈ digitBase, q ∈ digitBases := by
  induction lens generalizing digitBases with
  | nil => exact absurd h List.not_mem_nil
  | cons len lens ih =>
    rcases List.mem_cons.mp h with rfl | h
    · exact fun q hq => List.mem_of_mem_take hq
    · exact fun q hq => List.mem_of_mem_drop (ih h q hq)

/-- The scalars of an operation come with the moduli of its base. -/
theorem buildMrs_moduli (scalars base : List UInt64) :
    (World.buildMrs scalars base).map Prod.snd = base :=
  List.map_snd_zip (List.takeD_length _ _ _).ge

/-! ## The open trace -/

/-- The calls of the open trace after one more call. -/
def CompilerCall.extend (calls : List (CompilerCall P M)) :
    CompilerCall P M → List (CompilerCall P M)
  | .clearCaptured => []
  | .reset => []
  | c => calls ++ [c]

/-- The calls since the compiler last dropped its captures. -/
def openTrace (calls : List (CompilerCall P M)) : List (CompilerCall P M) :=
  calls.foldl CompilerCall.extend []

/-- The open trace after more calls continues the open trace. -/
theorem openTrace_append (cs ds : List (CompilerCall P M)) :
    openTrace (cs ++ ds) = ds.foldl CompilerCall.extend (openTrace cs) := by
  rw [openTrace, List.foldl_append]
  rfl

/-- A call of the open trace is one that was open before, or a later one. -/
theorem mem_openTrace_append {cs ds : List (CompilerCall P M)} {c : CompilerCall P M}
    (h : c ∈ openTrace (cs ++ ds)) : c ∈ openTrace cs ∨ c ∈ ds := by
  rw [openTrace_append] at h
  generalize openTrace cs = calls at h ⊢
  induction ds generalizing calls with
  | nil => exact .inl h
  | cons d ds ih =>
    have hd : c ∈ d.extend calls → c ∈ calls ∨ c = d := by
      intro hc
      cases d with
      | clearCaptured => exact absurd hc List.not_mem_nil
      | reset => exact absurd hc List.not_mem_nil
      | _ => exact (List.mem_append.mp hc).imp_right List.mem_singleton.mp
    rcases ih _ h with hc | hc
    · refine (hd hc).imp_right fun he => ?_
      rw [he]
      exact List.mem_cons_self ..
    · exact .inr (List.mem_cons_of_mem _ hc)

/-- An input that is tagged and a modulus that is bound are in the domain. What a flush tags for
output is a binding or a group of the state, which `World.Carries` covers. -/
def CompilerCall.Carries (D : Domain P M) : CompilerCall P M → Prop
  | .tagInput _ poly => D.poly poly
  | .tagInputMrp _ mrp => D.input mrp
  | .bindModulus _ modulus => D.modulus modulus
  | _ => True

/-- Opening a session tags no input and binds no modulus. -/
theorem CompilerCall.Opens.carries {D : Domain P M} {c : CompilerCall P M} (h : c.Opens) :
    c.Carries D := by
  cases c <;> first | exact trivial | exact h.elim

/-! ## States -/

/-- The bindings, the recorded moduli, those of the groups that a flush may export, and the calls of
the open trace carry values of the domain. -/
structure World.Carries (D : Domain P M) (w : World P M) : Prop where
  bound : ∀ a poly, w.binding a = some poly → D.poly poly
  recorded : ∀ a q, AList.lookup a w.epoch.addrModulus = some q → D.modulus q
  groups : ∀ name group, AList.lookup name w.epoch.knownMrpGroups = some group →
    ∀ q ∈ group.moduli, D.modulus q
  calls : ∀ c ∈ openTrace w.compiler, c.Carries D

/-- The library stays in the domain under the configuration, whatever the call's arguments are. -/
structure Domain.Closed (D : Domain P M) (F : Fhetch P M) (c : Config) : Prop where
  fromData : ∀ values, values.length = c.ringDim.toNat → D.poly (F.fromData values c.ringDim)
  configured : ∀ i, c.modulus i ≠ 0 → D.modulus (c.modulus i)
  base : ∀ q, D.base q → D.modulus q
  copy : ∀ poly, D.poly poly → D.poly (F.srAddps poly 0 kCopyModulus)
  fromPairs : ∀ pairs, (∀ r ∈ pairs, D.poly r.1 ∧ D.base r.2) →
    D.mrp (pairs.map Prod.snd) (F.fromPairs pairs)
  residue : ∀ base mrp, D.mrp base mrp → ∀ q ∈ base, D.poly (F.residue mrp q)
  input : ∀ base mrp, 1 < base.length → D.mrp base mrp → D.input mrp

/-- The actions that bind nothing, make no calls to the compiler, and keep the ring dimension. -/
def Action.Forgets : Action P M → Prop
  | .allocator _ => True
  | .epoch (.invalidate _) => True
  | .epoch (.tagOutput _) => True
  | .config _ => True
  | .reset => True
  | _ => False

namespace World

section

variable {F : Fhetch P M} {D : Domain P M} {w : World P M}

/-- Nothing is bound and nothing was tagged. -/
theorem Carries.of_empty {v : World P M} (hepoch : v.epoch = .init)
    (hcalls : openTrace v.compiler = []) : v.Carries D := by
  refine ⟨fun a poly ha => ?_, fun a q ha => ?_, fun name group hg => ?_, fun c hc => ?_⟩
  · rw [binding, hepoch] at ha
    cases ha
  · rw [hepoch] at ha
    cases ha
  · rw [hepoch] at hg
    cases hg
  · rw [hcalls] at hc
    exact absurd hc List.not_mem_nil

/-- What is bound, recorded, grouped and called besides is in the domain. -/
theorem Carries.step {v : World P M} (h : w.Carries D) (cs : List (CompilerCall P M))
    (hbound : ∀ a poly, v.binding a = some poly → w.binding a = some poly ∨ D.poly poly)
    (hrecorded : ∀ a q, AList.lookup a v.epoch.addrModulus = some q →
      AList.lookup a w.epoch.addrModulus = some q ∨ D.modulus q)
    (hgroups : ∀ name group, AList.lookup name v.epoch.knownMrpGroups = some group →
      AList.lookup name w.epoch.knownMrpGroups = some group ∨ ∀ q ∈ group.moduli, D.modulus q)
    (hlog : v.compiler = w.compiler ++ cs) (hcs : ∀ c ∈ cs, c.Carries D) : v.Carries D := by
  refine ⟨fun a poly ha => ?_, fun a q ha => ?_, fun name group hg => ?_, fun c hc => ?_⟩
  · exact (hbound a poly ha).elim (h.bound a poly) id
  · exact (hrecorded a q ha).elim (h.recorded a q) id
  · exact (hgroups name group hg).elim (h.groups name group) id
  · rw [hlog] at hc
    exact (mem_openTrace_append hc).elim (h.calls c) (hcs c)

/-- Calls that carry values of the domain. -/
theorem Carries.call (h : w.Carries D) {cs : List (CompilerCall P M)}
    (hcs : ∀ c ∈ cs, c.Carries D) : ({ w with compiler := w.compiler ++ cs } : World P M).Carries D :=
  h.step cs (fun _ _ ha => .inl ha) (fun _ _ ha => .inl ha) (fun _ _ hg => .inl hg) rfl hcs

/-- Opening a session carries nothing else. -/
theorem Carries.session (h : w.Carries D) (env : CompilerReplies P) :
    (w.act F (.session env)).Carries D := by
  obtain ⟨recording, initialized, cs, hcs, he⟩ := session_frame (F := F) env w
  rw [he]
  exact h.step cs (fun _ _ ha => .inl ha) (fun _ _ ha => .inl ha) (fun _ _ hg => .inl hg) rfl
    fun c hc => (hcs c hc).carries

/-- A modulus that is recorded after an action was recorded before, or by it. -/
theorem recorded_act {s : EpochState P} {x : EpochAction P} {a : DevAddr} {q : UInt64}
    (h : AList.lookup a (s.act x).addrModulus = some q) :
    AList.lookup a s.addrModulus = some q ∨ (∃ poly, q ≠ kCopyModulus ∧ x = .store a poly q) ∨
      x = .recordModulus a q := by
  -- A modulus is recorded by a store, by a recording and by nothing else.
  cases x with
  | store b poly m =>
    change AList.lookup a (if m ≠ kCopyModulus then AList.insert b m s.addrModulus
      else AList.erase b s.addrModulus) = some q at h
    split_ifs at h with hm
    · rw [UMap.lookup_insert_ite] at h
      split_ifs at h with hab
      · cases h
        exact .inr (.inl ⟨poly, hm, hab ▸ rfl⟩)
      · exact .inl h
    · rw [UMap.lookup_erase_ite] at h
      split_ifs at h
      exact .inl h
  | recordModulus b m =>
    change AList.lookup a (AList.insert b m s.addrModulus) = some q at h
    rw [UMap.lookup_insert_ite] at h
    split_ifs at h with hab
    · cases h
      exact .inr (.inr (hab ▸ rfl))
    · exact .inl h
  | invalidate b =>
    change AList.lookup a (AList.erase b (s.evictGroupsOf b).addrModulus) = some q at h
    rw [EpochState.apart_addrModulus.evictGroupsOf, UMap.lookup_erase_ite] at h
    split_ifs at h
    exact .inl h
  | nameGroup output leading =>
    change AList.lookup a (EpochState.mrpGroupNameLocked output leading s).2.addrModulus = _ at h
    unfold EpochState.mrpGroupNameLocked at h
    split_ifs at h
    · rcases hl : AList.lookup leading s.mrpOutNames with _ | name <;> rw [hl] at h <;> exact .inl h
    -- The other actions erase moduli, or keep them.
    · rcases hl : AList.lookup leading s.mrpInNames with _ | name <;> rw [hl] at h <;> exact .inl h
  | register addrs moduli name =>
    change AList.lookup a (EpochState.registerMrpOutputGroupLocked addrs moduli name s).2.addrModulus
      = _ at h
    rw [EpochState.apart_addrModulus.register] at h
    exact .inl h
  | tagOutput b =>
    change AList.lookup a (EpochState.tagOutputLocked b s).2.addrModulus = _ at h
    rw [EpochState.apart_addrModulus.tagOutput] at h
    exact .inl h
  | clear => cases h
  | _ => exact .inl h

/-- A change of the epoch with values of the domain. -/
theorem Carries.epoch (h : w.Carries D) {x : EpochAction P} (hx : x.Plain D) :
    ({ w with epoch := w.epoch.act x } : World P M).Carries D := by
  refine h.step [] (fun a poly ha => ?_) (fun a q ha => ?_) (fun name group hg => ?_)
    (List.append_nil _).symm fun c hc => absurd hc List.not_mem_nil
  -- A new binding comes from a store of a value that the domain holds.
  · rw [binding, lookup_epoch_act] at ha
    cases x with
    | store b poly' q =>
      dsimp only at ha
      split_ifs at ha
      · cases ha
        exact .inr hx.1
      · exact .inl ha
    | invalidate b =>
      dsimp only at ha
      split_ifs at ha
      exact .inl ha
    | bindInput b poly' => exact hx.elim
    | clear => exact hx.elim
    | _ => exact .inl ha
  · rcases recorded_act ha with ha | ⟨poly, hq, rfl⟩ | rfl
    · exact .inl ha
    · exact .inr (hx.2 hq)
    · exact .inr hx
  -- A group that was not known before is the one that is registered.
  · rcases EpochState.known_act hg with hg | ⟨addrs, moduli, n, rfl, rfl⟩
    · exact .inl hg
    · exact .inr hx

/-- Binding an input of the domain. -/
theorem Carries.bindInput (h : w.Carries D) (addr : DevAddr) {poly : P} (hpoly : D.poly poly)
    (name : ProbeName) : ({ w with
      epoch := w.epoch.bindInput addr poly
      compiler := w.compiler ++ [.tagInput name poly] } : World P M).Carries D := by
  refine h.step [.tagInput name poly] (fun a poly' ha => ?_) (fun a q ha => .inl ha)
    (fun _ _ hg => .inl hg) rfl fun c hc => List.mem_singleton.mp hc ▸ hpoly
  change AList.lookup a (AList.insert addr poly w.epoch.polyMap) = some poly' at ha
  rw [UMap.lookup_insert_ite] at ha
  split_ifs at ha
  · cases ha
    exact .inr hpoly
  · exact .inl ha

end

/-! ## Sessions -/

section

variable {F : Fhetch P M} {D : Domain P M} {c : Config}

/-- The methods of a session keep to a closed domain. -/
theorem carries_inside (hD : D.Closed F c) :
    KeptInside F D (fun w => w.config = c ∧ w.Carries D) where
  known :=
    { bound := fun _ a poly hw ha => hw.2.bound a poly ha
      recorded := fun _ a q hw ha => hw.2.recorded a q ha
      configured := fun _ i hw hi => by rw [hw.1] at hi ⊢; exact hD.configured i hi
      base := hD.base
      copy := hD.copy
      fromPairs := hD.fromPairs
      residue := hD.residue }
  allocator _ _ hw := ⟨hw.1, hw.2.bound, hw.2.recorded, hw.2.groups, hw.2.calls⟩
  epoch _ _ hx hw := ⟨hw.1, hw.2.epoch hx⟩
  tagInput addr values n := by
    rintro w ⟨⟨rfl, hw⟩, rfl, hlen⟩
    have hpoly := hD.fromData values hlen
    exact ⟨hpoly, rfl, hw.bindInput addr hpoly _⟩
  nameInput leading base mrp hlen hmrp := by
    -- The naming of an input changes no binding and no group.
    have hname : Expected.Keeps (fun w => w.config = c ∧ w.Carries D)
        (onEpoch (EpochState.mrpGroupNameLocked false leading) : Method P M ProbeName) := by
      refine Expected.Keeps.iff_state.mpr fun w hw => ⟨hw.1, ?_⟩
      refine hw.2.step [] (fun a poly ha => .inl ?_) (fun a q ha => .inl ?_)
        (fun name group hg => .inl ?_) (List.append_nil _).symm
        fun c hc => absurd hc List.not_mem_nil
      · exact (lookup_epoch_act w.epoch (.nameGroup false leading) a).symm.trans ha
      · rcases recorded_act (x := .nameGroup false leading) ha with ha | ⟨_, _, hx⟩ | hx
        · exact ha
        · cases hx
        · cases hx
      · rcases EpochState.known_act (x := .nameGroup false leading) hg with hg | ⟨_, _, _, hx, -⟩
        · exact hg
        · cases hx
    refine .bind hname fun name => .get_bind fun w => ?_
    split_ifs
    · exact .pure ()
    -- The call that announces it carries the moduli it was given.
    · refine .bind (.modify fun v hv => ⟨hv.1, ?_⟩) fun _ => .modify fun v hv => ⟨hv.1, ?_⟩
      · exact ⟨hv.2.bound, hv.2.recorded, hv.2.groups, hv.2.calls⟩
      · exact hv.2.call fun d hd => List.mem_singleton.mp hd ▸ hD.input base mrp hlen hmrp
  bindModulus polys q _ hq := by
    unfold bindModulus
    split_ifs with hne
    · refine .modify fun w hw => ⟨hw.1, hw.2.call fun d hd => ?_⟩
      obtain ⟨poly, -, rfl⟩ := List.mem_map.mp hd
      exact hq hne
    · exact .pure ()

/-- A session keeps to a closed domain. -/
theorem carries_sessioned (hD : D.Closed F c) (env : CompilerReplies P) :
    Sessioned F D env (fun w => w.config = c ∧ w.Carries D)
      (fun w => w.config = c ∧ w.Carries D) where
  before := (carries_inside hD).allocator
  session := Expected.Keeps.iff_state.mpr fun w hw => by
    refine ⟨?_, hw.2.session (F := F) env⟩
    obtain ⟨_, _, _, -, he⟩ := session_frame (F := F) env w
    exact (congrArg World.config he).trans hw.1
  inside := carries_inside hD

end

/-! ## Calls -/

section

variable {F : Fhetch P M} {D : Domain P M} {w : World P M}

/-- The calls that neither record nor finalize, other than the setter of the dimension, only
forget. -/
theorem acts_forgets {c : Call} (hc : ¬ c.Records) (hflush : c ≠ .flush)
    (hwrite : c ≠ .writeProgram) (hset : ∀ n, c ≠ .setRingDimension n) {pending : DevAddr → Prop}
    {x : Action P M} (hx : c.Acts F pending x) : x.Forgets := by
  -- Outside a session a call allocates, frees or writes words, and may take a binding away.
  cases c with
  | malloc | mallocMrp | free | freeMrp | memset =>
    cases x with
    | epoch x => cases x <;> first | exact hx.elim | trivial
    | _ => first | exact hx.elim | trivial
  | memcpy transfer count =>
    cases transfer with
    | hostToDevice | deviceToDevice => exact absurd trivial hc
    | _ => exact hx.elim
  | memcpyMrp transfer count base =>
    cases transfer with
    | hostToDevice | deviceToDevice => exact absurd trivial hc
    | _ => exact hx.elim
  | flush => exact absurd rfl hflush
  | writeProgram => exact absurd rfl hwrite
  | setRingDimension n => exact absurd rfl (hset n)
  | tagOutput | deviceReset =>
    cases hx
    trivial
  | config call =>
    obtain ⟨c, rfl⟩ := hx
    trivial
  | _ => exact absurd trivial hc

/-- A dropped epoch carries nothing. -/
theorem Carries.clearState (v : World P M) : (clearStateLocked v).Carries D :=
  .of_empty rfl (openTrace_append v.compiler [.clearCaptured])

/-- A finalization does nothing or drops the epoch. -/
theorem Carries.finalize (h : w.Carries D) (hw : w.epoch.Valid) (env : CompilerReplies P)
    (runReplay : Bool) : (finalizeLocked F env runReplay w).2.Carries D := by
  rcases hrec : w.epoch.recording
  · rw [finalize_idle runReplay hrec]
    exact h
  · obtain ⟨v, -, hv, -⟩ := finalize_ends (F := F) env runReplay hw.consistent hrec
    rw [hv]
    exact .clearState v

/-- Such an action keeps what the state carries. -/
theorem Carries.act (h : w.Carries D) {x : Action P M} (hx : x.Forgets) : (w.act F x).Carries D := by
  cases x with
  | allocator x => exact ⟨h.bound, h.recorded, h.groups, h.calls⟩
  | epoch x =>
    cases x with
    | invalidate b => exact h.epoch (x := .invalidate b) trivial
    | tagOutput b => exact h.epoch (x := .tagOutput b) trivial
    | _ => exact hx.elim
  | config c => exact ⟨h.bound, h.recorded, h.groups, h.calls⟩
  | reset =>
    exact .of_empty rfl (openTrace_append (clearStateLocked w).compiler [.reset])
  | _ => exact hx.elim

/-- A call that does not record keeps what the state carries. -/
theorem Carries.forgets (h : w.Carries D) (hw : w.epoch.Valid) {i : Invocation P}
    (hc : ¬ i.call.Records) : (w.after F i).Carries D := by
  obtain ⟨env, call⟩ := i
  -- The setter leaves the epoch as it is.
  by_cases hset : ∃ k, call = .setRingDimension k
  · obtain ⟨k, rfl⟩ := hset
    have hafter : w.after F ⟨env, .setRingDimension k⟩ = (setRingDimension k w).2 :=
      Shim.replyWith_state _ _ w
    rw [hafter]
    rcases setRingDimension_cases (F := F) k w with ⟨-, he⟩ | ⟨-, he⟩
    · rw [he]
      exact ⟨h.bound, h.recorded, h.groups, h.calls⟩
    · rw [he]
      exact h
  -- A flush and a write end the epoch.
  by_cases hflush : call = .flush
  · subst hflush
    have hafter : w.after F ⟨env, .flush⟩ = (flush F env w).2 := Shim.replyWith_state _ _ w
    rw [hafter, flush, Expected.get_bind_run]
    split_ifs
    · exact h
    · exact h.finalize hw env true
  by_cases hwrite : call = .writeProgram
  · subst hwrite
    have hafter : w.after F ⟨env, .writeProgram⟩ = (writeProgram F env w).2 :=
      Shim.replyWith_state _ _ w
    rw [hafter]
    exact h.finalize hw env false
  -- The others perform actions that take away at most.
  · exact (Call.performs env call w).preserves (fun v x hx hv => hv.act
      (acts_forgets hc hflush hwrite (fun k hk => hset ⟨k, hk⟩) hx.1)) h

/-- A call keeps what the state carries where the configuration and what it applies stay in the
domain. -/
theorem Carries.after (h : w.Carries D) (hw : w.epoch.Valid) {i : Invocation P}
    (hD : D.Closed F w.config) (hr : i.call.Respects F D) : (w.after F i).Carries D := by
  by_cases hc : i.call.Records
  · exact (((carries_sessioned hD i.env).run hc hr w ⟨rfl, h⟩).elim id id).2
  · exact h.forgets hw hc

end

end World

end Haze
