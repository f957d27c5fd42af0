import Haze.Runtime.Carrying
import Haze.Runtime.Names
import Haze.Runtime.Residues

/-!
# The multi-residue inputs that are exported

`build_mrp_locked` resolves its residues and passes the assembled polynomial to `tag_input` when the
leading residue is a live-in input and the group that it leads was not tagged before. Whether a
residue is live-in or computed is not changed by resolving it, and of the other residues nothing is
asked: `Build.genuine_iff` says that what is exported is made of live-in inputs exactly where an
untagged group that is led by an input does not mix in a computed residue.

A call makes its builds one after the other (`Call.builds`), and what it passes to `tag_input` is
what they pass (`Call.exports_builds`).
-/

namespace Haze

variable {P M : Type}

open World (takePtrs)

/-- The multi-residue polynomial that a call to the compiler tags as an input, with its name. -/
def inputMrp : CompilerCall P M → Option (ProbeName × M)
  | .tagInputMrp name mrp => some (name, mrp)
  | _ => none

/-- Those that several calls tag, in order. -/
def inputMrps (cs : List (CompilerCall P M)) : List (ProbeName × M) := cs.filterMap inputMrp

/-- The inputs tagged by more calls come behind those before. -/
theorem inputMrps_append (cs ds : List (CompilerCall P M)) :
    inputMrps (cs ++ ds) = inputMrps cs ++ inputMrps ds := List.filterMap_append

/-- The name that the input group led by an address has, or the next one. -/
def EpochState.inputGroupName (s : EpochState P) (leading : DevAddr) : ProbeName :=
  (AList.lookup leading s.mrpInNames).getD (.hazeMrpIn s.mrpInNameCounter)

/-! ## Live-in and computed values -/

/-- The address is bound to a value that the trace computes. -/
def Values.Computed (v : Values P) (a : DevAddr) : Prop := v.binding a ≠ none ∧ a ∉ v.inputs

namespace Values

variable {F : Fhetch P M} {n : UInt64} {v : Values P} {a : DevAddr}

/-- Resolving an address computes nothing, and leaves what was computed. -/
theorem computed_resolve (b : DevAddr) : (v.resolve F n b).Computed a ↔ v.Computed a := by
  rcases hb : v.binding b with _ | poly
  · by_cases hab : a = b
    · subst hab
      rw [resolve_unbound hb]
      exact iff_of_false (fun h => h.2 (Finset.mem_insert_self ..)) fun h => h.1 hb
    · unfold Computed
      rw [binding_resolve_of_ne hab, resolve_unbound hb, Finset.mem_insert, or_iff_right hab]
  · rw [resolve_bound (by simp [hb])]

/-- Lookups make nothing computed, and nothing that is computed an input. -/
theorem computed_resolveAll (addrs : List DevAddr) :
    ((addrs.map .resolve).foldl (access F n) v).Computed a ↔ v.Computed a := by
  induction addrs generalizing v with
  | nil => rfl
  | cons b addrs ih =>
    rw [List.map_cons, List.foldl_cons, ih]
    exact computed_resolve b

/-- What is bound stays bound, -/
theorem bound_resolve (b : DevAddr) (h : v.binding a ≠ none) :
    (v.resolve F n b).binding a ≠ none := by
  by_cases hab : a = b
  · subst hab
    exact Option.isSome_iff_ne_none.mp binding_resolve_self
  · rwa [binding_resolve_of_ne hab]

/-- Lookups unbind nothing. -/
theorem bound_foldl (addrs : List DevAddr) (h : v.binding a ≠ none) :
    ((addrs.map .resolve).foldl (access F n) v).binding a ≠ none := by
  induction addrs generalizing v with
  | nil => exact h
  | cons b addrs ih =>
    rw [List.map_cons, List.foldl_cons]
    exact ih (bound_resolve b h)

/-- and what is resolved is bound. -/
theorem bound_resolveAll {addrs : List DevAddr} (ha : a ∈ addrs) :
    ((addrs.map .resolve).foldl (access F n) v).binding a ≠ none := by
  induction addrs generalizing v with
  | nil => exact absurd ha List.not_mem_nil
  | cons b addrs ih =>
    rw [List.map_cons, List.foldl_cons]
    rcases List.mem_cons.mp ha with rfl | ha
    · exact bound_foldl addrs (Option.isSome_iff_ne_none.mp binding_resolve_self)
    · exact ih ha

/-- A resolved address is an input unless its value is computed. -/
theorem input_resolveAll {addrs : List DevAddr} (ha : a ∈ addrs) :
    a ∈ ((addrs.map .resolve).foldl (access F n) v).inputs ↔ ¬ v.Computed a := by
  rw [← computed_resolveAll (F := F) (n := n) addrs, Computed, not_and, not_not]
  exact ⟨fun h _ => h, fun h => h (bound_resolveAll ha)⟩

end Values

/-! ## One assembled polynomial -/

/-- A call of `build_mrp_locked`: the state in which it starts, the pointers and the moduli. -/
structure Build (P M : Type) where
  state : World P M
  polys : List DevAddr
  base : List UInt64

namespace Build

/-- The addresses of the residues. -/
def addrs (b : Build P M) : List DevAddr := takePtrs b.base.length b.polys

/-- The address of the leading residue. -/
def leading (b : Build P M) : DevAddr := b.addrs.headD .null

/-- The result and the state after it. -/
def run (F : Fhetch P M) (b : Build P M) : Except HazeInternalError M × World P M :=
  World.buildMrpLocked F b.polys b.base b.state

/-- What it passes to `tag_input`. -/
def exported (F : Fhetch P M) (b : Build P M) : List (ProbeName × M) :=
  (inputMrps (b.run F).2.compiler).drop (inputMrps b.state.compiler).length

/-- What it passes to `tag_input` is made of live-in inputs. The call comes last, so that the inputs
are those of the state after it. -/
def Genuine (F : Fhetch P M) (b : Build P M) : Prop :=
  b.exported F ≠ [] → ∀ a ∈ b.addrs, a ∈ (b.run F).2.epoch.inputAddrs

/-- It assembles and tags a group: there are several residues, all resolve, the leading one is not
computed, and its group was not tagged. -/
structure Tags (b : Build P M) : Prop where
  several : 1 < b.base.length
  resolves : ∀ a ∈ b.addrs, b.state.Resolves a
  leading : ¬ b.state.values.Computed b.leading
  untagged : b.state.epoch.inputGroupName b.leading ∉ b.state.epoch.mrpInputTaggedNames

/-- It tags a group that has a computed residue. -/
def Mixed (b : Build P M) : Prop := b.Tags ∧ ∃ a ∈ b.addrs, b.state.values.Computed a

/-- The leading address of a group of more than one is one of its addresses. -/
theorem leading_mem {b : Build P M} (h : 1 < b.base.length) : b.leading ∈ b.addrs := by
  have hlen : b.addrs.length = b.base.length := World.length_takePtrs ..
  unfold leading
  rcases haddrs : b.addrs with _ | ⟨a, addrs⟩
  · rw [haddrs, List.length_nil] at hlen
    omega
  · exact List.mem_cons_self ..

end Build

/-! ## What a build tags -/

/-- Nothing is known of the values, and no base has a modulus. The methods that assemble no
multi-residue polynomial stay in this domain, and it has no multi-residue input to name. -/
def baseless : Domain P M :=
  ⟨fun _ => True, fun base _ => base = [], fun _ => True, fun _ => False, fun _ => True⟩

namespace World

section

variable {F : Fhetch P M} {w : World P M}

/-- The multi-residue inputs that were tagged so far are `mrps`. -/
def Tagged (mrps : List (ProbeName × M)) (w : World P M) : Prop := inputMrps w.compiler = mrps

/-- Calls that tag no multi-residue input. -/
theorem Tagged.call {mrps : List (ProbeName × M)} (h : w.Tagged mrps) {w' : World P M}
    (cs : List (CompilerCall P M)) (hlog : w'.compiler = w.compiler ++ cs)
    (hcs : ∀ c ∈ cs, inputMrp c = none) : w'.Tagged mrps := by
  unfold Tagged
  rw [hlog, inputMrps_append, h]
  have hnone : inputMrps cs = [] := List.filterMap_eq_nil_iff.mpr hcs
  rw [hnone, List.append_nil]

/-- Opening a session tags no multi-residue input. -/
theorem Tagged.session {mrps : List (ProbeName × M)} (h : w.Tagged mrps) (F : Fhetch P M)
    (env : CompilerReplies P) : (w.act F (.session env)).Tagged mrps := by
  obtain ⟨_, _, cs, hcs, he⟩ := session_frame (F := F) env w
  refine h.call cs (by rw [he]) fun c hc => ?_
  have hopens := hcs c hc
  cases c <;> first | rfl | exact hopens.elim

/-- The methods of a session tag no multi-residue input, but for assembling one. -/
theorem tagged_inside (F : Fhetch P M) (mrps : List (ProbeName × M)) :
    KeptInside F baseless (Tagged mrps) where
  -- A domain without bases: no input of more than one residue is named inside these calls.
  known :=
    { bound := fun _ _ _ _ _ => trivial
      recorded := fun _ _ _ _ _ => trivial
      configured := fun _ _ _ _ => trivial
      base := fun _ _ => trivial
      copy := fun _ _ => trivial
      fromPairs := fun pairs hpairs => by
        rcases pairs with _ | ⟨r, pairs⟩
        · rfl
        · exact (hpairs r (List.mem_cons_self ..)).2.elim
      residue := fun _ _ _ _ _ => trivial }
  allocator _ _ h := h
  epoch _ _ _ h := h
  tagInput addr values n := by
    intro v hv
    refine ⟨trivial, hv.1.call [.tagInput (.hazeIn v.epoch.inputCounter) _] rfl
      fun c hc => ?_⟩
    rw [List.mem_singleton.mp hc]
    rfl
  -- The base is empty here, so it is not long enough to be named.
  nameInput leading base mrp hlong hempty := by
    change base = [] at hempty
    subst hempty
    exact absurd hlong (Nat.not_lt_zero _)
  bindModulus polys q _ _ := by
    refine Expected.Keeps.iff_state.mpr fun v hv => ?_
    unfold bindModulus
    split_ifs
    · refine hv.call (polys.map (.bindModulus · q)) rfl fun c hc => ?_
      obtain ⟨poly, -, rfl⟩ := List.mem_map.mp hc
      rfl
    · exact hv

/-- Nor do lookups. -/
theorem lookupResidues_tagged (F : Fhetch P M) (mrps : List (ProbeName × M))
    (residues : List (DevAddr × UInt64)) :
    Expected.Keeps (Tagged mrps) (Expected.mapEach (lookupResidue F) residues) :=
  .mapEach fun r _ => ((tagged_inside F mrps).lookupResidue r).mono (fun _ hv => hv)
    (fun _ _ hv => hv.2) fun _ _ hv => hv

/-- Naming a multi-residue input tags it, unless its name was tagged. -/
theorem nameInput_tags (leading : DevAddr) (mrp : M) (w : World P M) :
    ∃ w', (onEpoch (EpochState.mrpGroupNameLocked false leading) >>= fun name =>
        tagMrpInputIfNewLocked name mrp) w = (.ok (), w') ∧
      w'.epoch.inputAddrs = w.epoch.inputAddrs ∧
      (w.epoch.inputGroupName leading ∈ w.epoch.mrpInputTaggedNames →
        inputMrps w'.compiler = inputMrps w.compiler) ∧
      (w.epoch.inputGroupName leading ∉ w.epoch.mrpInputTaggedNames →
        inputMrps w'.compiler =
          inputMrps w.compiler ++ [(w.epoch.inputGroupName leading, mrp)]) := by
  -- The name is looked up, or made, and nothing else changes.
  have hname : ∃ s, EpochState.mrpGroupNameLocked false leading w.epoch =
      (.ok (w.epoch.inputGroupName leading), s) ∧ s.inputAddrs = w.epoch.inputAddrs ∧
        s.mrpInputTaggedNames = w.epoch.mrpInputTaggedNames := by
    unfold EpochState.mrpGroupNameLocked EpochState.inputGroupName
    rw [if_neg Bool.false_ne_true]
    rcases AList.lookup leading w.epoch.mrpInNames with _ | name <;> exact ⟨_, rfl, rfl, rfl⟩
  obtain ⟨s, hs, hinputs, htagged⟩ := hname
  generalize w.epoch.inputGroupName leading = name at hs ⊢
  have hrun : onEpoch (EpochState.mrpGroupNameLocked false leading) w =
      (.ok name, { w with epoch := s }) := by
    rw [onEpoch, Expected.zoom_run, hs]
  rw [Expected.bind_run_ok hrun, tagMrpInputIfNewLocked, Expected.get_bind_run, ← htagged]
  -- A group is announced once for each name.
  by_cases hmem : name ∈ s.mrpInputTaggedNames
  · rw [if_pos hmem]
    exact ⟨_, rfl, hinputs, fun _ => rfl, fun h => absurd hmem h⟩
  · rw [if_neg hmem]
    exact ⟨_, rfl, hinputs, fun h => absurd h hmem, fun _ => inputMrps_append _ _⟩

end

end World

namespace Build

variable {F : Fhetch P M} (b : Build P M)

/-- A build whose residues all resolve: each is an input afterwards unless it is computed, and the
polynomial is tagged under the name of its group where the build tags. -/
theorem run_resolved (h : ∀ a ∈ b.addrs, b.state.Resolves a) :
    ∃ mrp w', b.run F = (.ok mrp, w') ∧
      (∀ a ∈ b.addrs, a ∈ w'.epoch.inputAddrs ↔ ¬ b.state.values.Computed a) ∧
      (b.Tags → inputMrps w'.compiler = inputMrps b.state.compiler ++
        [(b.state.epoch.inputGroupName b.leading, mrp)]) ∧
      (¬ b.Tags → inputMrps w'.compiler = inputMrps b.state.compiler) := by
  obtain ⟨w, polys, base⟩ := b
  have hfst : ((takePtrs base.length polys).zip base).map Prod.fst = takePtrs base.length polys :=
    World.map_fst_zip_takePtrs base polys
  obtain ⟨w₁, hrun, hvalues, -, htags⟩ := World.lookupResidues_run (F := F)
    ((takePtrs base.length polys).zip base) fun r hr => h r.1 (List.of_mem_zip hr).1
  generalize (((takePtrs base.length polys).zip base).map fun r =>
    (w.values.value F w.config.ringDim r.1, r.2)) = pairs at hrun
  -- The residues are looked up first, which announces no group.
  have hlog : inputMrps w₁.compiler = inputMrps w.compiler :=
    (World.lookupResidues_tagged F _ _).ok rfl hrun
  have hinput : ∀ a ∈ takePtrs base.length polys,
      a ∈ w₁.epoch.inputAddrs ↔ ¬ w.values.Computed a := by
    -- A residue is an input after the lookup exactly where it is not computed.
    intro a ha
    have haccess : ((takePtrs base.length polys).zip base).map (fun r => Access.resolve r.1) =
        (takePtrs base.length polys).map (.resolve : DevAddr → Access P) := by
      rw [← hfst, List.map_map, hfst]
      rfl
    change a ∈ w₁.values.inputs ↔ _
    rw [hvalues, haccess]
    exact Values.input_resolveAll ha
  have hname : w₁.epoch.inputGroupName = w.epoch.inputGroupName := by
    have hnames : w₁.epoch.mrpInNames = w.epoch.mrpInNames := congrArg Prod.fst htags
    have hcounter : w₁.epoch.mrpInNameCounter = w.epoch.mrpInNameCounter :=
      congrArg (fun t => t.2.1) htags
    unfold EpochState.inputGroupName
    rw [hnames, hcounter]
  have htagged : w₁.epoch.mrpInputTaggedNames = w.epoch.mrpInputTaggedNames :=
    congrArg (fun t => t.2.2) htags
  unfold run World.buildMrpLocked
  dsimp only
  rw [Expected.bind_run_ok hrun, Expected.get_bind_run]
  -- Only the leading residue is asked whether the group is an input.
  by_cases hled : 1 < base.length ∧ (takePtrs base.length polys).headD .null ∈ w₁.epoch.inputAddrs
  · have hlead := (hinput _ (leading_mem (b := ⟨w, polys, base⟩) hled.1)).mp hled.2
    obtain ⟨w₂, htag, hinputs, hold, hnew⟩ := World.nameInput_tags
      ((takePtrs base.length polys).headD .null) (F.fromPairs pairs) w₁
    rw [hname, htagged, hlog] at hold hnew
    rw [if_pos hled, ← Expected.bind_assoc, Expected.bind_run_ok htag]
    refine ⟨_, w₂, rfl, fun a ha => by rw [hinputs]; exact hinput a ha, fun ht => hnew ht.untagged,
      fun ht => hold ?_⟩
    by_contra huntagged
    exact ht ⟨hled.1, h, hlead, huntagged⟩
  -- Otherwise the group is not announced.
  · rw [if_neg hled]
    refine ⟨_, w₁, rfl, hinput, fun ht => absurd ⟨ht.several, ?_⟩ hled, fun _ => hlog⟩
    exact (hinput _ (leading_mem (b := ⟨w, polys, base⟩) ht.several)).mpr ht.leading

/-- A build with a residue that does not resolve fails and tags nothing. -/
theorem run_unresolved (h : ¬ ∀ a ∈ b.addrs, b.state.Resolves a) :
    ∃ e w', b.run F = (.error e, w') ∧ inputMrps w'.compiler = inputMrps b.state.compiler := by
  obtain ⟨w, polys, base⟩ := b
  have hfst : ((takePtrs base.length polys).zip base).map Prod.fst = takePtrs base.length polys :=
    World.map_fst_zip_takePtrs base polys
  obtain ⟨e, w₁, hrun⟩ := World.lookupResidues_error (F := F) (w := w)
    ((takePtrs base.length polys).zip base) fun hall => h fun a ha => by
      change a ∈ takePtrs base.length polys at ha
      rw [← hfst] at ha
      obtain ⟨r, hr, rfl⟩ := List.mem_map.mp ha
      exact hall r hr
  exact ⟨e, w₁, Expected.bind_run_error hrun, (World.lookupResidues_tagged F _ _).error rfl hrun⟩

/-- A build passes to `tag_input` what its run adds to the log. -/
theorem exported_append :
    inputMrps (b.run F).2.compiler = inputMrps b.state.compiler ++ b.exported F := by
  have hprefix : inputMrps b.state.compiler <+: inputMrps (b.run F).2.compiler := by
    by_cases h : ∀ a ∈ b.addrs, b.state.Resolves a
    · obtain ⟨mrp, w', hrun, -, htags, hnot⟩ := b.run_resolved (F := F) h
      rw [hrun]
      by_cases ht : b.Tags
      · rw [htags ht]
        exact List.prefix_append _ _
      · rw [hnot ht]
    · obtain ⟨e, w', hrun, hlog⟩ := b.run_unresolved (F := F) h
      rw [hrun, hlog]
  exact (List.prefix_iff_eq_append.mp hprefix).symm

/-- It passes something exactly when it tags. -/
theorem exported_ne_nil : b.exported F ≠ [] ↔ b.Tags := by
  have happend := b.exported_append (F := F)
  by_cases h : ∀ a ∈ b.addrs, b.state.Resolves a
  · obtain ⟨mrp, w', hrun, -, htags, hnot⟩ := b.run_resolved (F := F) h
    rw [hrun] at happend
    by_cases ht : b.Tags
    · rw [htags ht] at happend
      refine iff_of_true ?_ ht
      rw [← List.append_cancel_left happend]
      exact List.cons_ne_nil _ _
    · rw [hnot ht] at happend
      exact iff_of_false (not_not.mpr (List.self_eq_append_right.mp happend)) ht
  · obtain ⟨e, w', hrun, hlog⟩ := b.run_unresolved (F := F) h
    rw [hrun, hlog] at happend
    exact iff_of_false (not_not.mpr (List.self_eq_append_right.mp happend)) fun ht => h ht.resolves

/-- What is exported is made of live-in inputs unless the group has a computed residue. -/
theorem genuine_iff : b.Genuine F ↔ ¬ b.Mixed := by
  unfold Genuine
  rw [exported_ne_nil]
  constructor
  · rintro h ⟨ht, a, ha, hcomputed⟩
    obtain ⟨mrp, w', hrun, hinput, -⟩ := b.run_resolved (F := F) ht.resolves
    have hmem := h ht a ha
    rw [hrun] at hmem
    exact (hinput a ha).mp hmem hcomputed
  · intro h ht a ha
    obtain ⟨mrp, w', hrun, hinput, -⟩ := b.run_resolved (F := F) ht.resolves
    rw [hrun]
    exact (hinput a ha).mpr fun hcomputed => h ⟨ht, a, ha, hcomputed⟩

end Build

/-! ## The builds of a call -/

/-- The builds of several source arrays, one after the other, up to the first that fails. -/
def Build.all (F : Fhetch P M) : World P M → List (List DevAddr × List UInt64) → List (Build P M)
  | _, [] => []
  | w, (polys, base) :: srcs => ⟨w, polys, base⟩ ::
    match World.buildMrpLocked F polys base w with
    | (.ok _, w') => all F w' srcs
    | (.error _, _) => []

/-- The sources of an accepted operation over a base that is not empty. -/
def sourcesOver (base : List UInt64) (srcs : List (List DevAddr)) :
    List (List DevAddr × List UInt64) :=
  if base.isEmpty then [] else srcs.map (·, base)

/-- The source arrays that a call assembles, in order, with their moduli. A call whose arguments are
rejected assembles none. -/
def Call.sources : Call → List (List DevAddr × List UInt64)
  | .ppMrp _ (some _) (some src1) (some src2) (some base) => sourcesOver base [src1, src2]
  | .psMrp _ (some _) (some src) (some _) (some base) => sourcesOver base [src]
  | .transformMrp _ (some _) (some src) (some base) => sourcesOver base [src]
  | .indexMrp _ (some _) (some src) _ (some base) => sourcesOver base [src]
  | .basisConvert (some _) (some src) (some p) =>
    match p.validate with
    | .ok (srcBase, _) => [(src, srcBase)]
    | .error _ => []
  | .modDown (some _) (some src) (some p) =>
    match p.validate with
    | .ok (srcBase, _) => [(src, srcBase)]
    | .error _ => []
  | .modUp (some _) (some src) (some p) =>
    match p.validate with
    | .ok (srcBase, _) => [(src, srcBase)]
    | .error _ => []
  | _ => []

/-- The builds of a call, after its session is opened. -/
def Call.builds (F : Fhetch P M) (env : CompilerReplies P) (c : Call) (w : World P M) :
    List (Build P M) := Build.all F (w.act F (.session env)) c.sources

section

variable {F : Fhetch P M} {env : CompilerReplies P} {w : World P M}

/-- What is done after a build adds its own builds to it. -/
theorem World.build_exports {k : M → Method P M Unit} {srcs : List (List DevAddr × List UInt64)}
    (hk : ∀ mrp w, inputMrps (k mrp w).2.compiler =
      inputMrps w.compiler ++ (Build.all F w srcs).flatMap (Build.exported F))
    (polys : List DevAddr) (base : List UInt64) (w : World P M) :
    inputMrps ((buildMrpLocked F polys base >>= k) w).2.compiler = inputMrps w.compiler ++
      (Build.all F w ((polys, base) :: srcs)).flatMap (Build.exported F) := by
  have hone := (Build.mk w polys base).exported_append (F := F)
  unfold Build.run at hone
  dsimp only at hone
  rw [Build.all, List.flatMap_cons, ← List.append_assoc, ← hone]
  rcases hrun : buildMrpLocked F polys base w with ⟨e | mrp, w'⟩
  · rw [Expected.bind_run_error hrun, List.flatMap_nil, List.append_nil]
  · rw [Expected.bind_run_ok hrun]
    exact hk mrp w'

/-- A method that tags no multi-residue input makes no builds. -/
theorem World.keeps_exports {x : Method P M Unit}
    (hx : ∀ mrps, Expected.Keeps (World.Tagged mrps) x) (w : World P M) :
    inputMrps (x w).2.compiler =
      inputMrps w.compiler ++ (Build.all F w []).flatMap (Build.exported F) := by
  rw [Build.all, List.flatMap_nil, List.append_nil]
  exact (hx _).state rfl

/-- Nor does storing residues. -/
theorem World.storeMrp_tagged (dst : List DevAddr) (mrp : M) (base : List UInt64)
    (mrps : List (ProbeName × M)) :
    Expected.Keeps (World.Tagged mrps) (storeMrpLocked F dst mrp base) :=
  .bind (.forEach fun residue _ => (tagged_inside F mrps).store residue.1 trivial fun _ => trivial)
    fun _ => (tagged_inside F mrps).registerGroup _ fun _ _ => trivial

/-- Nor does storing digits. -/
theorem World.storeDigits_tagged (dst : List DevAddr) (lift : List UInt64 → M) (d : ℕ)
    (digitBases : List (List UInt64)) (mrps : List (ProbeName × M)) :
    Expected.Keeps (World.Tagged mrps) (storeDigits F dst lift d digitBases) := by
  induction digitBases generalizing d with
  | nil => exact .pure ()
  | cons digitBase digitBases ih => exact .bind (storeMrp_tagged _ _ _ mrps) fun _ => ih _

/-- A session and what follows it. -/
theorem World.session_exports {x : Method P M Unit} {srcs : List (List DevAddr × List UInt64)}
    (hx : ∀ w, inputMrps (x w).2.compiler =
      inputMrps w.compiler ++ (Build.all F w srcs).flatMap (Build.exported F)) :
    inputMrps ((epochSession env >>= fun _ => x) w).2.compiler = inputMrps w.compiler ++
      (Build.all F (w.act F (.session env)) srcs).flatMap (Build.exported F) := by
  have hsession : inputMrps (w.act F (.session env)).compiler = inputMrps w.compiler :=
    Tagged.session rfl F env
  rw [← hsession]
  exact hx (w.act F (.session env))

/-- An operation over a base, which is rejected when it is empty. -/
theorem World.guarded_exports {x : Method P M Unit} {srcs : List (List DevAddr)}
    {base : List UInt64} (hx : ∀ w, inputMrps (x w).2.compiler = inputMrps w.compiler ++
      (Build.all F w (srcs.map (·, base))).flatMap (Build.exported F)) :
    inputMrps (Shim.guarded base.isEmpty
        (Shim.setInternalResult (epochSession env >>= fun _ => x)) w).2.compiler =
      inputMrps w.compiler ++ (Build.all F (w.act F (.session env))
        (sourcesOver base srcs)).flatMap (Build.exported F) := by
  unfold Shim.guarded sourcesOver
  by_cases hempty : base.isEmpty = true
  · rw [if_pos hempty, if_pos hempty, Build.all, List.flatMap_nil, List.append_nil]
    rfl
  · rw [if_neg hempty, if_neg hempty]
    unfold Shim.setInternalResult
    rw [Shim.replyWith_state]
    exact session_exports hx

/-- A conversion, whose parameters are checked before its session. -/
theorem World.validated_exports {T : Type} {v : Except HazeInternalError T} {onOk : Unit → Reply}
    {f : T → Method P M Unit} {t : T} (hv : v = .ok t) {srcs : List (List DevAddr × List UInt64)}
    (hf : ∀ w, inputMrps (f t w).2.compiler =
      inputMrps w.compiler ++ (Build.all F w srcs).flatMap (Build.exported F)) :
    inputMrps (Shim.replyWith onOk
        (Expected.query (fun _ => v) >>= fun t => epochSession env >>= fun _ => f t) w).2.compiler =
      inputMrps w.compiler ++
        (Build.all F (w.act F (.session env)) srcs).flatMap (Build.exported F) := by
  rw [Shim.replyWith_state, Expected.query_bind_ok (f := fun _ => v) hv]
  exact session_exports hf

/-- A conversion whose parameters are rejected. -/
theorem World.validated_rejected {T : Type} {v : Except HazeInternalError T} {onOk : Unit → Reply}
    {f : T → Method P M Unit} {e : HazeInternalError} (hv : v = .error e) :
    (Shim.replyWith onOk (Expected.query (fun _ => v) >>= f) w).2.Tagged
      (inputMrps w.compiler) := by
  rw [Shim.replyWith_state, Expected.query_bind_error (f := fun _ => v) hv]
  rfl

/-- An operation with one source array. -/
theorem World.unaryPOpMrp_exports (opFn : M → M) (dst src : List DevAddr) (base : List UInt64) :
    inputMrps (Shim.guarded base.isEmpty
        (Shim.setInternalResult (unaryPOpMrp F env opFn dst src base)) w).2.compiler =
      inputMrps w.compiler ++ (Build.all F (w.act F (.session env))
        (sourcesOver base [src])).flatMap (Build.exported F) :=
  guarded_exports (build_exports (fun _ => keeps_exports fun mrps =>
    storeMrp_tagged dst _ base mrps) src base)

/-- An operation with two source arrays. -/
theorem World.binaryPpOpMrp_exports (opFn : M → M → M) (dst src1 src2 : List DevAddr)
    (base : List UInt64) :
    inputMrps (Shim.guarded base.isEmpty
        (Shim.setInternalResult (binaryPpOpMrp F env opFn dst src1 src2 base)) w).2.compiler =
      inputMrps w.compiler ++ (Build.all F (w.act F (.session env))
        (sourcesOver base [src1, src2])).flatMap (Build.exported F) :=
  guarded_exports (build_exports (fun _ => build_exports (fun _ => keeps_exports fun mrps =>
    storeMrp_tagged dst _ base mrps) src2 base) src1 base)

end

/-! ## What a call tags -/

section

variable {F : Fhetch P M} {w : World P M} {mrps : List (ProbeName × M)}

/-- Nor does anything in a session but a build. -/
theorem World.tagged_sessioned (F : Fhetch P M) (env : CompilerReplies P)
    (mrps : List (ProbeName × M)) : Sessioned F baseless env (Tagged mrps) (Tagged mrps) where
  before _ _ h := h
  session := Expected.Keeps.modify fun _ h => h.session F env
  inside := tagged_inside F mrps

/-- Tagging the outputs tags no input. -/
theorem World.Tagged.finalize (h : w.Tagged mrps) (hw : w.epoch.Valid) (env : CompilerReplies P)
    (runReplay : Bool) : (finalizeLocked F env runReplay w).2.Tagged mrps := by
  rcases hrec : w.epoch.recording
  · rw [finalize_idle runReplay hrec]
    exact h
  · obtain ⟨v, ds, hv, hlog, hds⟩ := finalize_ends (F := F) env runReplay hw.consistent hrec
    rw [hv]
    refine h.call (tagCalls F env w ++ ds ++ [.clearCaptured]) ?_ fun c hc => ?_
    · change v.compiler ++ [.clearCaptured] = _
      rw [hlog]
      simp only [List.append_assoc]
    · rcases List.mem_append.mp hc with hc | hc
      · rcases List.mem_append.mp hc with hc | hc
        · have houtput := outputName_tagCalls hc
          cases c <;> first | rfl | exact absurd houtput Bool.false_ne_true
        · rcases List.mem_pair.mp (hds.subset hc) with rfl | rfl <;> rfl
      · rw [List.mem_singleton.mp hc]
        rfl

/-- An action that makes no calls to the compiler tags nothing. -/
theorem World.Tagged.act (h : w.Tagged mrps) {x : Action P M} (hx : x.Forgets) :
    (w.act F x).Tagged mrps := by
  cases x with
  | reset =>
    refine h.call [.clearCaptured, .reset] (List.append_assoc ..) fun c hc => ?_
    rcases List.mem_pair.mp hc with rfl | rfl <;> rfl
  | allocator x => exact h
  | epoch x => exact h
  | config c => exact h
  | _ => exact hx.elim

/-- A call that does not record tags no input. -/
theorem World.Tagged.forgets (h : w.Tagged mrps) (hw : w.epoch.Valid) (env : CompilerReplies P)
    {c : Call} (hc : ¬ c.Records) : (c.run F env w).2.Tagged mrps := by
  -- The setter announces nothing.
  by_cases hset : ∃ k, c = .setRingDimension k
  · obtain ⟨k, rfl⟩ := hset
    have hrun : (Call.run F env (.setRingDimension k) w).2 = (setRingDimension k w).2 :=
      Shim.replyWith_state _ _ w
    rw [hrun]
    rcases setRingDimension_cases (F := F) k w with ⟨-, he⟩ | ⟨-, he⟩
    · rw [he]
      exact h
    · rw [he]
      exact h
  -- A flush and a write announce outputs only.
  by_cases hflush : c = .flush
  · subst hflush
    have hrun : (Call.run F env .flush w).2 = (flush F env w).2 := Shim.replyWith_state _ _ w
    rw [hrun, flush, Expected.get_bind_run]
    split_ifs
    · exact h
    · exact h.finalize hw env true
  by_cases hwrite : c = .writeProgram
  · subst hwrite
    have hrun : (Call.run F env .writeProgram w).2 = (writeProgram F env w).2 :=
      Shim.replyWith_state _ _ w
    rw [hrun]
    exact h.finalize hw env false
  · exact (Call.performs env c w).preserves (fun v x hx hv => hv.act
      (acts_forgets hc hflush hwrite (fun k hk => hset ⟨k, hk⟩) hx.1)) h

/-- A call that assembles no multi-residue polynomial tags none. -/
theorem World.Tagged.unsourced (h : w.Tagged mrps) (env : CompilerReplies P) {c : Call}
    (hc : c.Records) (hr : c.Respects F baseless) : (c.run F env w).2.Tagged mrps :=
  ((tagged_sessioned F env mrps).run hc hr w h).elim id id

end

/-- What a call passes to `tag_input` is what its builds pass, in their order. -/
def Call.ExportsBuilds (F : Fhetch P M) (env : CompilerReplies P) (c : Call) (w : World P M) :
    Prop := inputMrps (c.run F env w).2.compiler =
  inputMrps w.compiler ++ (c.builds F env w).flatMap (Build.exported F)

/-- What a call passes to `tag_input` is what its builds pass. -/
theorem Call.exports_builds (F : Fhetch P M) (env : CompilerReplies P) (c : Call) {w : World P M}
    (hw : w.epoch.Valid) : c.ExportsBuilds F env w := by
  -- A call without sources has no builds, so that it must not tag anything.
  have hnone : ∀ {c : Call}, c.sources = [] → (c.run F env w).2.Tagged (inputMrps w.compiler) →
      c.ExportsBuilds F env w := by
    intro c hc h
    unfold ExportsBuilds Call.builds
    rw [hc, Build.all, List.flatMap_nil, List.append_nil]
    exact h
  have hidle : ∀ {c : Call}, c.sources = [] → ¬ c.Records → c.ExportsBuilds F env w :=
    fun hc hr => hnone hc (World.Tagged.forgets rfl hw env hr)
  have hsingle : ∀ {c : Call}, c.sources = [] → c.Records → c.Respects F baseless →
      c.ExportsBuilds F env w := fun hc hr hd => hnone hc (World.Tagged.unsourced rfl env hr hd)
  cases c with
  | memcpy transfer count =>
    cases transfer with
    | hostToDevice dst src => exact hsingle rfl trivial trivial
    | deviceToDevice dst src => exact hsingle rfl trivial trivial
    | deviceToHost dst src => exact hidle rfl id
    | unknownKind => exact hidle rfl id
  | memcpyMrp transfer count base =>
    cases transfer with
    | hostToDevice dst src => exact hsingle rfl trivial trivial
    | deviceToDevice dst src =>
      refine hnone rfl ?_
      rcases dst with _ | dst
      · rfl
      rcases src with _ | src
      · rfl
      rcases base with _ | base
      · rfl
      refine Shim.Leads.guarded (fun _ h => h) _ (.replyWith ((World.tagged_sessioned F env _).bind
        (.bind (.forEach fun r _ => ?_) fun _ => ?_)) _) w rfl
      · exact (World.tagged_inside F _).copyResult r.1.1 r.1.2 fun _ => trivial
      · exact (World.tagged_inside F _).registerGroup _ fun _ _ => trivial
    | deviceToHost dst src => exact hidle rfl id
    | unknownKind => exact hidle rfl id
  | pp op dst src1 src2 modIdx => exact hsingle rfl trivial fun _ _ _ _ _ _ => trivial
  | ps op dst src scalar modIdx => exact hsingle rfl trivial fun _ _ _ _ => trivial
  | transform op dst src modIdx => exact hsingle rfl trivial fun _ _ _ _ => trivial
  | automorph dst src index => exact hsingle rfl trivial fun _ _ => trivial
  | ppMrp op dst src1 src2 base =>
    rcases dst with _ | dst
    · exact hnone rfl (by cases op <;> rcases src2 with _ | src2 <;> rfl)
    rcases src1 with _ | src1
    · exact hnone rfl (by cases op <;> rcases src2 with _ | src2 <;> rfl)
    rcases src2 with _ | src2
    · exact hnone rfl (by cases op <;> rfl)
    rcases base with _ | base
    · exact hnone rfl (by cases op <;> rfl)
    · cases op <;> exact World.binaryPpOpMrp_exports _ dst src1 src2 base
  | psMrp op dst src scalars base =>
    rcases dst with _ | dst
    · exact hnone rfl (by cases op <;> rcases scalars with _ | scalars <;> rfl)
    rcases src with _ | src
    · exact hnone rfl (by cases op <;> rcases scalars with _ | scalars <;> rfl)
    rcases scalars with _ | scalars
    · exact hnone rfl (by cases op <;> rfl)
    rcases base with _ | base
    · exact hnone rfl (by cases op <;> rfl)
    · cases op <;> exact World.unaryPOpMrp_exports _ dst src base
  | transformMrp op dst src base =>
    rcases dst with _ | dst
    · exact hnone rfl (by cases op <;> rfl)
    rcases src with _ | src
    · exact hnone rfl (by cases op <;> rfl)
    rcases base with _ | base
    · exact hnone rfl (by cases op <;> rfl)
    · cases op <;> exact World.unaryPOpMrp_exports _ dst src base
  | indexMrp op dst src index base =>
    rcases dst with _ | dst
    · exact hnone rfl (by cases op <;> rfl)
    rcases src with _ | src
    · exact hnone rfl (by cases op <;> rfl)
    rcases base with _ | base
    · exact hnone rfl (by cases op <;> rfl)
    · cases op <;> exact World.unaryPOpMrp_exports _ dst src base
  | basisConvert dst src params =>
    rcases dst with _ | dst
    · exact hnone rfl rfl
    rcases src with _ | src
    · exact hnone rfl rfl
    rcases params with _ | p
    · exact hnone rfl rfl
    rcases hp : p.validate with e | ⟨srcBase, dstBase⟩
    · exact hnone (by rw [sources, hp]) (World.validated_rejected hp)
    · unfold ExportsBuilds Call.builds
      rw [sources, hp]
      exact World.validated_exports hp (World.build_exports (fun _ => World.keeps_exports
        fun mrps => .get_bind fun _ => World.storeMrp_tagged dst _ _ mrps) src srcBase)
  | modDown dst src params =>
    rcases dst with _ | dst
    · exact hnone rfl rfl
    rcases src with _ | src
    · exact hnone rfl rfl
    rcases params with _ | p
    · exact hnone rfl rfl
    rcases hp : p.validate with e | ⟨srcBase, rescaleBase⟩
    · exact hnone (by rw [sources, hp]) (World.validated_rejected hp)
    · unfold ExportsBuilds Call.builds
      rw [sources, hp]
      exact World.validated_exports hp (World.build_exports (fun _ => World.keeps_exports
        fun mrps => .get_bind fun _ => World.storeMrp_tagged dst _ _ mrps) src srcBase)
  | modUp dst src params =>
    rcases dst with _ | dst
    · exact hnone rfl rfl
    rcases src with _ | src
    · exact hnone rfl rfl
    rcases params with _ | p
    · exact hnone rfl rfl
    rcases hp : p.validate with e | ⟨srcBase, digitBases, lens, pBase⟩
    · exact hnone (by rw [sources, hp]) (World.validated_rejected hp)
    · unfold ExportsBuilds Call.builds
      rw [sources, hp]
      exact World.validated_exports hp (World.build_exports (fun _ => World.keeps_exports
        fun mrps => .get_bind fun _ => World.storeDigits_tagged dst _ _ _ mrps) src srcBase)
  | _ => exact hidle rfl id

/-! ## Every run -/

/-- What an invocation passes to `tag_input` as multi-residue inputs is what its builds pass, and
what each passes is made of live-in inputs. -/
structure Invocation.ExportsInputs (F : Fhetch P M) (i : Invocation P) (w : World P M) : Prop where
  exported : i.call.ExportsBuilds F i.env w
  genuine : ∀ b ∈ i.call.builds F i.env w, b.Genuine F

/-- No group that the invocation tags as an input has a computed residue. -/
def Invocation.Unmixed (F : Fhetch P M) (i : Invocation P) (w : World P M) : Prop :=
  ∀ b ∈ i.call.builds F i.env w, ¬ b.Mixed

/-- An invocation exports inputs if and only if no group that it tags has a computed residue. -/
theorem Invocation.exportsInputs_iff {F : Fhetch P M} {i : Invocation P} {w : World P M}
    (hw : w.epoch.Valid) : i.ExportsInputs F w ↔ i.Unmixed F w := by
  constructor
  · intro h b hb
    exact b.genuine_iff.mp (h.genuine b hb)
  · intro h
    exact ⟨i.call.exports_builds F i.env hw, fun b hb => b.genuine_iff.mpr (h b hb)⟩

/-- Along every program, the multi-residue inputs that are exported are made of live-in inputs
exactly when no group that is tagged as an input has a computed residue. -/
theorem exports_genuine (F : Fhetch P M) (is : List (Invocation P)) :
    Expected.Along (World.after F) (fun w i => i.ExportsInputs F w) .init is ↔
      Expected.Along (World.after F) (fun w i => i.Unmixed F w) .init is := by
  have hvalid : ∀ (w : World P M) (i : Invocation P), w.Inv → (w.after F i).Inv :=
    fun w i hw => hw.after i
  constructor
  · refine Expected.Along.mono_of_invariant (fun w i _ hw => hvalid w i hw) (fun w i hw h => ?_)
      World.inv_init
    exact (Invocation.exportsInputs_iff hw.epoch).mp h
  · refine Expected.Along.mono_of_invariant (fun w i _ hw => hvalid w i hw) (fun w i hw h => ?_)
      World.inv_init
    exact (Invocation.exportsInputs_iff hw.epoch).mpr h

/-- Two uploads, of which the second is replaced by the sum of the first with itself. -/
def sumOverSecond : List (Invocation UInt64) :=
  scalarProgram [.setRingDimension 1, .config (.setCiphertextModulus 0 17),
    .mallocMrp true 4 8, .memcpyMrp (.hostToDevice (some [⟨kHbmBase⟩, ⟨kHbmBase + 8⟩])
      (some [some [5, 0, 0, 0, 0, 0, 0, 0], some [7, 0, 0, 0, 0, 0, 0, 0]])) 8 (some [17, 19]),
    .pp .add ⟨kHbmBase + 8⟩ ⟨kHbmBase⟩ ⟨kHbmBase⟩ 0]

/-- The transform of the two addresses as a group. -/
def transformPair : Invocation UInt64 :=
  ⟨scalarReplies, .transformMrp .ntt (some [⟨kHbmBase + 16⟩, ⟨kHbmBase + 24⟩])
    (some [⟨kHbmBase⟩, ⟨kHbmBase + 8⟩]) (some [17, 19])⟩

/-- The group is tagged as an input with the sum in it. -/
theorem exports_genuine_counterexample :
    let w := World.runAll scalarRing .init sumOverSecond
    inputMrps (w.after scalarRing transformPair).compiler =
        [(.hazeMrpIn 0, [(5, 17), (10, 19)])] ∧
      w.values.Computed ⟨kHbmBase + 8⟩ ∧
      ¬ Expected.Along (World.after scalarRing) (fun w i => i.ExportsInputs scalarRing w) .init
        (sumOverSecond ++ [transformPair]) := by
  intro w
  refine ⟨by decide +kernel, ⟨by decide +kernel, by decide +kernel⟩, fun h => ?_⟩
  have hlast : transformPair.ExportsInputs scalarRing w := (Expected.along_append.mp h).2.1
  let b : Build UInt64 (List (UInt64 × UInt64)) :=
    ⟨w.act scalarRing (.session scalarReplies), [⟨kHbmBase⟩, ⟨kHbmBase + 8⟩], [17, 19]⟩
  have hexported : b.exported scalarRing = [(.hazeMrpIn 0, [(5, 17), (10, 19)])] := by
    decide +kernel
  have hinput := hlast.genuine b (List.mem_cons_self ..)
    (by rw [hexported]; exact List.cons_ne_nil _ _) ⟨kHbmBase + 8⟩ (by decide +kernel)
  exact absurd hinput (by decide +kernel)

end Haze
