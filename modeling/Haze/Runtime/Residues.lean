import Haze.Core.ScalarRing
import Haze.Runtime.Values
import Mathlib.Data.List.Perm.Basic

/-!
# The multi-residue path and the scalar path

An operation on several residues reads every source, applies one operation of the library and binds
every destination; the operations on one residue read and bind in turn. Each access of the one path
is an access of the other, and where the destinations are distinct and none is a source, all of them
commute (`Values.access_comm`). `multi_agrees` says when the two paths agree: the multi-residue
shims do not look at the pointers in their arrays, so that a null pointer is rejected on the scalar
path only.
-/

namespace Haze

open World

variable {P M : Type}

/-! ## Operations on residues -/

/-- The multi-residue operations act on each residue as the scalar operations do. -/
structure Fhetch.Residuewise (F : Fhetch P M) : Prop where
  base_fromPairs : ∀ pairs, F.base (F.fromPairs pairs) = pairs.map Prod.snd
  residue_fromPairs : ∀ pairs, (pairs.map Prod.snd).Nodup → ∀ r ∈ pairs,
    F.residue (F.fromPairs pairs) r.2 = r.1
  pp : ∀ (op : PpOp) m m', F.base m = F.base m' → (F.base m).Nodup → ∀ q ∈ F.base m,
    F.residue (op.mr F m m') q = op.sr F (F.residue m q) (F.residue m' q) q
  ps : ∀ (op : PpOp) m scalars, scalars.map Prod.snd = F.base m → (F.base m).Nodup →
    ∀ s ∈ scalars, F.residue (op.mrs F m scalars) s.2 = op.srs F (F.residue m s.2) s.1 s.2
  transform : ∀ (op : TransformOp) m, (F.base m).Nodup → ∀ q ∈ F.base m,
    F.residue (op.mr F m) q = op.sr F (F.residue m q) q

/-- The operations that both paths have. -/
inductive ResidueOp where
  | pp (op : PpOp)
  | ps (op : PpOp)
  | transform (op : TransformOp)

/-- The pointers, the scalar and the modulus index of one residue. An operation reads those that it
has. -/
structure Residue where
  dst : DevAddr
  src1 : DevAddr
  src2 : DevAddr
  scalar : UInt64
  modIdx : ℤ

namespace ResidueOp

/-- The sources of one residue. -/
def srcs : ResidueOp → Residue → List DevAddr
  | .pp _, r => [r.src1, r.src2]
  | _, r => [r.src1]

/-- The call on one residue. -/
def single : ResidueOp → Residue → Call
  | .pp op, r => .pp op r.dst r.src1 r.src2 r.modIdx
  | .ps op, r => .ps op r.dst r.src1 r.scalar r.modIdx
  | .transform op, r => .transform op r.dst r.src1 r.modIdx

/-- The call on several residues. -/
def multi (op : ResidueOp) (base : List UInt64) (rs : List Residue) : Call :=
  match op with
  | .pp op => .ppMrp op (some (rs.map (·.dst))) (some (rs.map (·.src1)))
    (some (rs.map (·.src2))) (some base)
  | .ps op => .psMrp op (some (rs.map (·.dst))) (some (rs.map (·.src1)))
    (some (rs.map (·.scalar))) (some base)
  | .transform op => .transformMrp op (some (rs.map (·.dst))) (some (rs.map (·.src1))) (some base)

/-- The calls on one residue each. -/
def singles (op : ResidueOp) (env : CompilerReplies P) (rs : List Residue) :
    List (Invocation P) :=
  rs.map fun r => ⟨env, op.single r⟩

/-- The result for one residue, from the values of its sources. -/
def result (F : Fhetch P M) (val : DevAddr → P) (q : UInt64) : ResidueOp → Residue → P
  | .pp op, r => op.sr F (val r.src1) (val r.src2) q
  | .ps op, r => op.srs F (val r.src1) r.scalar q
  | .transform op, r => op.sr F (val r.src1) q

/-- No pointer of a residue is null. -/
def Nonnull (op : ResidueOp) (r : Residue) : Prop := r.dst ≠ .null ∧ ∀ a ∈ op.srcs r, a ≠ .null

instance (op : ResidueOp) (r : Residue) : Decidable (op.Nonnull r) :=
  inferInstanceAs (Decidable (_ ∧ _))

/-- The result depends on the values of the sources alone. -/
theorem result_congr {F : Fhetch P M} {val val' : DevAddr → P} {q : UInt64} {op : ResidueOp}
    {r : Residue} (h : ∀ a ∈ op.srcs r, val a = val' a) :
    op.result F val q r = op.result F val' q r := by
  cases op with
  | pp op =>
    rw [result, result, h r.src1 (List.mem_cons_self ..),
      h r.src2 (List.mem_cons_of_mem _ (List.mem_cons_self ..))]
  | ps op => rw [result, result, h r.src1 (List.mem_cons_self ..)]
  | transform op => rw [result, result, h r.src1 (List.mem_cons_self ..)]

end ResidueOp

/-! ## Sessions and groups -/

namespace World

/-- Whether the backend is initialized after a session. -/
def initializedAfter (env : CompilerReplies P) (w : World P M) : Bool :=
  w.initialized || (!w.config.unsupportedDataFormat && env.initReturns)

/-- A session starts a recording where the backend is initialized then. -/
theorem session_flags (F : Fhetch P M) (env : CompilerReplies P) (w : World P M) :
    (w.act F (.session env)).initialized = w.initializedAfter env ∧
      (w.act F (.session env)).epoch.recording =
        (w.epoch.recording || w.initializedAfter env) := by
  unfold act ensureRecordingLocked ensureInitialized initializedAfter
  rcases hw : w.initialized <;> rcases hu : w.config.unsupportedDataFormat <;>
    rcases hr : env.initReturns <;> rcases hrec : w.epoch.recording <;> simp [hw, hr, hrec]

/-- Opening a session changes of the rest only whether the compiler records. -/
theorem session_rest (F : Fhetch P M) (env : CompilerReplies P) (w : World P M) :
    (w.act F (.session env)).rest = { w.rest with
      epoch := { w.rest.epoch with
        recording := w.epoch.recording || w.initializedAfter env }
      initialized := w.initializedAfter env } := by
  obtain ⟨hi, hr⟩ := session_flags F env w
  obtain ⟨recording, initialized, cs, -, he⟩ := session_frame (F := F) env w
  rw [he] at hi hr
  rw [he, ← hr, ← hi]
  rfl

/-- What a session does depends on what no access changes. -/
theorem session_rest_congr (F : Fhetch P M) (env : CompilerReplies P) {w w' : World P M}
    (h : w'.rest = w.rest) : (w'.act F (.session env)).rest = (w.act F (.session env)).rest := by
  have hi : w'.rest.initialized = w.rest.initialized := by rw [h]
  have hc : w'.rest.config = w.rest.config := by rw [h]
  have hr : w'.rest.epoch.recording = w.rest.epoch.recording := by rw [h]
  change w'.initialized = w.initialized at hi
  change w'.config = w.config at hc
  change w'.epoch.recording = w.epoch.recording at hr
  have hup : w'.initializedAfter env = w.initializedAfter env := by
    rw [initializedAfter, hi, hc, initializedAfter]
  rw [session_rest, session_rest, h, hr, hup]

/-- A second session changes nothing. -/
theorem session_session (F : Fhetch P M) (env : CompilerReplies P) (w : World P M) :
    ((w.act F (.session env)).act F (.session env)).rest = (w.act F (.session env)).rest := by
  obtain ⟨hi, hr⟩ := session_flags F env w
  have hc : (w.act F (.session env)).config = w.config := by
    obtain ⟨_, _, _, -, he⟩ := session_frame (F := F) env w
    rw [he]
  have hup : (w.act F (.session env)).initializedAfter env = w.initializedAfter env := by
    rw [initializedAfter, hi, hc, initializedAfter, Bool.or_assoc, Bool.or_self]
  rw [session_rest, hr, hup, Bool.or_assoc, Bool.or_self, ← hr, ← hi]
  rfl

end World

/-! ## Registering a group -/

namespace EpochState

/-- The epoch without what it holds for its addresses and the names of multi-residue inputs. -/
def rest (s : EpochState P) : EpochState P := { s with
  polyMap := ∅
  inputAddrs := ∅
  inputCounter := 0
  addrModulus := ∅
  mrpInNames := ∅
  mrpInNameCounter := 0
  mrpInputTaggedNames := ∅ }

/-- What changes the rest alone in each round changes it alone in a loop. -/
theorem rest_foldl {β : Type} {f : EpochState P → β → EpochState P}
    (hf : ∀ s b, (f s b).rest = f s.rest b) (bs : List β) (s : EpochState P) :
    (bs.foldl f s).rest = bs.foldl f s.rest := by
  induction bs generalizing s with
  | nil => rfl
  | cons b bs ih => rw [List.foldl_cons, List.foldl_cons, ih, hf]

/-- Evicting a group changes the rest alone. -/
theorem rest_evict (s : EpochState P) (name : ProbeName) :
    (s.evictMrpGroupLocked name).rest = s.rest.evictMrpGroupLocked name := by
  have hknown : s.rest.knownMrpGroups = s.knownMrpGroups := rfl
  unfold evictMrpGroupLocked
  rw [hknown]
  rcases AList.lookup name s.knownMrpGroups with _ | group <;> rfl

/-- Evicting those that conflict with one changes it alone. -/
theorem rest_evictConflicting (name : ProbeName) (s : EpochState P) (a : DevAddr) :
    (s.evictConflicting name a).rest = s.rest.evictConflicting name a := by
  have hindex : s.rest.addrToMrpGroups = s.addrToMrpGroups := rfl
  unfold evictConflicting
  rw [hindex]
  rcases AList.lookup a s.addrToMrpGroups with _ | names
  · rfl
  · exact rest_foldl rest_evict _ s

/-- Tagging an output changes it alone. -/
theorem rest_tagIfUntagged (s : EpochState P) (a : DevAddr) :
    (s.tagIfUntagged a).rest = s.rest.tagIfUntagged a := by
  have hpend : s.rest.pendingOutputs = s.pendingOutputs := rfl
  unfold tagIfUntagged
  rw [hpend]
  split_ifs <;> rfl

/-- Registering a group touches nothing of what the addresses hold. -/
theorem rest_register (addrs : List DevAddr) (moduli : List UInt64) (name : ProbeName)
    (s : EpochState P) : (registerMrpOutputGroupLocked addrs moduli name s).2.rest =
      (registerMrpOutputGroupLocked addrs moduli name s.rest).2 := by
  have hknown : s.rest.knownMrpGroups = s.knownMrpGroups := rfl
  have hpend : s.rest.pendingMrpGroups = s.pendingMrpGroups := rfl
  -- The sweep looks at nothing but the registry.
  have hsweep := rest_foldl (rest_evictConflicting name) addrs s
  unfold registerMrpOutputGroupLocked
  rw [hknown]
  split_ifs
  · rfl
  rcases AList.lookup name s.knownMrpGroups with _ | existing
  · dsimp only
    rw [← hsweep]
    rfl
  -- Neither do the tags that a pending group passes on.
  · have htag : ∀ t : EpochState P, (addrs.foldl tagIfUntagged t).rest =
        addrs.foldl tagIfUntagged t.rest := rest_foldl rest_tagIfUntagged addrs
    dsimp only
    rw [← hsweep]
    generalize addrs.foldl (evictConflicting name) s = t
    have hshape : (claimGroup ⟨addrs, moduli⟩ name (withdrawClaims existing name t)).rest =
        claimGroup ⟨addrs, moduli⟩ name (withdrawClaims existing name t.rest) := rfl
    have hpending : (claimGroup ⟨addrs, moduli⟩ name (withdrawClaims existing name
        t.rest)).pendingMrpGroups = (claimGroup ⟨addrs, moduli⟩ name
          (withdrawClaims existing name t)).pendingMrpGroups := rfl
    rw [hpending]
    split_ifs
    · rfl
    · exact htag _
    · rfl

/-- The name of an output group, and the epoch after it was assigned. -/
theorem rest_nameGroup (leading : DevAddr) (s : EpochState P) :
    (mrpGroupNameLocked true leading s).1 = (mrpGroupNameLocked true leading s.rest).1 ∧
      (mrpGroupNameLocked true leading s).2.rest = (mrpGroupNameLocked true leading s.rest).2 := by
  have hout : s.rest.mrpOutNames = s.mrpOutNames := rfl
  unfold mrpGroupNameLocked
  rw [if_pos rfl, if_pos rfl, hout]
  rcases AList.lookup leading s.mrpOutNames with _ | name <;> exact ⟨rfl, rfl⟩

/-- What the epoch holds for its addresses. -/
def holds (s : EpochState P) : UMap DevAddr P × Finset DevAddr × ℕ × UMap DevAddr UInt64 ×
    UMap DevAddr ProbeName × ℕ × Finset ProbeName :=
  (s.polyMap, s.inputAddrs, s.inputCounter, s.addrModulus, s.mrpInNames, s.mrpInNameCounter,
    s.mrpInputTaggedNames)

/-- What an address holds is apart from the registry. -/
theorem apart_holds : Apart (@holds P) where
  registry h := by
    unfold RegistryOnly at h
    rw [h]
    rfl
  tags h := by
    rw [h.frame]
    rfl

/-- Naming a group does not change it. -/
theorem holds_nameGroup (leading : DevAddr) (s : EpochState P) :
    (mrpGroupNameLocked true leading s).2.holds = s.holds := by
  unfold mrpGroupNameLocked
  rw [if_pos rfl]
  rcases AList.lookup leading s.mrpOutNames with _ | name <;> rfl

end EpochState

namespace World

variable {addrs : List DevAddr} {base : List UInt64}

/-- Several destinations are registered under the name of the first. -/
theorem registerGroup_named (hlen : addrs.length = base.length) (hlong : 1 < base.length)
    {w : World P M} {name : ProbeName} {s : EpochState P}
    (hname : EpochState.mrpGroupNameLocked true (addrs.headD .null) w.epoch = (.ok name, s)) :
    registerGroup addrs base w =
      (.ok (), { w with epoch := (EpochState.registerMrpOutputGroupLocked addrs base name s).2 }) := by
  have hrun : onEpoch (EpochState.mrpGroupNameLocked true (addrs.headD .null)) w =
      (.ok name, { w with epoch := s }) := by
    rw [onEpoch, Expected.zoom_run, hname]
  unfold registerGroup
  rw [if_pos hlong, Expected.bind_run_ok hrun, onEpoch, Expected.zoom_run, register_ok hlen]

/-- Registering the destinations of an operation succeeds, and changes only the registry of groups
and the tags. -/
theorem registerGroup_spec (hlen : addrs.length = base.length) (w : World P M) :
    (registerGroup addrs base w).1 = .ok () ∧ (registerGroup addrs base w).2.values = w.values ∧
      (registerGroup addrs base w).2.inputTags = w.inputTags ∧
      (registerGroup addrs base w).2.rest = (registerGroup addrs base w.rest).2 := by
  -- A base of one modulus registers nothing.
  by_cases hlong : 1 < base.length
  · obtain ⟨name, s, hs, -, -⟩ := outputName_spec (addrs.headD .null) w.epoch
    obtain ⟨hname, hrest⟩ := EpochState.rest_nameGroup (addrs.headD .null) w.epoch
    have hholds := EpochState.holds_nameGroup (addrs.headD .null) w.epoch
    rw [hs] at hname hrest hholds
    have hs' : EpochState.mrpGroupNameLocked true (addrs.headD .null) w.rest.epoch =
        (.ok name, s.rest) := Prod.ext hname.symm hrest.symm
    rw [registerGroup_named hlen hlong hs, registerGroup_named hlen hlong hs',
      ← EpochState.rest_register]
    -- The registration keeps the bindings, the inputs and the moduli.
    have hkeep := (EpochState.apart_holds.register addrs base name s).trans hholds
    simp only [EpochState.holds, Prod.mk.injEq] at hkeep
    obtain ⟨hpoly, hin, hcounter, hmod, htag, htagcounter, htagged⟩ := hkeep
    refine ⟨rfl, ?_, ?_, rfl⟩
    · unfold values binding shadow
      dsimp only
      rw [hpoly, hin, hcounter, hmod]
    · unfold inputTags
      dsimp only
      rw [htag, htagcounter, htagged]
  · unfold registerGroup
    rw [if_neg hlong]
    exact ⟨rfl, rfl, rfl, rfl⟩

/-- Registering the destinations of an operation leaves the allocator, -/
theorem registerGroup_allocator (hlen : addrs.length = base.length) (w : World P M) :
    (registerGroup addrs base w).2.allocator = w.allocator := by
  by_cases hlong : 1 < base.length
  · obtain ⟨name, s, hs, -, -⟩ := outputName_spec (addrs.headD .null) w.epoch
    rw [registerGroup_named hlen hlong hs]
  · unfold registerGroup
    rw [if_neg hlong]
    rfl

/-- and a single destination is not registered. -/
theorem registerGroup_single (hone : base.length = 1) (w : World P M) :
    registerGroup addrs base w = (.ok (), w) := by
  unfold registerGroup
  rw [if_neg (by omega)]
  rfl

end World

/-! ## The scalar path -/

namespace ResidueOp

section

variable {F : Fhetch P M} {op : ResidueOp} {r : Residue} {w : World P M}

/-- What a call on one residue does after its session. -/
def body (F : Fhetch P M) : ResidueOp → Residue → Method P M Unit
  | .pp op, r => do
    let q ← resolveModulus r.modIdx
    let p1 ← lookupOrCreateLocked F r.src1
    let p2 ← lookupOrCreateLocked F r.src2
    modifyEpoch (EpochState.storeComputeResultLocked r.dst (op.sr F p1 p2 q) q)
  | .ps op, r => do
    let q ← resolveModulus r.modIdx
    let p ← lookupOrCreateLocked F r.src1
    modifyEpoch (EpochState.storeComputeResultLocked r.dst (op.srs F p r.scalar q) q)
  | .transform op, r => do
    let q ← resolveModulus r.modIdx
    let p ← lookupOrCreateLocked F r.src1
    modifyEpoch (EpochState.storeComputeResultLocked r.dst (op.sr F p q) q)

/-- The accesses of a call on one residue. -/
def steps (F : Fhetch P M) (val : DevAddr → P) (q : UInt64) (op : ResidueOp) (r : Residue) :
    List (Access P) :=
  (op.srcs r).map .resolve ++ [.store r.dst (op.result F val q r) q]

/-- The pointers of a call on one residue are checked, and then it opens a session. -/
theorem run_single (env : CompilerReplies P) (op : ResidueOp) (r : Residue) (w : World P M) :
    ∃ rejected : Bool, (rejected = true ↔ ¬ op.Nonnull r) ∧ (op.single r).run F env w =
      Shim.guarded rejected (Shim.setInternalResult
        (epochSession env >>= fun _ => op.body F r)) w := by
  cases op with
  | pp op =>
    refine ⟨r.dst == .null || r.src1 == .null || r.src2 == .null, ?_, by cases op <;> rfl⟩
    simp [Nonnull, srcs, or_assoc, imp_iff_not_or, @eq_comm _ DevAddr.null]
  | ps op =>
    refine ⟨r.dst == .null || r.src1 == .null, ?_, by cases op <;> rfl⟩
    simp [Nonnull, srcs, imp_iff_not_or]
  | transform op =>
    refine ⟨r.dst == .null || r.src1 == .null, ?_, by cases op <;> rfl⟩
    simp [Nonnull, srcs, imp_iff_not_or]

/-- A configured modulus is found. -/
theorem resolveModulus_run {modIdx : ℤ} (hq : w.config.modulus modIdx ≠ 0) :
    resolveModulus modIdx w = (.ok (w.config.modulus modIdx), w) := by
  unfold resolveModulus
  rw [Expected.get_bind_run, if_neg hq]
  rfl

/-- States with the same rest have the same configuration. -/
theorem config_eq_of_rest {w w' : World P M} (h : w'.rest = w.rest) : w'.config = w.config := by
  have hc : w'.rest.config = w.rest.config := by rw [h]
  exact hc

/-- Changing the epoch does that and nothing else. -/
theorem modifyEpoch_run (f : EpochState P → EpochState P) (w : World P M) :
    modifyEpoch f w = (.ok (), { w with epoch := f w.epoch }) := rfl

variable (op r) in
/-- A call on one residue whose sources resolve makes its accesses. -/
theorem body_run (hq : w.config.modulus r.modIdx ≠ 0) (h : ∀ a ∈ op.srcs r, w.Resolves a) :
    ∃ w', op.body F r w = (.ok (), w') ∧
      w'.values = (op.steps F (w.values.value F w.config.ringDim)
        (w.config.modulus r.modIdx) r).foldl (Values.access F w.config.ringDim) w.values ∧
      w'.rest = w.rest ∧ w'.inputTags = w.inputTags := by
  -- The first source is looked up, which leaves the second one as readable as it was.
  have h1 : w.Resolves r.src1 := h r.src1 (by cases op <;> exact List.mem_cons_self ..)
  obtain ⟨w₁, hrun₁, hv₁, hr₁, ht₁⟩ := lookup_run (F := F) h1
  cases op with
  | pp op =>
    have h2 := (resolves_resolve h1 hv₁ hr₁).mpr
      (h r.src2 (List.mem_cons_of_mem _ (List.mem_cons_self ..)))
    obtain ⟨w₂, hrun₂, hv₂, hr₂, ht₂⟩ := lookup_run (F := F) h2
    rw [config_eq_of_rest hr₁, hv₁] at hrun₂ hv₂
    rw [Values.value_resolve] at hrun₂
    have hrun : (pp op).body F r w = modifyEpoch (EpochState.storeComputeResultLocked r.dst
        (op.sr F (w.values.value F w.config.ringDim r.src1)
          (w.values.value F w.config.ringDim r.src2) (w.config.modulus r.modIdx))
        (w.config.modulus r.modIdx)) w₂ := by
      rw [body, Expected.bind_run_ok (resolveModulus_run hq), Expected.bind_run_ok hrun₁,
        Expected.bind_run_ok hrun₂]
    -- The store comes last.
    refine ⟨_, hrun.trans (modifyEpoch_run ..), ?_, hr₂.trans hr₁, ht₂.trans ht₁⟩
    rw [values_store, hv₂]
    rfl
  | ps op =>
    have hrun : (ps op).body F r w = modifyEpoch (EpochState.storeComputeResultLocked r.dst
        (op.srs F (w.values.value F w.config.ringDim r.src1) r.scalar (w.config.modulus r.modIdx))
        (w.config.modulus r.modIdx)) w₁ := by
      rw [body, Expected.bind_run_ok (resolveModulus_run hq), Expected.bind_run_ok hrun₁]
    refine ⟨_, hrun.trans (modifyEpoch_run ..), ?_, hr₁, ht₁⟩
    rw [values_store, hv₁]
    rfl
  | transform op =>
    have hrun : (transform op).body F r w = modifyEpoch (EpochState.storeComputeResultLocked r.dst
        (op.sr F (w.values.value F w.config.ringDim r.src1) (w.config.modulus r.modIdx))
        (w.config.modulus r.modIdx)) w₁ := by
      rw [body, Expected.bind_run_ok (resolveModulus_run hq), Expected.bind_run_ok hrun₁]
    refine ⟨_, hrun.trans (modifyEpoch_run ..), ?_, hr₁, ht₁⟩
    rw [values_store, hv₁]
    rfl

variable (op r) in
/-- A call on one residue with a source that does not resolve is an error. -/
theorem body_error (hq : w.config.modulus r.modIdx ≠ 0) (h : ¬ ∀ a ∈ op.srcs r, w.Resolves a) :
    ∃ e w', op.body F r w = (.error e, w') := by
  have hmod := resolveModulus_run hq
  by_cases h1 : w.Resolves r.src1
  · obtain ⟨w₁, hrun₁, hv₁, hr₁, -⟩ := lookup_run (F := F) h1
    cases op with
    | pp op =>
      have h2 : ¬ w₁.Resolves r.src2 := by
        rw [resolves_resolve h1 hv₁ hr₁]
        intro h2
        refine h fun a ha => ?_
        rcases List.mem_pair.mp ha with rfl | rfl
        · exact h1
        · exact h2
      obtain ⟨e, w₂, hrun₂⟩ := lookup_error (F := F) h2
      refine ⟨e, w₂, ?_⟩
      rw [body, Expected.bind_run_ok hmod, Expected.bind_run_ok hrun₁, Expected.bind_run_error hrun₂]
    | ps op => exact absurd (fun a ha => List.mem_singleton.mp ha ▸ h1) h
    | transform op => exact absurd (fun a ha => List.mem_singleton.mp ha ▸ h1) h
  · obtain ⟨e, w₁, hrun₁⟩ := lookup_error (F := F) h1
    refine ⟨e, w₁, ?_⟩
    cases op <;> rw [body, Expected.bind_run_ok hmod, Expected.bind_run_error hrun₁]

/-- The pointers of a call on one residue are given, and its sources resolve. -/
def Ready (w : World P M) (op : ResidueOp) (r : Residue) : Prop :=
  op.Nonnull r ∧ ∀ a ∈ op.srcs r, w.Resolves a

/-- A call on one residue that is ready makes its accesses. -/
theorem single_run (env : CompilerReplies P) (hq : w.config.modulus r.modIdx ≠ 0)
    (h : Ready w op r) :
    ∃ w', (op.single r).run F env w = (.setError .success, w') ∧
      w'.values = (op.steps F (w.values.value F w.config.ringDim)
        (w.config.modulus r.modIdx) r).foldl (Values.access F w.config.ringDim) w.values ∧
      w'.rest = (w.act F (.session env)).rest ∧ w'.inputTags = w.inputTags := by
  obtain ⟨rejected, hrejected, hrun⟩ := run_single (F := F) env op r w
  have hfalse : rejected = false := by
    rw [Bool.eq_false_iff, Ne, hrejected, not_not]
    exact h.1
  -- The session keeps the values, so the body runs as if there had been none.
  have hv := values_session F env w
  have hc : (w.act F (.session env)).config = w.config := by
    obtain ⟨_, _, _, -, he⟩ := session_frame (F := F) env w
    rw [he]
  have ht : (w.act F (.session env)).inputTags = w.inputTags := by
    obtain ⟨_, _, _, -, he⟩ := session_frame (F := F) env w
    rw [he]
    rfl
  obtain ⟨w', hbody, hvalues, hrest, htags⟩ := body_run (F := F) op r
    (w := w.act F (.session env)) (by rw [hc]; exact hq)
    fun a ha => (resolves_session F env w a).mpr (h.2 a ha)
  rw [hv, hc] at hvalues
  refine ⟨w', ?_, hvalues, hrest, htags.trans ht⟩
  rw [hrun, hfalse]
  change Shim.replyWith _ (epochSession env >>= fun _ => op.body F r) w = _
  have hsession : (epochSession env >>= fun _ => op.body F r) w = (.ok (), w') := hbody
  unfold Shim.replyWith
  -- The call replies with success where its body succeeds.
  rw [hsession]

/-- A call on one residue that is not ready fails. -/
theorem single_error (env : CompilerReplies P) (hq : w.config.modulus r.modIdx ≠ 0)
    (h : ¬ Ready w op r) : ((op.single r).run F env w).1.code ≠ .success := by
  obtain ⟨rejected, hrejected, hrun⟩ := run_single (F := F) env op r w
  rw [hrun]
  cases rejected with
  | true => exact fun h => HazeError.noConfusion h
  | false =>
    have hnonnull : op.Nonnull r := by
      by_contra hnull
      exact Bool.false_ne_true (hrejected.mpr hnull)
    have hc : (w.act F (.session env)).config = w.config := by
      obtain ⟨_, _, _, -, he⟩ := session_frame (F := F) env w
      rw [he]
    obtain ⟨e, w', hbody⟩ := body_error (F := F) op r
      (w := w.act F (.session env)) (by rw [hc]; exact hq)
      fun hall => h ⟨hnonnull, fun a ha => (resolves_session F env w a).mp (hall a ha)⟩
    have hsession : (epochSession env >>= fun _ => op.body F r) w = (.error e, w') := hbody
    change (Shim.replyWith _ (epochSession env >>= fun _ => op.body F r) w).1.code ≠ _
    unfold Shim.replyWith
    rw [hsession]
    exact toPublicError_ne_success e

/-- A call on one residue changes for no other address whether it resolves, and not its value. -/
theorem single_keeps {w' : World P M} {env : CompilerReplies P} {val : DevAddr → P} {q : UInt64}
    (h : ∀ a ∈ op.srcs r, w.Resolves a)
    (hv : w'.values = (op.steps F val q r).foldl (Values.access F w.config.ringDim) w.values)
    (hrest : w'.rest = (w.act F (.session env)).rest) {a : DevAddr} (ha : a ≠ r.dst) :
    (w'.Resolves a ↔ w.Resolves a) ∧
      w'.values.value F w.config.ringDim a = w.values.value F w.config.ringDim a := by
  -- The only store of the call is to its destination.
  have hstore : ∀ p q', (.store a p q' : Access P) ∉ op.steps F val q r := by
    intro p q' hmem
    rcases List.mem_append.mp hmem with hmem | hmem
    · obtain ⟨b, -, hb⟩ := List.mem_map.mp hmem
      cases hb
    · cases List.mem_singleton.mp hmem
      exact ha rfl
  refine ⟨?_, by rw [hv, Values.value_foldl hstore]⟩
  have hc : (w.act F (.session env)).config = w.config := by
    obtain ⟨_, _, _, -, he⟩ := session_frame (F := F) env w
    rw [he]
  rw [← resolves_session F env w a]
  refine resolves_foldl (F := F) (fun b hb => ?_) hstore
    (by rw [hv, hc, values_session F env w]) hrest
  rw [resolves_session]
  rcases List.mem_append.mp hb with hb | hb
  · obtain ⟨c, hmem, heq⟩ := List.mem_map.mp hb
    injection heq with heq
    exact heq ▸ h c hmem
  · cases List.mem_singleton.mp hb

/-- The accesses of calls on one residue each. -/
def allSteps (F : Fhetch P M) (w : World P M) (op : ResidueOp) (rs : List Residue) :
    List (Access P) :=
  rs.flatMap fun r => op.steps F (w.values.value F w.config.ringDim) (w.config.modulus r.modIdx) r

/-- Calls on one residue each, whose destinations are no source, succeed where each is ready from
the start, and then make their accesses. -/
theorem singles_run (env : CompilerReplies P) {rs : List Residue}
    (hmod : ∀ r ∈ rs, w.config.modulus r.modIdx ≠ 0)
    (hdisjoint : ∀ r ∈ rs, ∀ r' ∈ rs, r.dst ∉ op.srcs r') :
    ((∀ reply ∈ replies F w (op.singles env rs), reply.code = .success) ↔ ∀ r ∈ rs, Ready w op r) ∧
      ((∀ r ∈ rs, Ready w op r) →
        (runAll F w (op.singles env rs)).values =
          (op.allSteps F w rs).foldl (Values.access F w.config.ringDim) w.values ∧
        (rs ≠ [] → (runAll F w (op.singles env rs)).rest = (w.act F (.session env)).rest) ∧
        (runAll F w (op.singles env rs)).inputTags = w.inputTags) := by
  -- By induction on the residues; no destination is a source, so each call finds what the first one
  -- would.
  induction rs generalizing w with
  | nil =>
    exact ⟨iff_of_true (fun _ h => absurd h List.not_mem_nil) fun _ h => absurd h List.not_mem_nil,
      fun _ => ⟨rfl, fun h => absurd rfl h, rfl⟩⟩
  | cons r rs ih =>
    have hq := hmod r (List.mem_cons_self ..)
    by_cases hready : Ready w op r
    · obtain ⟨w', hrun, hvalues, hrest, htags⟩ := single_run (F := F) env hq hready
      have hafter : w.after F ⟨env, op.single r⟩ = w' := congrArg Prod.snd hrun
      have hconfig : w'.config = w.config := by
        have hs := config_eq_of_rest hrest
        obtain ⟨_, _, _, -, he⟩ := session_frame (F := F) env w
        rw [hs, he]
      -- What this call has done leaves the sources of the others as they were.
      have hkeep : ∀ r' ∈ rs, ∀ a ∈ op.srcs r', (w'.Resolves a ↔ w.Resolves a) ∧
          w'.values.value F w.config.ringDim a = w.values.value F w.config.ringDim a := by
        intro r' hr' a ha
        refine single_keeps hready.2 hvalues hrest fun heq => ?_
        exact hdisjoint r (List.mem_cons_self ..) r' (List.mem_cons_of_mem _ hr') (heq ▸ ha)
      have hreadyIff : ∀ r' ∈ rs, (Ready w' op r' ↔ Ready w op r') := fun r' hr' =>
        and_congr_right fun _ => forall₂_congr fun a ha => (hkeep r' hr' a ha).1
      have hsteps : op.allSteps F w' rs = op.allSteps F w rs := by
        unfold allSteps
        rw [hconfig]
        refine List.flatMap_congr fun r' hr' => ?_
        unfold steps
        rw [result_congr fun a ha => (hkeep r' hr' a ha).2]
      obtain ⟨hiff, hstate⟩ := ih (w := w')
        (fun r' hr' => by rw [hconfig]; exact hmod r' (List.mem_cons_of_mem _ hr'))
        (fun r' hr' r'' hr'' => hdisjoint r' (List.mem_cons_of_mem _ hr') r''
          (List.mem_cons_of_mem _ hr''))
      have hreply : (Invocation.run F ⟨env, op.single r⟩ w).1 = .setError .success :=
        congrArg Prod.fst hrun
      change ((∀ reply ∈ (Invocation.run F ⟨env, op.single r⟩ w).1 ::
        replies F (w.after F ⟨env, op.single r⟩) (op.singles env rs), reply.code = .success) ↔ _) ∧ _
      rw [hreply, hafter]
      refine ⟨?_, fun hall => ?_⟩
      · rw [List.forall_mem_cons, List.forall_mem_cons, hiff]
        exact and_congr (iff_of_true rfl hready) (forall₂_congr hreadyIff)
      change (runAll F (w.after F ⟨env, op.single r⟩) (op.singles env rs)).values = _ ∧
        (_ → (runAll F (w.after F ⟨env, op.single r⟩) (op.singles env rs)).rest = _) ∧
          (runAll F (w.after F ⟨env, op.single r⟩) (op.singles env rs)).inputTags = _
      rw [hafter]
      obtain ⟨hvalues', hrest', htags'⟩ := hstate fun r' hr' =>
        (hreadyIff r' hr').mpr (hall r' (List.mem_cons_of_mem _ hr'))
      refine ⟨?_, fun _ => ?_, htags'.trans htags⟩
      · rw [hvalues', hsteps, hconfig, hvalues, ← List.foldl_append]
        rfl
      · rcases rs with _ | ⟨r', rs⟩
        · exact hrest
        · rw [hrest' (List.cons_ne_nil _ _), session_rest_congr F env hrest, session_session]
    -- A call that is not ready fails, and then not all succeed.
    · have herror := single_error (F := F) env hq hready
      refine ⟨iff_of_false (fun h => herror (h _ (List.mem_cons_self ..))) fun h =>
        hready (h r (List.mem_cons_self ..)), fun h => ?_⟩
      exact absurd (h r (List.mem_cons_self ..)) hready

end

end ResidueOp

/-! ## The multi-residue path -/

namespace World

section

variable {F : Fhetch P M} {w : World P M}

/-- Resolving several residues. -/
theorem lookupResidues_run (residues : List (DevAddr × UInt64))
    (h : ∀ r ∈ residues, w.Resolves r.1) :
    ∃ w', Expected.mapEach (lookupResidue F) residues w =
        (.ok (residues.map fun r => (w.values.value F w.config.ringDim r.1, r.2)), w') ∧
      w'.values = (residues.map fun r => .resolve r.1).foldl
        (Values.access F w.config.ringDim) w.values ∧
      w'.rest = w.rest ∧ w'.inputTags = w.inputTags := by
  -- By induction on the residues, each of which leaves the rest as readable as before.
  induction residues generalizing w with
  | nil => exact ⟨w, rfl, rfl, rfl, rfl⟩
  | cons r rs ih =>
    obtain ⟨w₁, hrun, hv, hr, ht⟩ := lookup_run (F := F) (h r (List.mem_cons_self ..))
    have hc := ResidueOp.config_eq_of_rest hr
    obtain ⟨w₂, hrun', hv', hr', ht'⟩ := ih (w := w₁) fun r' hr' =>
      (resolves_resolve (h r (List.mem_cons_self ..)) hv hr).mpr
        (h r' (List.mem_cons_of_mem _ hr'))
    have hone : lookupResidue F r w = (.ok (w.values.value F w.config.ringDim r.1, r.2), w₁) :=
      Expected.bind_run_ok hrun
    refine ⟨w₂, ?_, ?_, hr'.trans hr, ht'.trans ht⟩
    · rw [Expected.mapEach_cons, Expected.bind_run_ok hone, Expected.bind_run_ok hrun', hc, hv]
      simp only [Values.value_resolve]
      rfl
    · rw [hv', hc, hv]
      rfl

/-- When a residue does not resolve, the lookups fail. -/
theorem lookupResidues_error (residues : List (DevAddr × UInt64))
    (h : ¬ ∀ r ∈ residues, w.Resolves r.1) :
    ∃ e w', Expected.mapEach (lookupResidue F) residues w = (.error e, w') := by
  induction residues generalizing w with
  | nil => exact absurd (fun r hr => absurd hr List.not_mem_nil) h
  | cons r rs ih =>
    rw [Expected.mapEach_cons]
    by_cases hr : w.Resolves r.1
    · obtain ⟨w₁, hrun, hv, hrest, -⟩ := lookup_run (F := F) hr
      have hone : lookupResidue F r w = (.ok (w.values.value F w.config.ringDim r.1, r.2), w₁) :=
        Expected.bind_run_ok hrun
      obtain ⟨e, w₂, hrun'⟩ := ih (w := w₁) fun hall => h fun r' hr' => by
        rcases List.mem_cons.mp hr' with rfl | hr'
        · exact hr
        · exact (resolves_resolve hr hv hrest).mp (hall r' hr')
      exact ⟨e, w₂, by rw [Expected.bind_run_ok hone, Expected.bind_run_error hrun']⟩
    · obtain ⟨e, w₁, hrun⟩ := lookup_error (F := F) hr
      have hone : lookupResidue F r w = (.error e, w₁) := Expected.bind_run_error hrun
      exact ⟨e, w₁, by rw [Expected.bind_run_error hone]⟩

/-- As many pointers as there are, are all of them. -/
theorem takePtrs_self {n : ℕ} {ptrs : List DevAddr} (h : ptrs.length = n) :
    takePtrs n ptrs = ptrs := by
  unfold takePtrs
  rw [← h, List.takeD_eq_take _ (Nat.le_refl _), List.take_length]

/-- Naming and tagging a multi-residue input changes nothing else. -/
theorem nameInput_run (leading : DevAddr) (mrp : M) (w : World P M) :
    ∃ w', (onEpoch (EpochState.mrpGroupNameLocked false leading) >>= fun name =>
        tagMrpInputIfNewLocked name mrp) w = (.ok (), w') ∧
      w'.values = w.values ∧ w'.rest = w.rest := by
  have hname : ∃ name s, EpochState.mrpGroupNameLocked false leading w.epoch = (.ok name, s) ∧
      ({ w with epoch := s } : World P M).values = w.values ∧
      ({ w with epoch := s } : World P M).rest = w.rest := by
    unfold EpochState.mrpGroupNameLocked
    rw [if_neg Bool.false_ne_true]
    rcases AList.lookup leading w.epoch.mrpInNames with _ | name <;> exact ⟨_, _, rfl, rfl, rfl⟩
  obtain ⟨name, s, hs, hv, hr⟩ := hname
  have hrun : onEpoch (EpochState.mrpGroupNameLocked false leading) w =
      (.ok name, { w with epoch := s }) := by
    rw [onEpoch, Expected.zoom_run, hs]
  rw [Expected.bind_run_ok hrun, tagMrpInputIfNewLocked, Expected.get_bind_run]
  split_ifs
  · exact ⟨_, rfl, hv, hr⟩
  · exact ⟨_, rfl, hv, hr⟩

/-- Assembling a multi-residue polynomial. -/
theorem buildMrp_run {polys : List DevAddr} {base : List UInt64}
    (hlen : polys.length = base.length) (h : ∀ a ∈ polys, w.Resolves a) :
    ∃ w', buildMrpLocked F polys base w =
        (.ok (F.fromPairs ((polys.map (w.values.value F w.config.ringDim)).zip base)), w') ∧
      w'.values = (polys.map .resolve).foldl (Values.access F w.config.ringDim) w.values ∧
      w'.rest = w.rest ∧ (base.length ≤ 1 → w'.inputTags = w.inputTags) := by
  obtain ⟨w₁, hrun, hv, hr, ht⟩ := lookupResidues_run (F := F) (polys.zip base)
    fun r hr => h r.1 (List.of_mem_zip hr).1
  have hpairs : (polys.zip base).map (fun r => (w.values.value F w.config.ringDim r.1, r.2)) =
      (polys.map (w.values.value F w.config.ringDim)).zip base :=
    (List.zip_map_left ..).symm
  have haccess : (polys.zip base).map (fun r => (.resolve r.1 : Access P)) = polys.map .resolve := by
    have hfst : polys.map (.resolve : DevAddr → Access P) =
        ((polys.zip base).map Prod.fst).map .resolve := by rw [List.map_fst_zip hlen.le]
    rw [hfst, List.map_map]
    rfl
  rw [hpairs] at hrun
  rw [haccess] at hv
  unfold buildMrpLocked
  rw [takePtrs_self hlen, Expected.bind_run_ok hrun, Expected.get_bind_run]
  -- Naming the input changes neither the values nor the rest.
  split_ifs with hinput
  · obtain ⟨w₂, htag, hv₂, hr₂⟩ := nameInput_run (polys.headD .null)
      (F.fromPairs ((polys.map (w.values.value F w.config.ringDim)).zip base)) w₁
    refine ⟨w₂, ?_, hv₂.trans hv, hr₂.trans hr, fun hone => absurd hinput.1 (not_lt.mpr hone)⟩
    rw [← Expected.bind_assoc, Expected.bind_run_ok htag]
    rfl
  · exact ⟨w₁, rfl, hv, hr, fun _ => ht⟩

/-- When an address does not resolve, the polynomial is not built. -/
theorem buildMrp_error {polys : List DevAddr} {base : List UInt64}
    (hlen : polys.length = base.length) (h : ¬ ∀ a ∈ polys, w.Resolves a) :
    ∃ e w', buildMrpLocked F polys base w = (.error e, w') := by
  obtain ⟨e, w₁, hrun⟩ := lookupResidues_error (F := F) (w := w) (polys.zip base)
    fun hall => h fun a ha => by
      rw [← List.map_fst_zip hlen.le] at ha
      obtain ⟨r, hr, rfl⟩ := List.mem_map.mp ha
      exact hall r hr
  refine ⟨e, w₁, ?_⟩
  unfold buildMrpLocked
  rw [takePtrs_self hlen, Expected.bind_run_error hrun]

/-- Residues bound one after the other change nothing else. -/
theorem values_storeResidues (m : M) (residues : List (DevAddr × UInt64)) (w : World P M) :
    ({ w with epoch := storeResidues F m residues w.epoch } : World P M).values =
        (residues.map fun r => .store r.1 (F.residue m r.2) r.2).foldl
          (Values.access F w.config.ringDim) w.values ∧
      ({ w with epoch := storeResidues F m residues w.epoch } : World P M).rest = w.rest ∧
      ({ w with epoch := storeResidues F m residues w.epoch } : World P M).inputTags =
        w.inputTags := by
  induction residues generalizing w with
  | nil => exact ⟨rfl, rfl, rfl⟩
  | cons r rs ih =>
    obtain ⟨hv, hr, ht⟩ := ih { w with
      epoch := w.epoch.storeComputeResultLocked r.1 (F.residue m r.2) r.2 }
    rw [values_store] at hv
    exact ⟨hv, hr, ht⟩

/-- Binding the destinations of a multi-residue operation. -/
theorem storeMrp_run {dst : List DevAddr} {base : List UInt64} (m : M)
    (hlen : dst.length = base.length) (w : World P M) :
    ∃ w', storeMrpLocked F dst m base w = (.ok (), w') ∧
      w'.values = ((dst.zip base).map fun r => .store r.1 (F.residue m r.2) r.2).foldl
        (Values.access F w.config.ringDim) w.values ∧
      w'.rest = (registerGroup dst base w.rest).2 ∧ w'.inputTags = w.inputTags := by
  obtain ⟨hv, hr, ht⟩ := values_storeResidues (F := F) m (dst.zip base) w
  have hstore := forEach_storeResidue (F := F) m (dst.zip base) w
  generalize hw₁ : ({ w with epoch := storeResidues F m (dst.zip base) w.epoch } : World P M) = w₁
    at hv hr ht hstore
  obtain ⟨hok, hv₂, ht₂, hr₂⟩ := registerGroup_spec hlen w₁
  refine ⟨(registerGroup dst base w₁).2, ?_, hv₂.trans hv, by rw [hr₂, hr], ht₂.trans ht⟩
  unfold storeMrpLocked
  rw [takePtrs_self hlen, Expected.bind_run_ok hstore]
  exact Prod.ext hok rfl

end

end World

namespace ResidueOp

section

variable {F : Fhetch P M} {w : World P M} {rs : List Residue}

/-- The moduli of residues. -/
def base (w : World P M) (rs : List Residue) : List UInt64 :=
  rs.map fun r => w.config.modulus r.modIdx

/-- What a call on several residues does after its session. -/
def multiBody (F : Fhetch P M) (base : List UInt64) (rs : List Residue) :
    ResidueOp → Method P M Unit
  | .pp op => do
    let m1 ← buildMrpLocked F (rs.map (·.src1)) base
    let m2 ← buildMrpLocked F (rs.map (·.src2)) base
    storeMrpLocked F (rs.map (·.dst)) (op.mr F m1 m2) base
  | .ps op => do
    let m ← buildMrpLocked F (rs.map (·.src1)) base
    storeMrpLocked F (rs.map (·.dst)) (op.mrs F m (buildMrs (rs.map (·.scalar)) base)) base
  | .transform op => do
    let m ← buildMrpLocked F (rs.map (·.src1)) base
    storeMrpLocked F (rs.map (·.dst)) (op.mr F m) base

/-- A call on several residues checks its arrays, and then opens a session. -/
theorem run_multi (env : CompilerReplies P) (op : ResidueOp) (base : List UInt64)
    (rs : List Residue) (w : World P M) : (op.multi base rs).run F env w =
      Shim.guarded base.isEmpty (Shim.setInternalResult
        (epochSession env >>= fun _ => op.multiBody F base rs)) w := by
  cases op with
  | pp op => cases op <;> rfl
  | ps op => cases op <;> rfl
  | transform op => cases op <;> rfl

/-- The sources that a call on several residues resolves, in order. -/
def reads : ResidueOp → List Residue → List (Access P)
  | .pp _, rs => (rs.map fun r => .resolve r.src1) ++ rs.map fun r => .resolve r.src2
  | _, rs => rs.map fun r => .resolve r.src1

/-- The results that a call on several residues binds, in order. -/
def stores (F : Fhetch P M) (w : World P M) (op : ResidueOp) (rs : List Residue) :
    List (Access P) :=
  rs.map fun r => .store r.dst (op.result F (w.values.value F w.config.ringDim)
    (w.config.modulus r.modIdx) r) (w.config.modulus r.modIdx)

/-- The residues of a polynomial that was assembled from distinct moduli. -/
theorem residue_assembled (hF : F.Residuewise) (hnodup : (base w rs).Nodup) (f : Residue → P)
    {r : Residue} (hr : r ∈ rs) :
    F.residue (F.fromPairs ((rs.map f).zip (base w rs))) (w.config.modulus r.modIdx) = f r := by
  have hpairs : (rs.map f).zip (base w rs) = rs.map fun r => (f r, w.config.modulus r.modIdx) :=
    List.zip_map' ..
  have hsnd : ((rs.map f).zip (base w rs)).map Prod.snd = base w rs :=
    List.map_snd_zip (by simp [base])
  refine hF.residue_fromPairs _ (by rw [hsnd]; exact hnodup) (f r, w.config.modulus r.modIdx) ?_
  rw [hpairs]
  exact List.mem_map_of_mem hr

/-- The assembled polynomial is over the base. -/
theorem base_assembled (hF : F.Residuewise) (f : Residue → P) :
    F.base (F.fromPairs ((rs.map f).zip (base w rs))) = base w rs := by
  rw [hF.base_fromPairs]
  exact List.map_snd_zip (by simp [base])

/-- What is bound to the destinations, when each residue is the result for it. -/
theorem stores_eq (op : ResidueOp) {m : M}
    (h : ∀ r ∈ rs, F.residue m (w.config.modulus r.modIdx) =
      op.result F (w.values.value F w.config.ringDim) (w.config.modulus r.modIdx) r) :
    (((rs.map (·.dst)).zip (base w rs)).map fun r => (.store r.1 (F.residue m r.2) r.2 : Access P)) =
      op.stores F w rs := by
  have hpairs : (rs.map (·.dst)).zip (base w rs) =
      rs.map fun r => (r.dst, w.config.modulus r.modIdx) := List.zip_map' ..
  rw [hpairs, List.map_map]
  refine List.map_congr_left fun r hr => ?_
  change Access.store r.dst (F.residue m (w.config.modulus r.modIdx)) _ = _
  rw [h r hr]

/-- A call on several residues whose sources resolve reads all of them, binds all destinations and
registers these. -/
theorem multiBody_run (hF : F.Residuewise) (op : ResidueOp) (hnodup : (base w rs).Nodup)
    (h : ∀ r ∈ rs, ∀ a ∈ op.srcs r, w.Resolves a) :
    ∃ w', op.multiBody F (base w rs) rs w = (.ok (), w') ∧
      w'.values = (op.reads rs ++ op.stores F w rs).foldl
        (Values.access F w.config.ringDim) w.values ∧
      w'.rest = (registerGroup (rs.map (·.dst)) (base w rs) w.rest).2 ∧
      (rs.length ≤ 1 → w'.inputTags = w.inputTags) := by
  have hlen : ∀ f : Residue → DevAddr, (rs.map f).length = (base w rs).length := fun f => by
    simp [base]
  have hlen' : (base w rs).length = rs.length := List.length_map ..
  -- The first source is built as a whole.
  obtain ⟨w₁, hrun₁, hv₁, hr₁, ht₁⟩ := buildMrp_run (F := F) (hlen (·.src1)) fun a ha => by
    obtain ⟨r, hr, rfl⟩ := List.mem_map.mp ha
    exact h r hr r.src1 (by cases op <;> exact List.mem_cons_self ..)
  rw [List.map_map] at hrun₁ hv₁
  have hc₁ := config_eq_of_rest hr₁
  -- A lookup changes no value, so the second source is read as at the start.
  have hval : ∀ a, w₁.values.value F w.config.ringDim a = w.values.value F w.config.ringDim a := by
    intro a
    rw [hv₁]
    refine Values.value_foldl fun p q hmem => ?_
    obtain ⟨r, -, hr⟩ := List.mem_map.mp hmem
    cases hr
  -- Each residue of the result is the operation on the residues of the sources.
  have hone : ∀ r ∈ rs, F.residue (F.fromPairs ((rs.map fun r =>
      w.values.value F w.config.ringDim r.src1).zip (base w rs))) (w.config.modulus r.modIdx) =
        w.values.value F w.config.ringDim r.src1 := fun r hr =>
    residue_assembled hF hnodup (fun r => w.values.value F w.config.ringDim r.src1) hr
  have hbase : ∀ f : Residue → P, ∀ r ∈ rs, w.config.modulus r.modIdx ∈
      F.base (F.fromPairs ((rs.map f).zip (base w rs))) := fun f r hr => by
    rw [base_assembled hF]
    exact List.mem_map_of_mem hr
  have hnodup' : ∀ f : Residue → P,
      (F.base (F.fromPairs ((rs.map f).zip (base w rs)))).Nodup := fun f => by
    rw [base_assembled hF]
    exact hnodup
  -- The three kinds of operation, each built, computed and stored.
  cases op with
  | pp op =>
    obtain ⟨w₂, hrun₂, hv₂, hr₂, ht₂⟩ := buildMrp_run (F := F) (w := w₁) (hlen (·.src2))
      fun a ha => by
        obtain ⟨r, hr, rfl⟩ := List.mem_map.mp ha
        refine (resolves_foldl (F := F) (fun b hb => ?_) (fun p q hmem => ?_) hv₁ hr₁).mpr
          (h r hr r.src2 (List.mem_cons_of_mem _ (List.mem_cons_self ..)))
        · obtain ⟨r', hr', heq⟩ := List.mem_map.mp hb
          injection heq with heq
          exact heq ▸ h r' hr' r'.src1 (List.mem_cons_self ..)
        · obtain ⟨r', -, heq⟩ := List.mem_map.mp hmem
          cases heq
    rw [List.map_map, hc₁] at hrun₂ hv₂
    have hfun : w₁.values.value F w.config.ringDim = w.values.value F w.config.ringDim :=
      funext hval
    rw [hfun] at hrun₂
    obtain ⟨w₃, hrun₃, hv₃, hr₃, ht₃⟩ := storeMrp_run (F := F) (op.mr F
      (F.fromPairs ((rs.map fun r => w.values.value F w.config.ringDim r.src1).zip (base w rs)))
      (F.fromPairs ((rs.map fun r => w.values.value F w.config.ringDim r.src2).zip (base w rs))))
      (hlen (·.dst)) w₂
    rw [stores_eq (.pp op) fun r hr => ?_] at hv₃
    · refine ⟨w₃, ?_, ?_, ?_, fun hk => ?_⟩
      · rw [multiBody, Expected.bind_run_ok hrun₁, Expected.bind_run_ok hrun₂]
        exact hrun₃
      · rw [hv₃, config_eq_of_rest hr₂, hc₁, hv₂, hv₁, ← List.foldl_append, ← List.foldl_append,
          reads, List.append_assoc]
        rfl
      · rw [hr₃, hr₂, hr₁]
      · exact ht₃.trans ((ht₂ (hlen' ▸ hk)).trans (ht₁ (hlen' ▸ hk)))
    · rw [hF.pp op _ _ (by rw [base_assembled hF, base_assembled hF]) (hnodup' _) _ (hbase _ r hr),
        hone r hr, residue_assembled hF hnodup (fun r => w.values.value F w.config.ringDim r.src2) hr]
      rfl
  | ps op =>
    obtain ⟨w₂, hrun₂, hv₂, hr₂, ht₂⟩ := storeMrp_run (F := F) (op.mrs F
      (F.fromPairs ((rs.map fun r => w.values.value F w.config.ringDim r.src1).zip (base w rs)))
      (buildMrs (rs.map (·.scalar)) (base w rs))) (hlen (·.dst)) w₁
    -- The scalars are as many as the moduli.
    have hscalars : buildMrs (rs.map (·.scalar)) (base w rs) =
        rs.map fun r => (r.scalar, w.config.modulus r.modIdx) := by
      unfold buildMrs
      rw [hlen', ← List.length_map (f := fun r : Residue => r.scalar),
        List.takeD_eq_take _ (Nat.le_refl _), List.take_length]
      exact List.zip_map' ..
    rw [stores_eq (.ps op) fun r hr => ?_] at hv₂
    · refine ⟨w₂, ?_, ?_, ?_, fun hk => ?_⟩
      · rw [multiBody, Expected.bind_run_ok hrun₁]
        exact hrun₂
      · rw [hv₂, hc₁, hv₁, ← List.foldl_append]
        rfl
      · rw [hr₂, hr₁]
      · exact ht₂.trans (ht₁ (hlen' ▸ hk))
    · have hsnd : (buildMrs (rs.map (·.scalar)) (base w rs)).map Prod.snd = F.base (F.fromPairs
          ((rs.map fun r => w.values.value F w.config.ringDim r.src1).zip (base w rs))) := by
        rw [hscalars, base_assembled hF, List.map_map]
        rfl
      have hmem : (r.scalar, w.config.modulus r.modIdx) ∈
          buildMrs (rs.map (·.scalar)) (base w rs) := by
        rw [hscalars]
        exact List.mem_map_of_mem hr
      rw [hF.ps op _ _ hsnd (hnodup' _) _ hmem, hone r hr]
      rfl
  | transform op =>
    obtain ⟨w₂, hrun₂, hv₂, hr₂, ht₂⟩ := storeMrp_run (F := F) (op.mr F
      (F.fromPairs ((rs.map fun r => w.values.value F w.config.ringDim r.src1).zip (base w rs))))
      (hlen (·.dst)) w₁
    rw [stores_eq (.transform op) fun r hr => ?_] at hv₂
    · refine ⟨w₂, ?_, ?_, ?_, fun hk => ?_⟩
      · rw [multiBody, Expected.bind_run_ok hrun₁]
        exact hrun₂
      · rw [hv₂, hc₁, hv₁, ← List.foldl_append]
        rfl
      · rw [hr₂, hr₁]
      · exact ht₂.trans (ht₁ (hlen' ▸ hk))
    · rw [hF.transform op _ (hnodup' _) _ (hbase _ r hr), hone r hr]
      rfl

/-- When a source does not resolve, the operation fails. -/
theorem multiBody_error (op : ResidueOp) (h : ¬ ∀ r ∈ rs, ∀ a ∈ op.srcs r, w.Resolves a) :
    ∃ e w', op.multiBody F (base w rs) rs w = (.error e, w') := by
  have hlen : ∀ f : Residue → DevAddr, (rs.map f).length = (base w rs).length := fun f => by
    simp [base]
  -- The first source that cannot be built ends the call.
  by_cases h1 : ∀ a ∈ rs.map (·.src1), w.Resolves a
  · obtain ⟨w₁, hrun₁, hv₁, hr₁, -⟩ := buildMrp_run (F := F) (hlen (·.src1)) h1
    have hsrc1 : ∀ r ∈ rs, w.Resolves r.src1 := fun r hr => h1 _ (List.mem_map_of_mem hr)
    cases op with
    | pp op =>
      -- The first source is not in the way of the second.
      have h2 : ¬ ∀ a ∈ rs.map (·.src2), w₁.Resolves a := by
        refine fun hall => h fun r hr a ha => ?_
        rcases List.mem_pair.mp ha with rfl | rfl
        · exact hsrc1 r hr
        refine (resolves_foldl (F := F) (fun b hb => ?_) (fun p q hmem => ?_) hv₁ hr₁).mp
          (hall _ (List.mem_map_of_mem hr))
        · obtain ⟨c, hc, heq⟩ := List.mem_map.mp hb
          injection heq with heq
          exact heq ▸ h1 c hc
        · obtain ⟨c, -, heq⟩ := List.mem_map.mp hmem
          cases heq
      obtain ⟨e, w₂, hrun₂⟩ := buildMrp_error (F := F) (hlen (·.src2)) h2
      exact ⟨e, w₂, by rw [multiBody, Expected.bind_run_ok hrun₁, Expected.bind_run_error hrun₂]⟩
    | ps op => exact absurd (fun r hr a ha => List.mem_singleton.mp ha ▸ hsrc1 r hr) h
    | transform op => exact absurd (fun r hr a ha => List.mem_singleton.mp ha ▸ hsrc1 r hr) h
  · obtain ⟨e, w₁, hrun₁⟩ := buildMrp_error (F := F) (hlen (·.src1)) h1
    refine ⟨e, w₁, ?_⟩
    cases op <;> rw [multiBody, Expected.bind_run_error hrun₁]

/-- Opening a session keeps the configuration and tags no input. -/
theorem session_facts (F : Fhetch P M) (env : CompilerReplies P) (w : World P M) :
    (w.act F (.session env)).config = w.config ∧
      (w.act F (.session env)).inputTags = w.inputTags := by
  obtain ⟨_, _, _, -, he⟩ := session_frame (F := F) env w
  rw [he]
  exact ⟨rfl, rfl⟩

/-- A call on several residues whose sources resolve. -/
theorem multi_run (hF : F.Residuewise) (env : CompilerReplies P) {op : ResidueOp} (hne : rs ≠ [])
    (hnodup : (base w rs).Nodup) (h : ∀ r ∈ rs, ∀ a ∈ op.srcs r, w.Resolves a) :
    ∃ w', (op.multi (base w rs) rs).run F env w = (.setError .success, w') ∧
      w'.values = (op.reads rs ++ op.stores F w rs).foldl
        (Values.access F w.config.ringDim) w.values ∧
      w'.rest = (registerGroup (rs.map (·.dst)) (base w rs) (w.act F (.session env)).rest).2 ∧
      (rs.length ≤ 1 → w'.inputTags = w.inputTags) := by
  obtain ⟨hc, ht⟩ := session_facts F env w
  have hv := values_session F env w
  have hbase : base (w.act F (.session env)) rs = base w rs := by rw [base, hc, base]
  obtain ⟨w', hbody, hvalues, hrest, htags⟩ := multiBody_run (F := F) hF op
    (w := w.act F (.session env)) (by rw [hbase]; exact hnodup)
    fun r hr a ha => (resolves_session F env w a).mpr (h r hr a ha)
  rw [hbase] at hbody hrest
  rw [stores, hv, hc] at hvalues
  refine ⟨w', ?_, hvalues, hrest, fun hk => (htags hk).trans ht⟩
  -- A base that is empty would have been refused.
  have hfull : (base w rs).isEmpty = false := by
    rw [List.isEmpty_eq_false_iff]
    exact fun hempty => hne (List.map_eq_nil_iff.mp hempty)
  rw [run_multi, hfull]
  change Shim.replyWith _ (epochSession env >>= fun _ => op.multiBody F (base w rs) rs) w = _
  have hsession : (epochSession env >>= fun _ => op.multiBody F (base w rs) rs) w =
      (.ok (), w') := hbody
  unfold Shim.replyWith
  rw [hsession]

/-- When a source does not resolve, the call fails. -/
theorem multi_error (env : CompilerReplies P) {op : ResidueOp}
    (h : ¬ ∀ r ∈ rs, ∀ a ∈ op.srcs r, w.Resolves a) :
    ((op.multi (base w rs) rs).run F env w).1.code ≠ .success := by
  obtain ⟨hc, -⟩ := session_facts F env w
  have hbase : base (w.act F (.session env)) rs = base w rs := by rw [base, hc, base]
  obtain ⟨e, w', hbody⟩ := multiBody_error (F := F) op
    (w := w.act F (.session env))
    fun hall => h fun r hr a ha => (resolves_session F env w a).mp (hall r hr a ha)
  rw [hbase] at hbody
  rw [run_multi]
  cases (base w rs).isEmpty with
  | true => exact fun h => HazeError.noConfusion h
  | false =>
    change (Shim.replyWith _ (epochSession env >>= fun _ =>
      op.multiBody F (base w rs) rs) w).1.code ≠ _
    have hsession : (epochSession env >>= fun _ => op.multiBody F (base w rs) rs) w =
        (.error e, w') := hbody
    unfold Shim.replyWith
    rw [hsession]
    exact toPublicError_ne_success e

/-! ## The two paths -/

/-- Both paths make the same accesses. -/
theorem accesses_perm (w : World P M) (op : ResidueOp) (rs : List Residue) :
    (op.allSteps F w rs).Perm (op.reads rs ++ op.stores F w rs) := by
  have hreads : (rs.flatMap fun r => (op.srcs r).map (.resolve : DevAddr → Access P)).Perm
      (op.reads rs) := by
    cases op with
    | pp op =>
      have h := List.flatMap_append_perm rs (fun r => [(.resolve r.src1 : Access P)])
        fun r => [.resolve r.src2]
      rw [← List.map_eq_flatMap, ← List.map_eq_flatMap] at h
      exact h.symm
    | ps op => exact .of_eq List.map_eq_flatMap.symm
    | transform op => exact .of_eq List.map_eq_flatMap.symm
  have hsteps := List.flatMap_append_perm rs
    (fun r => (op.srcs r).map (.resolve : DevAddr → Access P))
    fun r => [.store r.dst (op.result F (w.values.value F w.config.ringDim)
      (w.config.modulus r.modIdx) r) (w.config.modulus r.modIdx)]
  rw [← List.map_eq_flatMap (f := fun r : Residue => Access.store r.dst _ _)] at hsteps
  exact hsteps.symm.trans (hreads.append_right _)

/-- An access of calls on one residue each. -/
theorem mem_allSteps {op : ResidueOp} {x : Access P} (hx : x ∈ op.allSteps F w rs) :
    ∃ r ∈ rs, (∃ a ∈ op.srcs r, x = .resolve a) ∨
      x = .store r.dst (op.result F (w.values.value F w.config.ringDim)
        (w.config.modulus r.modIdx) r) (w.config.modulus r.modIdx) := by
  obtain ⟨r, hr, hx⟩ := List.mem_flatMap.mp hx
  refine ⟨r, hr, ?_⟩
  rcases List.mem_append.mp hx with hx | hx
  · obtain ⟨a, ha, rfl⟩ := List.mem_map.mp hx
    exact .inl ⟨a, ha, rfl⟩
  · exact .inr (List.mem_singleton.mp hx)

/-- Accesses to distinct destinations that are no sources commute. -/
theorem accesses_comm {op : ResidueOp} (hdst : (rs.map (·.dst)).Nodup)
    (hdisjoint : ∀ r ∈ rs, ∀ r' ∈ rs, r.dst ∉ op.srcs r') {x y : Access P}
    (hx : x ∈ op.allSteps F w rs) (hy : y ∈ op.allSteps F w rs) (n : UInt64) (v : Values P) :
    (v.access F n x).access F n y = (v.access F n y).access F n x := by
  obtain ⟨r, hr, hx⟩ := mem_allSteps hx
  obtain ⟨r', hr', hy⟩ := mem_allSteps hy
  -- Two lookups commute; a store commutes with what is not about its destination.
  rcases hx with ⟨a, ha, rfl⟩ | hx
  · rcases hy with ⟨b, hb, rfl⟩ | hy
    · exact Values.access_comm (.inr ⟨b, a, rfl, rfl⟩)
    · rw [hy]
      refine Values.access_comm (.inl fun heq => ?_)
      have heq : r'.dst = a := heq
      exact hdisjoint r' hr' r hr (heq ▸ ha)
  · rcases hy with ⟨b, hb, rfl⟩ | hy
    · rw [hx]
      refine Values.access_comm (.inl fun heq => ?_)
      have heq : r.dst = b := heq.symm
      exact hdisjoint r hr r' hr' (heq ▸ hb)
    -- Two stores are one and the same, or go to different destinations.
    · by_cases hsame : r = r'
      · rw [hx, hy, hsame]
      · rw [hx, hy]
        exact Values.access_comm (.inl fun heq =>
          hsame (List.inj_on_of_nodup_map hdst hr hr' heq.symm))

end

end ResidueOp

/-! ## Agreement -/

/-- The state after a call on several residues agrees with the state after the calls on one residue
each: what is held for the addresses is the same, and the rest is as if the destinations of the
scalar calls were then registered as a group, which is nothing when there is one. The names of
multi-residue inputs, and the compiler's log, are left open. -/
structure World.AgreesWith (addrs : List DevAddr) (base : List UInt64)
    (multi scalar : World P M) : Prop where
  /-- The bindings, the words, the recorded moduli and the inputs. -/
  values : multi.values = scalar.values
  allocator : { multi.allocator with shadowData := ∅ } = { scalar.allocator with shadowData := ∅ }
  rest : multi.rest = (registerGroup addrs base scalar).2.rest
  /-- One residue alone is neither a group nor a multi-residue input. -/
  single : base.length = 1 → multi.rest = scalar.rest ∧ multi.inputTags = scalar.inputTags

/-- The multi-residue path agrees with the scalar path: the one call succeeds exactly when the calls
on one residue each do, and then leaves a state that agrees with theirs. -/
structure ResidueOp.Agrees (F : Fhetch P M) (env : CompilerReplies P) (op : ResidueOp)
    (rs : List Residue) (w : World P M) : Prop where
  succeeds : ((op.multi (base w rs) rs).run F env w).1.code = .success ↔
    ∀ reply ∈ replies F w (op.singles env rs), reply.code = .success
  agrees : ((op.multi (base w rs) rs).run F env w).1.code = .success →
    World.AgreesWith (rs.map (·.dst)) (base w rs) ((op.multi (base w rs) rs).run F env w).2
      (runAll F w (op.singles env rs))

namespace ResidueOp

variable {F : Fhetch P M} {w : World P M} {rs : List Residue}

/-- The two paths agree exactly when no pointer in the arrays is null, or some source does not
resolve, so that both fail. -/
theorem multi_agrees (hF : F.Residuewise) (env : CompilerReplies P) (op : ResidueOp)
    (hne : rs ≠ []) (hmod : ∀ r ∈ rs, w.config.modulus r.modIdx ≠ 0)
    (hnodup : (base w rs).Nodup) (hdst : (rs.map (·.dst)).Nodup)
    (hdisjoint : ∀ r ∈ rs, ∀ r' ∈ rs, r.dst ∉ op.srcs r') :
    op.Agrees F env rs w ↔
      (∀ r ∈ rs, op.Nonnull r) ∨ ∃ r ∈ rs, ∃ a ∈ op.srcs r, ¬ w.Resolves a := by
  obtain ⟨hiff, hstate⟩ := singles_run (F := F) (w := w) env hmod hdisjoint
  -- With sources that resolve, only the null checks can tell the two apart.
  by_cases hres : ∀ r ∈ rs, ∀ a ∈ op.srcs r, w.Resolves a
  · obtain ⟨w', hrun, hvalues, hrest, htags⟩ := multi_run hF env hne hnodup hres
    have hsuccess : ((op.multi (base w rs) rs).run F env w).1.code = .success := by
      rw [hrun]
      rfl
    have hready : (∀ r ∈ rs, Ready w op r) ↔ ∀ r ∈ rs, op.Nonnull r :=
      forall₂_congr fun r hr => and_iff_left (hres r hr)
    constructor
    · intro h
      exact .inl (hready.mp (hiff.mp (h.succeeds.mp hsuccess)))
    rintro (hnonnull | ⟨r, hr, a, ha, hnot⟩)
    · obtain ⟨hvalues', hrest', htags'⟩ := hstate (hready.mpr hnonnull)
      refine ⟨iff_of_true hsuccess (hiff.mpr (hready.mpr hnonnull)), fun _ => ?_⟩
      have hlen : (rs.map (·.dst)).length = (base w rs).length := by simp [base]
      have hspec := registerGroup_spec hlen (runAll F w (op.singles env rs))
      rw [hrun]
      have hrestEq : w'.rest = (registerGroup (rs.map (·.dst)) (base w rs)
          (runAll F w (op.singles env rs))).2.rest := by
        rw [hspec.2.2.2, hrest' hne]
        exact hrest
      refine ⟨?_, ?_, hrestEq, fun hone => ⟨?_, ?_⟩⟩
      -- The same accesses are performed in another order, and they commute.
      · rw [hvalues, hvalues']
        exact ((accesses_perm w op rs).foldl_eq'
          (fun x hx y hy v => accesses_comm hdst hdisjoint hx hy _ v) w.values).symm
      · have halloc : w'.rest.allocator = (registerGroup (rs.map (·.dst)) (base w rs)
            (runAll F w (op.singles env rs))).2.rest.allocator := by rw [hrestEq]
        rw [World.rest, World.rest, registerGroup_allocator hlen] at halloc
        exact halloc
      · rw [hrestEq, registerGroup_single hone]
      · have hlen' : rs.length = 1 := by rw [← hone, base, List.length_map]
        rw [htags hlen'.le, htags']
    · exact absurd (hres r hr a ha) hnot
  -- Otherwise both fail.
  · have hfails : ¬ ∀ reply ∈ replies F w (op.singles env rs), reply.code = .success :=
      fun h => hres fun r hr => (hiff.mp h r hr).2
    refine iff_of_true ⟨iff_of_false (multi_error env hres) hfails,
      fun h => absurd h (multi_error env hres)⟩ (.inr ?_)
    by_contra hall
    refine hres fun r hr a ha => ?_
    by_contra hnot
    exact hall ⟨r, hr, a, ha, hnot⟩

/-! ### At ring dimension one -/

/-- The library at ring dimension one, with copying as the scalar addition copies. -/
def residueRing : Fhetch UInt64 (List (UInt64 × UInt64)) :=
  { scalarRing with mrAddps := scalarZip scalarAddps }

/-- The residue of a residue-wise result is the result for the residues. -/
theorem residue_scalarZip (f : UInt64 → UInt64 → UInt64 → UInt64) {m n : List (UInt64 × UInt64)}
    (h : m.map Prod.snd = n.map Prod.snd) {q : UInt64} (hq : q ∈ m.map Prod.snd) :
    residueRing.residue (scalarZip f m n) q =
      f (residueRing.residue m q) (residueRing.residue n q) q := by
  induction m generalizing n with
  | nil => exact absurd hq List.not_mem_nil
  | cons x m ih =>
    obtain _ | ⟨y, n⟩ := n
    · exact absurd h (List.cons_ne_nil _ _)
    obtain ⟨hhead, htail⟩ := List.cons.inj h
    by_cases hx : x.2 = q
    · have hy : y.2 = q := hhead ▸ hx
      simp [residueRing, scalarRing, scalarZip, hx, hy]
    · have hy : y.2 ≠ q := hhead ▸ hx
      have hrest := ih htail ((List.mem_cons.mp hq).resolve_left (Ne.symm hx))
      simpa [residueRing, scalarRing, scalarZip, hx, hy] using hrest

/-- The residue for a modulus that occurs once. -/
theorem residue_of_mem {m : List (UInt64 × UInt64)} (h : (m.map Prod.snd).Nodup)
    {r : UInt64 × UInt64} (hr : r ∈ m) : residueRing.residue m r.2 = r.1 := by
  induction m with
  | nil => exact absurd hr List.not_mem_nil
  | cons x m ih =>
    obtain ⟨hx, hm⟩ := List.nodup_cons.mp h
    rcases List.mem_cons.mp hr with rfl | hr
    · simp [residueRing, scalarRing]
    · have hne : x.2 ≠ r.2 := fun heq => hx (heq ▸ List.mem_map_of_mem hr)
      simpa [residueRing, scalarRing, hne] using ih hm hr

/-- The operations on residues are done residue by residue. -/
theorem residueRing_residuewise : residueRing.Residuewise where
  base_fromPairs _ := rfl
  residue_fromPairs _ hnodup _ hr := residue_of_mem hnodup hr
  pp op m n h _ q hq := by cases op <;> exact residue_scalarZip _ h hq
  ps op m scalars h hnodup s hs := by
    change m.map Prod.snd |>.Nodup at hnodup
    change scalars.map Prod.snd = m.map Prod.snd at h
    have hmem : s.2 ∈ scalars.map Prod.snd := List.mem_map_of_mem hs
    have hscalar : residueRing.residue scalars s.2 = s.1 :=
      residue_of_mem (by rw [h]; exact hnodup) hs
    rw [h] at hmem
    cases op with
    | add => exact (residue_scalarZip scalarAddps h.symm hmem).trans (by rw [hscalar]; rfl)
    | sub => exact (residue_scalarZip scalarSub h.symm hmem).trans (by rw [hscalar]; rfl)
    | mul => exact (residue_scalarZip scalarMul h.symm hmem).trans (by rw [hscalar]; rfl)
  transform op m _ q _ := by cases op <;> rfl

/-- Two moduli and two uploads, of which the transforms go to fresh addresses. -/
def twoUploads : World UInt64 (List (UInt64 × UInt64)) :=
  .runAll residueRing .init
    (scalarProgram [.setRingDimension 1, .config (.setCiphertextModulus 0 17),
      .config (.setCiphertextModulus 1 19), .mallocMrp true 4 8,
      .memcpyMrp (.hostToDevice (some [⟨kHbmBase⟩, ⟨kHbmBase + 8⟩])
        (some [some [5, 0, 0, 0, 0, 0, 0, 0], some [6, 0, 0, 0, 0, 0, 0, 0]])) 8 (some [17, 19])])

/-- Two residues, the second of which goes to `dst`. -/
def twoResidues (dst : DevAddr) : List Residue :=
  [⟨⟨kHbmBase + 16⟩, ⟨kHbmBase⟩, .null, 0, 0⟩, ⟨dst, ⟨kHbmBase + 8⟩, .null, 0, 1⟩]

/-- The transform of two residues at once agrees with the two transforms. -/
theorem multi_agrees_example :
    (transform .ntt).Agrees residueRing scalarReplies (twoResidues ⟨kHbmBase + 24⟩) twoUploads :=
  (multi_agrees residueRing_residuewise scalarReplies (.transform .ntt) (by decide +kernel)
    (by decide +kernel) (by decide +kernel) (by decide +kernel) (by decide +kernel)).mpr
    (.inl (by decide +kernel))

/-- A null destination is bound on the multi-residue path and rejected on the scalar path. -/
theorem multi_agrees_counterexample :
    twoUploads.Reachable residueRing ∧ residueRing.Residuewise ∧
      (∀ r ∈ twoResidues .null, twoUploads.config.modulus r.modIdx ≠ 0) ∧
      (base twoUploads (twoResidues .null)).Nodup ∧ ((twoResidues .null).map (·.dst)).Nodup ∧
      (∀ r ∈ twoResidues .null, ∀ r' ∈ twoResidues .null, r.dst ∉ (transform .ntt).srcs r') ∧
      ¬ (transform .ntt).Agrees residueRing scalarReplies (twoResidues .null) twoUploads :=
  ⟨⟨_, rfl⟩, residueRing_residuewise, by decide +kernel, by decide +kernel, by decide +kernel,
    by decide +kernel, fun h => absurd (h.succeeds.mp (by decide +kernel)) (by decide +kernel)⟩

end ResidueOp

end Haze
