import Haze.Core.ScalarRing
import Haze.Runtime.Carrying
import Haze.Runtime.Parameters
import Haze.Runtime.Readback

/-!
# The ring dimension of the bindings

Every polynomial of the library has a ring dimension, which its operations keep (`Dimensioned`).
What a session binds it makes of words of the configured dimension, or of what was bound, so the
bindings and the captured inputs of an epoch have the dimension that is configured
(`DimensionsAgree`) until it is set to another one: the setter looks at the allocator's pool only,
and `dimensions_agree` says that a run keeps to one dimension exactly when no setting that changes
it finds anything bound or captured.
-/

namespace Haze

variable {P M : Type}

/-- The ring dimension of the library's results is that of their operands. A multi-residue
polynomial has the one dimension of its residues. -/
structure Fhetch.Dimensioned (F : Fhetch P M) (dim : P → UInt64) (mdim : M → UInt64) : Prop
    extends F.LawfulBase where
  fromData : ∀ values n, values.length = n.toNat → dim (F.fromData values n) = n
  srPp : ∀ (op : PpOp) p p' q, dim p = dim p' → dim (op.sr F p p' q) = dim p
  srPs : ∀ (op : PpOp) p scalar q, dim (op.srs F p scalar q) = dim p
  srTransform : ∀ (op : TransformOp) p q, dim (op.sr F p q) = dim p
  srAutomorph : ∀ p index, dim (F.srAutomorphEval p index) = dim p
  fromPairs : ∀ pairs n, pairs ≠ [] → (∀ r ∈ pairs, dim r.1 = n) → mdim (F.fromPairs pairs) = n
  residue : ∀ m, ∀ q ∈ F.base m, dim (F.residue m q) = mdim m
  mrPp : ∀ (op : PpOp) m m', F.base m = F.base m' →
    F.base (op.mr F m m') = F.base m ∧ (mdim m = mdim m' → mdim (op.mr F m m') = mdim m)
  mrPs : ∀ (op : PpOp) m scalars, scalars.map Prod.snd = F.base m →
    F.base (op.mrs F m scalars) = F.base m ∧ mdim (op.mrs F m scalars) = mdim m
  mrTransform : ∀ (op : TransformOp) m, F.base (op.mr F m) = F.base m ∧ mdim (op.mr F m) = mdim m
  mrIndex : ∀ (op : IndexOp) m index,
    F.base (op.mr F m index) = F.base m ∧ mdim (op.mr F m index) = mdim m
  mrSubset : ∀ m base, mdim (F.mrSubset m base) = mdim m
  fastBaseConvert : ∀ m base variant shape, mdim (F.fastBaseConvert m base variant shape) = mdim m
  rescaleFbc : ∀ m base variant shape, mdim (F.rescaleFbc m base variant shape) = mdim m

/-- A compiler that reads back, under the name of a captured output, a value for each of its
components. -/
def CompilerReplies.Replays (dim : P → UInt64) (env : CompilerReplies P) : Prop :=
  ∀ outs (entry : Sigma fun _ : DevAddr => ProbeName) poly values, (outs.map Prod.fst).Nodup →
    (entry.2, poly) ∈ outs → World.decoded env outs entry = some values →
      values.length = (dim poly).toNat

/-! ## The captured inputs -/

/-- The inputs that the compiler holds captured after one more call. -/
def CompilerCall.captureInput (inputs : List (P ⊕ M)) : CompilerCall P M → List (P ⊕ M)
  | .tagInput _ poly => inputs ++ [.inl poly]
  | .tagInputMrp _ mrp => inputs ++ [.inr mrp]
  | .clearCaptured => []
  | .reset => []
  | _ => inputs

/-- The inputs that were captured since the last time that the compiler dropped its captures. -/
def capturedInputs (calls : List (CompilerCall P M)) : List (P ⊕ M) :=
  calls.foldl CompilerCall.captureInput []

/-- The captured inputs after more calls continue those before. -/
theorem capturedInputs_append (cs ds : List (CompilerCall P M)) :
    capturedInputs (cs ++ ds) = ds.foldl CompilerCall.captureInput (capturedInputs cs) := by
  rw [capturedInputs, List.foldl_append]
  rfl

/-- The input that a call captures. -/
def CompilerCall.input : CompilerCall P M → Option (P ⊕ M)
  | .tagInput _ poly => some (.inl poly)
  | .tagInputMrp _ mrp => some (.inr mrp)
  | _ => none

/-- The captured inputs are those of the open trace. -/
theorem capturedInputs_eq (log : List (CompilerCall P M)) :
    capturedInputs log = (openTrace log).filterMap CompilerCall.input := by
  have hfold : ∀ calls : List (CompilerCall P M),
      log.foldl CompilerCall.captureInput (calls.filterMap CompilerCall.input) =
        (log.foldl CompilerCall.extend calls).filterMap CompilerCall.input := by
    induction log with
    | nil => exact fun _ => rfl
    | cons c log ih =>
      intro calls
      have hc : c.captureInput (calls.filterMap CompilerCall.input) =
          (c.extend calls).filterMap CompilerCall.input := by
        cases c <;> simp [CompilerCall.captureInput, CompilerCall.extend, CompilerCall.input]
      rw [List.foldl_cons, List.foldl_cons, hc]
      exact ih _
  exact hfold []

/-- An input is captured when a call of the open trace tags it. -/
theorem mem_capturedInputs {log : List (CompilerCall P M)} {input : P ⊕ M} :
    input ∈ capturedInputs log ↔ ∃ c ∈ openTrace log, c.input = some input := by
  rw [capturedInputs_eq, List.mem_filterMap]

/-- Every binding and every captured input has the dimension that is configured. -/
structure World.DimensionsAgree (dim : P → UInt64) (mdim : M → UInt64) (w : World P M) : Prop where
  bound : ∀ a poly, w.binding a = some poly → dim poly = w.config.ringDim
  captured : ∀ poly, .inl poly ∈ capturedInputs w.compiler → dim poly = w.config.ringDim
  capturedMrp : ∀ mrp, .inr mrp ∈ capturedInputs w.compiler → mdim mrp = w.config.ringDim

/-- The epoch has nothing bound and no input captured. -/
def World.Empty (w : World P M) : Prop := (∀ a, w.binding a = none) ∧ capturedInputs w.compiler = []

/-- A setting of the ring dimension that is accepted and changes it finds nothing bound or
captured. -/
def Invocation.KeepsDimension (w : World P M) (i : Invocation P) : Prop :=
  ∀ n, i.call = .setRingDimension n → w.Allowed (.ringDimension n) → w.config.ringDim ≠ n → w.Empty

namespace World

/-! ## The values of one dimension -/

/-- The values of one dimension. -/
def ofDimension (F : Fhetch P M) (dim : P → UInt64) (mdim : M → UInt64) (n : UInt64) :
    Domain P M where
  poly p := dim p = n
  mrp base m := F.base m = base ∧ (base ≠ [] → mdim m = n)
  modulus _ := True
  base _ := True
  input m := mdim m = n

section

variable {F : Fhetch P M} {dim : P → UInt64} {mdim : M → UInt64} {n : UInt64} {w : World P M}

/-- The library keeps to the dimension. -/
theorem ofDimension_closed (hF : F.Dimensioned dim mdim) (c : Config) :
    (ofDimension F dim mdim c.ringDim).Closed F c where
  fromData values hlen := hF.fromData values _ hlen
  configured _ _ := trivial
  base _ _ := trivial
  copy poly hpoly := (hF.srPs .add poly 0 kCopyModulus).trans hpoly
  fromPairs pairs hpairs := by
    refine ⟨hF.base_fromPairs pairs, fun hbase => ?_⟩
    refine hF.fromPairs pairs c.ringDim ?_ fun r hr => (hpairs r hr).1
    rintro rfl
    exact hbase rfl
  residue base m hm q hq := by
    obtain ⟨rfl, hdim⟩ := hm
    exact (hF.residue m q hq).trans (hdim (List.ne_nil_of_mem hq))
  input base m hlen hm := hm.2 (List.ne_nil_of_length_pos (by omega))

/-- The state agrees when its values are of the configured dimension. -/
theorem agree_iff_carries :
    w.DimensionsAgree dim mdim ↔ w.Carries (ofDimension F dim mdim w.config.ringDim) := by
  constructor
  · refine fun h => ⟨h.bound, fun _ _ _ => trivial, fun _ _ _ _ _ => trivial, fun c hc => ?_⟩
    cases c with
    | tagInput name poly => exact h.captured poly (mem_capturedInputs.mpr ⟨_, hc, rfl⟩)
    | tagInputMrp name mrp => exact h.capturedMrp mrp (mem_capturedInputs.mpr ⟨_, hc, rfl⟩)
    | _ => exact trivial
  · refine fun h => ⟨h.bound, fun poly hpoly => ?_, fun mrp hmrp => ?_⟩
    · obtain ⟨c, hc, hinput⟩ := mem_capturedInputs.mp hpoly
      cases c with
      | tagInput name p =>
        cases hinput
        exact h.calls _ hc
      | _ => cases hinput
    · obtain ⟨c, hc, hinput⟩ := mem_capturedInputs.mp hmrp
      cases c with
      | tagInputMrp name m =>
        cases hinput
        exact h.calls _ hc
      | _ => cases hinput

/-! ## Operations -/

/-- The operations of every call keep to the dimension. -/
theorem ofDimension_respects (hF : F.Dimensioned dim mdim) (c : Call) :
    c.Respects F (ofDimension F dim mdim n) := by
  have hmodulus : ∀ base : List UInt64, ∀ q ∈ base, (ofDimension F dim mdim n).base q :=
    fun _ _ _ => trivial
  unfold Call.Respects
  -- Each clause of the contract is one law of the library about dimensions.
  split
  · exact hmodulus _
  · exact fun p p' q hp hp' _ => (hF.srPp _ p p' q (hp.trans hp'.symm)).trans hp
  · exact fun p q hp _ => (hF.srPs _ p _ q).trans hp
  · exact fun p q hp _ => (hF.srTransform _ p q).trans hp
  · exact fun p hp => (hF.srAutomorph p _).trans hp
  · refine ⟨hmodulus _, fun m m' hm hm' => ?_⟩
    obtain ⟨hbase, hdim⟩ := hF.mrPp _ m m' (hm.1.trans hm'.1.symm)
    exact ⟨hbase.trans hm.1, fun h => (hdim ((hm.2 h).trans (hm'.2 h).symm)).trans (hm.2 h)⟩
  · refine ⟨hmodulus _, fun m hm => ?_⟩
    obtain ⟨hbase, hdim⟩ := hF.mrPs _ m _ ((buildMrs_moduli _ _).trans hm.1.symm)
    exact ⟨hbase.trans hm.1, fun h => hdim.trans (hm.2 h)⟩
  · refine ⟨hmodulus _, fun m hm => ?_⟩
    obtain ⟨hbase, hdim⟩ := hF.mrTransform _ m
    exact ⟨hbase.trans hm.1, fun h => hdim.trans (hm.2 h)⟩
  · refine ⟨hmodulus _, fun m hm => ?_⟩
    obtain ⟨hbase, hdim⟩ := hF.mrIndex _ m _
    exact ⟨hbase.trans hm.1, fun h => hdim.trans (hm.2 h)⟩
  · refine fun srcBase dstBase hp => ⟨hmodulus _, hmodulus _, fun m variant shape hm => ?_⟩
    exact ⟨hF.base_fastBaseConvert m _ variant shape, fun _ =>
      (hF.fastBaseConvert m _ variant shape).trans (hm.2 (basisConvert_bases hp).2.1)⟩
  · refine fun srcBase rescaleBase hp => ⟨hmodulus _, fun m variant shape hm => ⟨hmodulus _, rfl, ?_⟩⟩
    exact fun _ => (hF.rescaleFbc m _ variant shape).trans (hm.2 (modDown_bases hp).2.1)
  · refine fun srcBase digitBases lens pBase hp => ⟨hmodulus _, fun digitBase _ m variant shape hm =>
      ⟨hmodulus _, rfl, fun _ => ?_⟩⟩
    rw [hF.fastBaseConvert, hF.mrSubset]
    exact hm.2 (modUp_bases hp).2.1
  · trivial

/-! ## The other calls -/

/-- A state with nothing bound or captured agrees on every dimension. -/
theorem Empty.agree (h : w.Empty) : w.DimensionsAgree dim mdim := by
  refine ⟨fun a poly ha => ?_, fun poly hpoly => ?_, fun mrp hmrp => ?_⟩
  · rw [h.1 a] at ha
    cases ha
  · rw [h.2] at hpoly
    exact absurd hpoly List.not_mem_nil
  · rw [h.2] at hmrp
    exact absurd hmrp List.not_mem_nil

/-- A reset leaves nothing behind. -/
theorem empty_reset (w : World P M) : (resetAll w).Empty :=
  ⟨fun _ => rfl, capturedInputs_append (clearStateLocked w).compiler [.reset]⟩

/-- Only the setter and a reset change the dimension. -/
theorem ringDim_after (env : CompilerReplies P) {call : Call} (hset : ∀ k, call ≠ .setRingDimension k)
    (hreset : call ≠ .deviceReset) : (w.after F ⟨env, call⟩).config.ringDim = w.config.ringDim := by
  by_cases hc : call.Configures
  · cases call with
    | setRingDimension k => exact absurd rfl (hset k)
    | config call =>
      refine (config_steps (F := F) env call w).preserves
        (I := fun v => v.config.ringDim = w.config.ringDim) (fun v x hx hv => ?_) rfl
      obtain ⟨⟨c, rfl⟩, hallowed⟩ := hx
      exact hallowed.trans hv
    | _ => exact hc.elim
  · exact congrArg Config.ringDim (config_after (i := ⟨env, call⟩) hc hreset w).1

/-- Setting the dimension keeps what the state agrees on exactly where it keeps the dimension. -/
theorem agree_setRingDimension (h : w.DimensionsAgree dim mdim) (k : UInt64) :
    (w.act F (.ringDimension k)).DimensionsAgree dim mdim ↔ (w.config.ringDim ≠ k → w.Empty) := by
  constructor
  · intro h' hne
    refine ⟨fun a => ?_, List.eq_nil_iff_forall_not_mem.mpr fun x hx => ?_⟩
    · rcases ha : w.binding a with _ | poly
      · rfl
      · exact absurd ((h.bound a poly ha).symm.trans (h'.bound a poly ha)) hne
    · cases x with
      | inl poly => exact hne ((h.captured poly hx).symm.trans (h'.captured poly hx))
      | inr mrp => exact hne ((h.capturedMrp mrp hx).symm.trans (h'.capturedMrp mrp hx))
  · intro hempty
    by_cases hk : w.config.ringDim = k
    · subst hk
      exact ⟨h.bound, h.captured, h.capturedMrp⟩
    · exact Empty.agree (hempty hk)

/-! ## Calls -/

/-- A call keeps what the state agrees on exactly where it keeps the dimension. -/
theorem keepsDimension_iff (hF : F.Dimensioned dim mdim) (hw : w.Inv)
    (h : w.DimensionsAgree dim mdim) (i : Invocation P) :
    i.KeepsDimension w ↔ (w.after F i).DimensionsAgree dim mdim := by
  obtain ⟨env, call⟩ := i
  by_cases hset : ∃ k, call = .setRingDimension k
  -- The setter keeps the dimensions exactly where it keeps the number, or where nothing is bound.
  · obtain ⟨k, rfl⟩ := hset
    have hafter : w.after F ⟨env, .setRingDimension k⟩ = (setRingDimension k w).2 :=
      Shim.replyWith_state _ _ w
    rw [hafter]
    rcases setRingDimension_cases (F := F) k w with ⟨hallowed, he⟩ | ⟨hrejected, he⟩
    · rw [he, agree_setRingDimension h]
      constructor
      · exact fun hkeeps => hkeeps k rfl hallowed
      · rintro hkeeps m ⟨⟩ -
        exact hkeeps
    · rw [he]
      refine ⟨fun _ => h, ?_⟩
      rintro _ m ⟨⟩ hallowed
      exact absurd hallowed hrejected
  have hkeeps : Invocation.KeepsDimension w ⟨env, call⟩ := fun k hk => absurd ⟨k, hk⟩ hset
  refine ⟨fun _ => ?_, fun _ => hkeeps⟩
  -- A reset forgets every value; the other calls keep the dimension, and compute by the laws.
  by_cases hreset : call = .deviceReset
  · subst hreset
    exact (empty_reset w).agree
  · have hdim := ringDim_after (F := F) (w := w) env (fun k hk => hset ⟨k, hk⟩) hreset
    rw [agree_iff_carries (F := F)] at h ⊢
    rw [hdim]
    exact h.after hw.epoch (ofDimension_closed hF w.config) (ofDimension_respects hF call)

/-! ## Operands and outputs -/

/-- The residues that an operation resolves have the dimension that is configured. -/
theorem DimensionsAgree.operands (hF : F.Dimensioned dim mdim) (h : w.DimensionsAgree dim mdim)
    {env : CompilerReplies P} {residues : List (DevAddr × UInt64)} {pairs : List (P × UInt64)}
    {w' : World P M}
    (hrun : (epochSession env >>= fun _ => Expected.mapEach (lookupResidue F) residues) w =
      (.ok pairs, w')) : ∀ r ∈ pairs, dim r.1 = w.config.ringDim := by
  have hclosed := ofDimension_closed hF w.config
  have hpairs := Expected.Triple.bind (carries_sessioned hclosed env).session fun _ =>
    Expected.Triple.mapEach (S := fun pair : P × UInt64 => dim pair.1 = w.config.ringDim)
      fun residue (_ : residue ∈ residues) => (carries_inside hclosed).lookupResidue residue
  exact (hpairs.ok ⟨rfl, agree_iff_carries.mp h⟩ hrun).1.1

/-- An output that is read back has a value for each component. -/
theorem DimensionsAgree.outputs (hw : w.epoch.Valid) (h : w.DimensionsAgree dim mdim)
    {env : CompilerReplies P} (henv : env.Replays dim) :
    ∀ entry ∈ outputs env w, ¬ WrongLength env w entry := by
  rintro ⟨a, name⟩ he ⟨values, hvalues, hlen⟩
  have hname := mem_outputs.mp he
  obtain ⟨poly, hp⟩ := UMap.mem_iff_lookup.mp
    (hw.consistent.pending_bound a (UMap.mem_of_lookup hname))
  refine hlen ?_
  rw [henv _ ⟨a, name⟩ poly values (taggedOutputs_nodup hw) (mem_taggedOutputs hname hp) hvalues,
    h.bound a poly hp]

end

end World

open World

/-- The bindings agree with the configured ring dimension, and so do the operands of what is
recorded next and the outputs of a flush. -/
structure World.KeepsOneDimension (F : Fhetch P M) (dim : P → UInt64) (mdim : M → UInt64)
    (w : World P M) : Prop where
  agree : w.DimensionsAgree dim mdim
  /-- Whatever residues an operation resolves, they have the dimension that is configured. -/
  operands : ∀ env residues pairs w',
    (epochSession env >>= fun _ => Expected.mapEach (lookupResidue F) residues) w = (.ok pairs, w') →
      ∀ r ∈ pairs, dim r.1 = w.config.ringDim
  /-- No flush reads back values of another length than the one that the addresses have. -/
  outputs : ∀ env : CompilerReplies P, env.Replays dim →
    ∀ entry ∈ outputs env w, ¬ WrongLength env w entry
  size : w.allocator.polyBytes = w.config.ringDim * 8

/-- In a run, the bindings agree with the configured ring dimension in every state reached exactly
when every accepted setting that changes it finds nothing bound and no input captured. -/
theorem dimensions_agree (F : Fhetch P M) {dim : P → UInt64} {mdim : M → UInt64}
    (hF : F.Dimensioned dim mdim) (is : List (Invocation P)) :
    Expected.Along (World.after F) (fun w i => i.KeepsDimension w) .init is ↔
      ∀ js, js <+: is → (World.runAll F .init js).KeepsOneDimension F dim mdim := by
  have hinit : (World.init : World P M).DimensionsAgree dim mdim :=
    Empty.agree ⟨fun _ => rfl, rfl⟩
  have hinv : ∀ (w : World P M) i, w.Inv → (World.after F w i).Inv := fun w i hw => hw.after i
  rw [Expected.along_iff_prefix hinv (fun w i hw h => keepsDimension_iff hF hw h i) inv_init hinit]
  refine forall₂_congr fun js _ => ⟨fun h => ?_, fun h => h.agree⟩
  have hw : (World.runAll F .init js).Inv := inv_init.runAll js
  exact ⟨h, fun env residues pairs w' hrun => h.operands hF hrun,
    fun env henv => h.outputs hw.epoch henv, hw.size⟩

/-! ## Two dimensions in one epoch -/

/-- The dimension of a list of values. -/
def vectorDim (values : List UInt64) : UInt64 := .ofNat values.length

/-- A residue-wise operation on polynomials of values. -/
def vectorZip {T : Type} (f : List UInt64 → T → UInt64 → List UInt64)
    (m : UInt64 × List (List UInt64 × UInt64)) (operands : List (T × UInt64)) :
    UInt64 × List (List UInt64 × UInt64) :=
  (m.1, (m.2.zip operands).map fun r => (f r.1.1 r.2.1 r.1.2, r.1.2))

/-- The library on polynomials that are their values, with a multi-residue polynomial that carries
its dimension. Transforms, automorphisms and base conversion are placeholders that keep the
dimension. -/
def vectorRing : Fhetch (List UInt64) (UInt64 × List (List UInt64 × UInt64)) where
  fromData values _ := values
  srAddp x y q := List.zipWith (scalarAdd · · q) x y
  srSubp x y q := List.zipWith (scalarSub · · q) x y
  srMulp x y q := List.zipWith (scalarMul · · q) x y
  srAddps x s q := x.map (scalarAddps · s q)
  srSubps x s q := x.map (scalarSub · s q)
  srMulps x s q := x.map (scalarMul · s q)
  srNtt x _ := x
  srIntt x _ := x
  srAutomorphEval x _ := x
  fromPairs pairs := (vectorDim ((pairs.map Prod.fst).headD []), pairs)
  residue m q := (((m.2.find? (·.2 = q)).map (·.1)).getD []).takeD m.1.toNat 0
  base m := m.2.map Prod.snd
  mrAddp m m' := vectorZip (fun x y q => List.zipWith (scalarAdd · · q) x y) m m'.2
  mrSubp m m' := vectorZip (fun x y q => List.zipWith (scalarSub · · q) x y) m m'.2
  mrMulp m m' := vectorZip (fun x y q => List.zipWith (scalarMul · · q) x y) m m'.2
  mrAddps := vectorZip fun x s q => x.map (scalarAdd · s q)
  mrSubps := vectorZip fun x s q => x.map (scalarSub · s q)
  mrMulps := vectorZip fun x s q => x.map (scalarMul · s q)
  mrNtt m := m
  mrIntt m := m
  mrAutomorphEval m _ := m
  mrRotAutomorphCoeff m _ := m
  mrSubset m base := (m.1, base.filterMap fun q => m.2.find? (·.2 = q))
  fastBaseConvert m base _ _ := (m.1, base.map fun q => ((m.2.headD ([], 0)).1.map (· % q), q))
  rescaleFbc m base _ _ := (m.1, m.2.filter fun r => r.2 ∉ base)

/-- Zipping with operands over the base keeps the base. -/
theorem base_vectorZip {T : Type} (f : List UInt64 → T → UInt64 → List UInt64)
    {m : UInt64 × List (List UInt64 × UInt64)} {operands : List (T × UInt64)}
    (h : operands.map Prod.snd = m.2.map Prod.snd) :
    (vectorZip f m operands).2.map Prod.snd = m.2.map Prod.snd := by
  have hlen : m.2.length ≤ operands.length := by
    have hlength := congrArg List.length h
    rw [List.length_map, List.length_map] at hlength
    exact hlength.ge
  have hfst : (m.2.zip operands).map Prod.fst = m.2 := List.map_fst_zip hlen
  calc ((m.2.zip operands).map fun r => (f r.1.1 r.2.1 r.1.2, r.1.2)).map Prod.snd
      = ((m.2.zip operands).map Prod.fst).map Prod.snd := by simp only [List.map_map]; rfl
    _ = m.2.map Prod.snd := by rw [hfst]

/-- Zipping two vectors of one dimension keeps it. -/
theorem vectorDim_zipWith (f : UInt64 → UInt64 → UInt64) {x y : List UInt64}
    (h : vectorDim x = vectorDim y) : vectorDim (List.zipWith f x y) = vectorDim x := by
  unfold vectorDim at h ⊢
  rw [List.length_zipWith]
  rcases min_choice x.length y.length with hmin | hmin
  · rw [hmin]
  · rw [hmin, h]

/-- Mapping over a vector keeps its dimension. -/
theorem vectorDim_map (f : UInt64 → UInt64) (x : List UInt64) : vectorDim (x.map f) = vectorDim x := by
  rw [vectorDim, List.length_map, vectorDim]

/-- The operations on vectors keep to the dimension. -/
theorem vectorRing_dimensioned : vectorRing.Dimensioned vectorDim Prod.fst where
  base_fromPairs _ := rfl
  base_fastBaseConvert m base variant shape := by
    -- The base of a result is the list of its second components.
    change (base.map _).map _ = base
    rw [List.map_map]
    exact List.map_id base
  base_rescaleFbc m base variant shape := by
    change (m.2.filter fun r => r.2 ∉ base).map Prod.snd = (m.2.map Prod.snd).filter (· ∉ base)
    rw [List.filter_map]
    rfl
  fromData values n h := by
    change UInt64.ofNat values.length = n
    rw [h, UInt64.ofNat_toNat]
  -- The dimension of a vector is its length, which no operation changes.
  srPp op p p' q h := by cases op <;> exact vectorDim_zipWith _ h
  srPs op p scalar q := by cases op <;> exact vectorDim_map _ p
  srTransform op p q := by cases op <;> rfl
  srAutomorph p index := rfl
  fromPairs pairs n hne hpairs := by
    rcases pairs with _ | ⟨r, pairs⟩
    · exact absurd rfl hne
    · exact hpairs r (List.mem_cons_self ..)
  residue m q _ := by
    change UInt64.ofNat (List.takeD _ _ _).length = m.1
    rw [List.takeD_length, UInt64.ofNat_toNat]
  mrPp op m m' h := by
    have hmoduli : m'.2.map Prod.snd = m.2.map Prod.snd := h.symm
    have hbase := fun f => base_vectorZip f hmoduli
    cases op
    · exact ⟨hbase fun x y q => List.zipWith (scalarAdd · · q) x y, fun _ => rfl⟩
    · exact ⟨hbase fun x y q => List.zipWith (scalarSub · · q) x y, fun _ => rfl⟩
    · exact ⟨hbase fun x y q => List.zipWith (scalarMul · · q) x y, fun _ => rfl⟩
  mrPs op m scalars h := by
    have hmoduli : scalars.map Prod.snd = m.2.map Prod.snd := h
    have hbase := fun f => base_vectorZip f hmoduli
    cases op
    · exact ⟨hbase fun x s q => x.map (scalarAdd · s q), rfl⟩
    · exact ⟨hbase fun x s q => x.map (scalarSub · s q), rfl⟩
    · exact ⟨hbase fun x s q => x.map (scalarMul · s q), rfl⟩
  mrTransform op m := by cases op <;> exact ⟨rfl, rfl⟩
  mrIndex op m index := by cases op <;> exact ⟨rfl, rfl⟩
  mrSubset m base := rfl
  fastBaseConvert m base variant shape := rfl
  rescaleFbc m base variant shape := rfl

/-- A compiler whose every step succeeds, on polynomials that are their values. -/
def vectorReplies : CompilerReplies (List UInt64) where
  initReturns := true
  stopSucceeds := true
  hookFails := false
  replaySucceeds := true
  result outputs name := (outputs.find? (·.1 = name)).map (·.2)
  savedValues values _ := some values
  outputOrder := .inOrder
  groupOrder := .inOrder

def vectorProgram (calls : List Call) : List (Invocation (List UInt64)) :=
  calls.map (⟨vectorReplies, ·⟩)

/-- Two words are uploaded, added to themselves and read back. -/
def oneDimension : List (Invocation (List UInt64)) :=
  vectorProgram [.setRingDimension 2, .config (.setCiphertextModulus 0 17), .malloc true 16,
    .memcpy (.hostToDevice ⟨kHbmBase⟩ (some [5, 0, 0, 0, 0, 0, 0, 0, 6, 0, 0, 0, 0, 0, 0, 0])) 16,
    .pp .add ⟨kHbmBase⟩ ⟨kHbmBase⟩ ⟨kHbmBase⟩ 0, .tagOutput ⟨kHbmBase⟩, .flush]

/-- A program at one dimension keeps to it. -/
theorem dimensions_agree_example :
    (World.runAll vectorRing .init oneDimension).KeepsOneDimension vectorRing vectorDim Prod.fst := by
  refine (dimensions_agree vectorRing vectorRing_dimensioned oneDimension).mp ?_ _
    (List.prefix_refl _)
  refine ⟨fun n _ _ _ => ⟨fun _ => rfl, rfl⟩, ?_⟩
  repeat' first | exact trivial | refine ⟨fun n hn => (nomatch hn), ?_⟩

/-- One word is uploaded, and then two words under another dimension. -/
def twoDimensions : List (Invocation (List UInt64)) :=
  vectorProgram [.setRingDimension 1, .config (.setCiphertextModulus 0 17), .malloc true 8,
    .memcpy (.hostToDevice ⟨kHbmBase⟩ (some [5, 0, 0, 0, 0, 0, 0, 0])) 8,
    .setRingDimension 2, .malloc true 16,
    .memcpy (.hostToDevice ⟨kHbmBase + 8⟩
      (some [5, 0, 0, 0, 0, 0, 0, 0, 6, 0, 0, 0, 0, 0, 0, 0])) 16]

/-- The first upload stays bound under the dimension that it was made with, and an addition of the
two is accepted. -/
theorem dimensions_agree_counterexample :
    let w := World.runAll vectorRing .init twoDimensions
    w.Reachable vectorRing ∧ ¬ w.KeepsOneDimension vectorRing vectorDim Prod.fst ∧
      (hazeAdd vectorRing vectorReplies ⟨kHbmBase⟩ ⟨kHbmBase⟩ ⟨kHbmBase + 8⟩ 0 w).1.code =
        .success := by
  refine ⟨⟨_, rfl⟩, fun h => ?_, by decide +kernel⟩
  exact absurd (h.agree.bound ⟨kHbmBase⟩ [5] (by decide +kernel)) (by decide +kernel)

end Haze
