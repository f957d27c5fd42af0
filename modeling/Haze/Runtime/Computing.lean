import Haze.Runtime.Evaluation

/-!
# What the compute calls store

A compute call succeeds exactly when it can be evaluated on what its sources hold, and every
destination is then bound to what the evaluation gives (`Call.run_eval`): whatever the overlap of
the source and destination arrays, all sources are read before the first destination is written
(`computes_reads_first`).

A compute call that fails binds no destination. It has moved the words of the sources that it looked
up into bindings, so that exactly the words of a source that was not bound are missing afterwards
(`failed_computes_restores`).
-/

namespace Haze

variable {P M : Type}

open World (takePtrs buildMrs fbcVariant fbcCenterShape)

/-- A compute call, a basis conversion or the copy of one residue, which is recorded as an
operation. -/
def Call.Computes : Call → Prop
  | .memcpy (.deviceToDevice _ _) _ => True
  | .pp .. => True
  | .ps .. => True
  | .transform .. => True
  | .automorph .. => True
  | .ppMrp .. => True
  | .psMrp .. => True
  | .transformMrp .. => True
  | .indexMrp .. => True
  | .basisConvert .. => True
  | .modDown .. => True
  | .modUp .. => True
  | _ => False

/-- The shim makes the writes that `eval` gives and replies success, or replies an error where it
gives none. Either way it has looked up `looked`. -/
def Shim.Evaluates (F : Fhetch P M) (looked : Config → (DevAddr → Option P) → List DevAddr)
    (eval : Config → (DevAddr → Option P) → Option (List (DevAddr × P))) (shim : Shim P M) : Prop :=
  ∀ w : World P M, w.Stocked → match eval w.config (w.held F) with
    | some writes => (shim w).1.code = .success ∧
      w.RecordsTo F (looked w.config (w.held F)) writes (shim w).2
    | none => (shim w).1.code ≠ .success ∧
      w.ReadsTo F (looked w.config (w.held F)) (shim w).2

namespace Shim.Evaluates

variable {F : Fhetch P M} {looked : Config → (DevAddr → Option P) → List DevAddr}
  {eval : Config → (DevAddr → Option P) → Option (List (DevAddr × P))} {shim : Shim P M}

/-- A call that runs a method, however it replies to its success. -/
theorem of_replyWith {x : Method P M Unit} {onOk : Unit → Reply}
    (hok : (onOk ()).code = .success) (h : World.Evaluates F [] looked eval x) :
    Shim.Evaluates F looked eval (replyWith onOk x) := by
  intro w hw
  have hrun := h.run hw
  unfold replyWith
  rcases heval : eval w.config (w.held F) with _ | writes <;> rw [heval] at hrun
  · obtain ⟨e, w', hx, hw'⟩ := hrun
    rw [hx]
    exact ⟨toPublicError_ne_success e, hw'⟩
  · obtain ⟨w', hx, hw'⟩ := hrun
    rw [hx]
    exact ⟨hok, hw'⟩

/-- A call that runs a method and writes its success to the last error. -/
theorem of_method {x : Method P M Unit} (h : World.Evaluates F [] looked eval x) :
    Shim.Evaluates F looked eval (setInternalResult x) :=
  of_replyWith rfl h

/-- What is looked up and evaluated may be given by equal functions. -/
theorem congr {looked' : Config → (DevAddr → Option P) → List DevAddr}
    {eval' : Config → (DevAddr → Option P) → Option (List (DevAddr × P))}
    (h : Shim.Evaluates F looked eval shim) (hlooked : ∀ c v, looked' c v = looked c v)
    (heval : ∀ c v, eval' c v = eval c v) : Shim.Evaluates F looked' eval' shim := by
  rwa [funext fun c => funext (hlooked c), funext fun c => funext (heval c)]

/-- A call whose arguments are rejected changes nothing. -/
theorem invalidValue (hlooked : ∀ c v, looked c v = []) (heval : ∀ c v, eval c v = none) :
    Shim.Evaluates F looked eval invalidValue := by
  intro w _
  rw [hlooked, heval]
  exact ⟨fun h => HazeError.noConfusion h, .refl F w⟩

/-- A check of the arguments before a call. -/
theorem accepted {rejected : Bool} (cond : Prop) [Decidable cond] (hcond : rejected = true ↔ cond)
    (h : Shim.Evaluates F looked eval shim) :
    Shim.Evaluates F (fun c v => if cond then [] else looked c v)
      (fun c v => if cond then none else eval c v) (guarded rejected shim) := by
  rcases rejected
  · have hnot : ¬ cond := fun h => Bool.false_ne_true (hcond.mpr h)
    exact h.congr (fun _ _ => if_neg hnot) fun _ _ => if_neg hnot
  · exact invalidValue (fun _ _ => if_pos (hcond.mp rfl)) fun _ _ => if_pos (hcond.mp rfl)

end Shim.Evaluates

section

variable (F : Fhetch P M) (env : CompilerReplies P)

/-- A call that computes succeeds exactly when it can be evaluated on what the addresses hold, and
then makes the writes of the evaluation. Where it fails it has only looked sources up. -/
theorem Call.run_eval {c : Call} (hc : c.Computes) :
    Shim.Evaluates F (Call.looked F · · c) (Call.eval F · · c) (c.run F env) := by
  -- Each call is its null checks around one method, or the rejection of what it cannot read.
  cases c with
  | memcpy transfer count =>
    cases transfer with
    | deviceToDevice dst src =>
      refine (Shim.Evaluates.accepted (dst = .null ∨ src = .null) (by simp)
        (.of_method (.session (.copyResult dst src kCopyModulus)))).congr (fun c v => ?_) fun c v => ?_
      · simp only [looked, rejected, srcs, decide_eq_true_eq]
      · rfl
    | _ => exact hc.elim
  | pp op dst src1 src2 modIdx =>
    have hop : Shim.Evaluates F (Call.looked F · · (.pp op dst src1 src2 modIdx))
        (Call.eval F · · (.pp op dst src1 src2 modIdx))
        (hazeBinaryPp F env (op.sr F) dst src1 src2 modIdx) := by
      refine (Shim.Evaluates.accepted (dst = .null ∨ src1 = .null ∨ src2 = .null)
        (by simp [or_assoc]) (.of_method (.binaryPpOp _ dst src1 src2 modIdx))).congr
        (fun c v => ?_) fun c v => ?_
      · simp only [looked, rejected, srcs, decide_eq_true_eq, ite_or]
      · simp only [eval, ite_or]
        rfl
    cases op <;> exact hop
  | ps op dst src scalar modIdx =>
    have hop : Shim.Evaluates F (Call.looked F · · (.ps op dst src scalar modIdx))
        (Call.eval F · · (.ps op dst src scalar modIdx))
        (hazeBinaryPs F env (op.srs F) dst src scalar modIdx) := by
      refine (Shim.Evaluates.accepted (dst = .null ∨ src = .null) (by simp)
        (.of_method (.unaryPqOp _ dst src modIdx))).congr (fun c v => ?_) fun c v => ?_
      · simp only [looked, rejected, srcs, decide_eq_true_eq, ite_or]
      · simp only [eval, ite_or, Option.map_eq_bind]
        rfl
    cases op <;> exact hop
  | transform op dst src modIdx =>
    have hop : Shim.Evaluates F (Call.looked F · · (.transform op dst src modIdx))
        (Call.eval F · · (.transform op dst src modIdx))
        (hazeUnaryPq F env (op.sr F) dst src modIdx) := by
      refine (Shim.Evaluates.accepted (dst = .null ∨ src = .null) (by simp)
        (.of_method (.unaryPqOp _ dst src modIdx))).congr (fun c v => ?_) fun c v => ?_
      · simp only [looked, rejected, srcs, decide_eq_true_eq, ite_or]
      · simp only [eval, ite_or, Option.map_eq_bind]
        rfl
    cases op <;> exact hop
  | automorph dst src index =>
    refine (Shim.Evaluates.accepted (dst = .null ∨ src = .null) (by simp)
      (.of_method (.unaryPiOp _ dst src index))).congr (fun c v => ?_) fun c v => ?_
    · simp only [looked, rejected, srcs, decide_eq_true_eq]
    · simp only [eval, Option.map_eq_bind]
      rfl
  | ppMrp op dst src1 src2 base =>
    have hop : Shim.Evaluates F (Call.looked F · · (.ppMrp op dst src1 src2 base))
        (Call.eval F · · (.ppMrp op dst src1 src2 base))
        (hazeBinaryPpMrp F env (op.mr F) dst src1 src2 base) := by
      -- The arrays are checked before anything else, in the order of the source.
      rcases src2 with _ | src2
      · refine .invalidValue (fun _ _ => ?_) fun _ _ => ?_
        all_goals rcases dst with _ | _ <;> rcases src1 with _ | _ <;> rfl
      rcases dst with _ | dst
      · exact .invalidValue (fun _ _ => rfl) fun _ _ => rfl
      rcases src1 with _ | src1
      · exact .invalidValue (fun _ _ => rfl) fun _ _ => rfl
      rcases base with _ | base
      · exact .invalidValue (fun _ _ => rfl) fun _ _ => rfl
      refine (Shim.Evaluates.accepted (base = []) List.isEmpty_iff
        (.of_method (.binaryPpOpMrp (op.mr F) dst src1 src2 base))).congr (fun c v => ?_) fun c v => ?_
      · simp only [looked, rejected, srcs, residues, decide_eq_true_eq]
      · simp only [eval]
        rfl
    cases op <;> exact hop
  | psMrp op dst src scalars base =>
    have hop : Shim.Evaluates F (Call.looked F · · (.psMrp op dst src scalars base))
        (Call.eval F · · (.psMrp op dst src scalars base))
        (hazeBinaryPsMrp F env (op.mrs F) dst src scalars base) := by
      rcases scalars with _ | scalars
      · refine .invalidValue (fun _ _ => ?_) fun _ _ => ?_
        all_goals rcases dst with _ | _ <;> rcases src with _ | _ <;> rfl
      rcases dst with _ | dst
      · exact .invalidValue (fun _ _ => rfl) fun _ _ => rfl
      rcases src with _ | src
      · exact .invalidValue (fun _ _ => rfl) fun _ _ => rfl
      rcases base with _ | base
      · exact .invalidValue (fun _ _ => rfl) fun _ _ => rfl
      refine (Shim.Evaluates.accepted (base = []) List.isEmpty_iff
        (.of_method (.unaryPOpMrp _ dst src base))).congr (fun c v => ?_) fun c v => ?_
      · simp only [looked, rejected, srcs, residues, decide_eq_true_eq]
      · simp only [eval, Option.map_eq_bind]
        rfl
    cases op <;> exact hop
  | transformMrp op dst src base =>
    have hop : Shim.Evaluates F (Call.looked F · · (.transformMrp op dst src base))
        (Call.eval F · · (.transformMrp op dst src base))
        (hazeUnaryPMrp F env (op.mr F) dst src base) := by
      rcases dst with _ | dst
      · exact .invalidValue (fun _ _ => rfl) fun _ _ => rfl
      rcases src with _ | src
      · exact .invalidValue (fun _ _ => rfl) fun _ _ => rfl
      rcases base with _ | base
      · exact .invalidValue (fun _ _ => rfl) fun _ _ => rfl
      refine (Shim.Evaluates.accepted (base = []) List.isEmpty_iff
        (.of_method (.unaryPOpMrp _ dst src base))).congr (fun c v => ?_) fun c v => ?_
      · simp only [looked, rejected, srcs, residues, decide_eq_true_eq]
      · simp only [eval, Option.map_eq_bind]
        rfl
    cases op <;> exact hop
  | indexMrp op dst src index base =>
    have hop : Shim.Evaluates F (Call.looked F · · (.indexMrp op dst src index base))
        (Call.eval F · · (.indexMrp op dst src index base))
        (hazeUnaryPiMrp F env (op.mr F) dst src index base) := by
      rcases dst with _ | dst
      · exact .invalidValue (fun _ _ => rfl) fun _ _ => rfl
      rcases src with _ | src
      · exact .invalidValue (fun _ _ => rfl) fun _ _ => rfl
      rcases base with _ | base
      · exact .invalidValue (fun _ _ => rfl) fun _ _ => rfl
      refine (Shim.Evaluates.accepted (base = []) List.isEmpty_iff
        (.of_method (.unaryPOpMrp _ dst src base))).congr (fun c v => ?_) fun c v => ?_
      · simp only [looked, rejected, srcs, residues, decide_eq_true_eq]
      · simp only [eval, Option.map_eq_bind]
        rfl
    cases op <;> exact hop
  | basisConvert dst src params =>
    rcases dst with _ | dst
    · exact .invalidValue (fun _ _ => rfl) fun _ _ => rfl
    rcases src with _ | src
    · exact .invalidValue (fun _ _ => rfl) fun _ _ => rfl
    rcases params with _ | p
    · exact .invalidValue (fun _ _ => rfl) fun _ _ => rfl
    -- The bases are validated inside the method.
    refine (Shim.Evaluates.of_replyWith rfl (.basisConvert dst src p)).congr (fun c v => ?_) fun c v => ?_
    · simp only [looked, rejected, srcs]
      rfl
    · simp only [eval, Option.map_eq_bind]
      rfl
  | modDown dst src params =>
    rcases dst with _ | dst
    · exact .invalidValue (fun _ _ => rfl) fun _ _ => rfl
    rcases src with _ | src
    · exact .invalidValue (fun _ _ => rfl) fun _ _ => rfl
    rcases params with _ | p
    · exact .invalidValue (fun _ _ => rfl) fun _ _ => rfl
    refine (Shim.Evaluates.of_replyWith rfl (.modDown dst src p)).congr (fun c v => ?_) fun c v => ?_
    · simp only [looked, rejected, srcs]
      rfl
    · simp only [eval, Option.map_eq_bind]
      rfl
  | modUp dst src params =>
    rcases dst with _ | dst
    · exact .invalidValue (fun _ _ => rfl) fun _ _ => rfl
    rcases src with _ | src
    · exact .invalidValue (fun _ _ => rfl) fun _ _ => rfl
    rcases params with _ | p
    · exact .invalidValue (fun _ _ => rfl) fun _ _ => rfl
    refine (Shim.Evaluates.of_replyWith rfl (.modUp dst src p)).congr (fun c v => ?_) fun c v => ?_
    · simp only [looked, rejected, srcs]
      rfl
    · simp only [eval, Option.map_eq_bind]
      rfl
  | _ => exact hc.elim

end

/-! ## The destinations -/

section

variable {F : Fhetch P M} {env : CompilerReplies P} {v : DevAddr → Option P}

/-- The writes of a multi-residue result are to its pointers. -/
theorem map_fst_mrpWrites (dst : List DevAddr) (m : M) (base : List UInt64) :
    (mrpWrites F dst m base).map Prod.fst = takePtrs base.length dst := by
  rw [mrpWrites, List.map_map]
  exact World.map_fst_zip_takePtrs base dst

/-- As many values are found as addresses are looked up. -/
theorem length_polysAt {addrs : List DevAddr} {polys : List P} (h : polysAt v addrs = some polys) :
    polys.length = addrs.length := by
  induction addrs generalizing polys with
  | nil => exact congrArg List.length (Option.some.inj h).symm
  | cons a addrs ih =>
    rw [polysAt_cons] at h
    obtain ⟨p, -, hrest⟩ := Option.bind_eq_some_iff.mp h
    obtain ⟨ps, hps, rfl⟩ := Option.map_eq_some_iff.mp hrest
    exact congrArg (· + 1) (ih hps)

/-- A multi-residue polynomial is assembled with its base. -/
theorem evalMrp_pairs {src : List DevAddr} {base : List UInt64} {m : M}
    (h : evalMrp F v src base = some m) :
    ∃ pairs : List (P × UInt64), F.fromPairs pairs = m ∧ pairs.map Prod.snd = base := by
  obtain ⟨polys, hpolys, rfl⟩ := Option.map_eq_some_iff.mp h
  refine ⟨polys.zip base, rfl, List.map_snd_zip ?_⟩
  rw [length_polysAt hpolys, World.length_takePtrs]

/-- Digits whose bases have one length are written one after the other. -/
theorem map_fst_digitWrites {n : ℕ} {dst : List DevAddr} {lift : List UInt64 → M}
    (hlift : ∀ digitBase, (F.base (lift digitBase)).length = n) (d : ℕ)
    (digitBases : List (List UInt64)) :
    (digitWrites F dst lift d digitBases).map Prod.fst =
      (List.range' d digitBases.length).flatMap fun i => takePtrs n (dst.drop (i * n)) := by
  induction digitBases generalizing d with
  | nil => rfl
  | cons digitBase digitBases ih =>
    rw [digitWrites, List.map_append, map_fst_mrpWrites, ih, hlift, List.length_cons,
      List.range'_succ, List.flatMap_cons]

/-- The writes of a call are to its destinations, in order. -/
theorem Call.map_fst_eval (hF : F.LawfulBase) {c : Call} (hc : c.Computes) {config : Config}
    {writes : List (DevAddr × P)} (h : c.eval F config v = some writes) :
    writes.map Prod.fst = c.dsts := by
  -- A unary operation writes one value for each modulus of the base.
  have hunary : ∀ (dst src : List DevAddr) (base : List UInt64) (f : M → M),
      (if base = [] then none else (evalMrp F v src base).map fun m => mrpWrites F dst (f m) base) =
        some writes → writes.map Prod.fst = (residueWrites (some dst) (some base)).flatMap Prod.fst := by
    intro dst src base f h
    split_ifs at h
    obtain ⟨m, -, rfl⟩ := Option.map_eq_some_iff.mp h
    rw [map_fst_mrpWrites, residueWrites, List.flatMap_singleton]
  -- The destinations do not depend on the values, as far as the base of the result is known.
  cases c with
  | memcpy transfer count =>
    cases transfer with
    | deviceToDevice dst src =>
      simp only [eval] at h
      split_ifs at h
      obtain ⟨p, -, rfl⟩ := Option.map_eq_some_iff.mp h
      rfl
    | _ => exact hc.elim
  | pp op dst src1 src2 modIdx =>
    simp only [eval] at h
    split_ifs at h
    obtain ⟨p1, -, h⟩ := Option.bind_eq_some_iff.mp h
    obtain ⟨p2, -, h⟩ := Option.bind_eq_some_iff.mp h
    rw [← Option.some.inj h]
    rfl
  | ps op dst src scalar modIdx =>
    simp only [eval] at h
    split_ifs at h
    obtain ⟨p, -, rfl⟩ := Option.map_eq_some_iff.mp h
    rfl
  | transform op dst src modIdx =>
    simp only [eval] at h
    split_ifs at h
    obtain ⟨p, -, rfl⟩ := Option.map_eq_some_iff.mp h
    rfl
  | automorph dst src index =>
    simp only [eval] at h
    split_ifs at h
    obtain ⟨p, -, rfl⟩ := Option.map_eq_some_iff.mp h
    rfl
  | ppMrp op dst src1 src2 base =>
    rcases dst with _ | dst <;> rcases src1 with _ | src1 <;> rcases src2 with _ | src2 <;>
      rcases base with _ | base <;> try exact absurd h (Option.some_ne_none writes).symm
    simp only [eval] at h
    split_ifs at h
    obtain ⟨m1, -, h⟩ := Option.bind_eq_some_iff.mp h
    obtain ⟨m2, -, h⟩ := Option.bind_eq_some_iff.mp h
    rw [← Option.some.inj h, map_fst_mrpWrites]
    exact (List.flatMap_singleton ..).symm
  | psMrp op dst src scalars base =>
    rcases dst with _ | dst <;> rcases src with _ | src <;> rcases scalars with _ | scalars <;>
      rcases base with _ | base <;> try exact absurd h (Option.some_ne_none writes).symm
    exact hunary dst src base _ h
  | transformMrp op dst src base =>
    rcases dst with _ | dst <;> rcases src with _ | src <;> rcases base with _ | base <;>
      try exact absurd h (Option.some_ne_none writes).symm
    exact hunary dst src base _ h
  | indexMrp op dst src index base =>
    rcases dst with _ | dst <;> rcases src with _ | src <;> rcases base with _ | base <;>
      try exact absurd h (Option.some_ne_none writes).symm
    exact hunary dst src base _ h
  | basisConvert dst src params =>
    rcases dst with _ | dst <;> rcases src with _ | src <;> rcases params with _ | p <;>
      try exact absurd h (Option.some_ne_none writes).symm
    simp only [eval] at h
    simp only [dsts, Call.writes, BasisConvertParams.writes]
    rcases hp : p.validate with e | ⟨srcBase, dstBase⟩ <;> rw [hp] at h
    · exact absurd h (Option.some_ne_none writes).symm
    · obtain ⟨m, -, rfl⟩ := Option.map_eq_some_iff.mp h
      rw [map_fst_mrpWrites, List.flatMap_singleton]
  | modDown dst src params =>
    rcases dst with _ | dst <;> rcases src with _ | src <;> rcases params with _ | p <;>
      try exact absurd h (Option.some_ne_none writes).symm
    simp only [eval] at h
    simp only [dsts, Call.writes, ModDownParams.writes]
    rcases hp : p.validate with e | ⟨srcBase, rescaleBase⟩ <;> rw [hp] at h
    · exact absurd h (Option.some_ne_none writes).symm
    · obtain ⟨m, hm, rfl⟩ := Option.map_eq_some_iff.mp h
      obtain ⟨pairs, rfl, hpairs⟩ := evalMrp_pairs hm
      rw [map_fst_mrpWrites, base_rescaled hF hpairs, List.flatMap_singleton]
  | modUp dst src params =>
    rcases dst with _ | dst <;> rcases src with _ | src <;> rcases params with _ | p <;>
      try exact absurd h (Option.some_ne_none writes).symm
    simp only [eval] at h
    simp only [dsts, Call.writes, ModUpParams.writes]
    rcases hp : p.validate with e | ⟨srcBase, digitBases, lens, pBase⟩ <;> rw [hp] at h
    · exact absurd h (Option.some_ne_none writes).symm
    · obtain ⟨m, hm, rfl⟩ := Option.map_eq_some_iff.mp h
      obtain ⟨pairs, rfl, hpairs⟩ := evalMrp_pairs hm
      -- Every digit is lifted to the same base, so the pieces have one length.
      have hlen : ∀ digitBase, (F.base (F.fastBaseConvert (F.mrSubset (F.fromPairs pairs) digitBase)
          (F.base (F.fromPairs pairs) ++ pBase) (fbcVariant config) (fbcCenterShape config))).length =
            (srcBase ++ pBase).length := fun digitBase => by
        rw [base_lifted hF hpairs]
      dsimp only
      rw [map_fst_digitWrites hlen, length_sliceDigits, List.range_eq_range', List.flatMap_map]
  | _ => exact hc.elim

/-! ## Calls that succeed -/

/-- A call that succeeds binds every destination to what the operation gives on what the sources
held before the call, however the arrays overlap. -/
theorem computes_reads_first {c : Call} (hc : c.Computes) {w : World P M} (hw : w.Reachable F)
    (hsuccess : (c.run F env w).1.code = .success) :
    ∃ writes, c.eval F w.config (w.held F) = some writes ∧
      (F.LawfulBase → writes.map Prod.fst = c.dsts) ∧
      ((writes.map Prod.fst).Nodup →
        ∀ write ∈ writes, (c.run F env w).2.binding write.1 = some write.2) := by
  have hrun := Call.run_eval F env hc w hw.stocked
  dsimp only at hrun
  rcases heval : c.eval F w.config (w.held F) with _ | writes <;> rw [heval] at hrun
  · exact absurd hsuccess hrun.1
  · refine ⟨writes, rfl, fun hF => Call.map_fst_eval hF hc heval, fun hdistinct write hmem => ?_⟩
    exact hrun.2.written (Writes.last_of_mem hdistinct hmem)

/-- Two uploads. -/
def twoUploads : World UInt64 (List (UInt64 × UInt64)) :=
  .runAll scalarRing .init (scalarProgram [.setRingDimension 1, .config (.setCiphertextModulus 0 17),
    .malloc true 8, .malloc true 8, uploadFive,
    .memcpy (.hostToDevice ⟨kHbmBase + 8⟩ (some [6, 0, 0, 0, 0, 0, 0, 0])) 8])

/-- Two residues added to themselves into each other's places. -/
def doubleSwapped : Call :=
  .ppMrp .add (some [⟨kHbmBase + 8⟩, ⟨kHbmBase⟩]) (some [⟨kHbmBase⟩, ⟨kHbmBase + 8⟩])
    (some [⟨kHbmBase⟩, ⟨kHbmBase + 8⟩]) (some [17, 19])

/-- Both residues are added to themselves as they were, although each is written to the other's
place. -/
theorem computes_reads_first_example :
    let w := twoUploads
    let after := (doubleSwapped.run scalarRing scalarReplies w).2
    ∃ writes, doubleSwapped.eval scalarRing w.config (w.held scalarRing) = some writes ∧
      (scalarRing.LawfulBase → writes.map Prod.fst = doubleSwapped.dsts) ∧
      ((writes.map Prod.fst).Nodup → ∀ write ∈ writes, after.binding write.1 = some write.2) :=
  computes_reads_first (c := doubleSwapped) trivial ⟨_, rfl⟩ (by decide +kernel)

/-! ## Calls that fail -/

namespace World

/-- What calls can observe of the values is as it was: the bindings of some addresses, every tag,
modulus and group, what is copied to the host, and what a compute call reads. -/
structure SameValues (F : Fhetch P M) (w : World P M) (dsts : List DevAddr) (w' : World P M) :
    Prop where
  binding : ∀ a ∈ dsts, w'.binding a = w.binding a
  marks : w'.epoch.marks = w.epoch.marks
  host : ∀ a dst count, DeviceAllocator.copyToHost dst a count w'.allocator =
    DeviceAllocator.copyToHost dst a count w.allocator
  held : ∀ a, w'.held F a = w.held F a

/-- The copies to the host are as they were exactly when what was looked up is bound or has no
words. -/
theorem RecordsTo.host_iff {w w' : World P M} {looked : List DevAddr}
    {writes : List (DevAddr × P)} (hw : w.Reachable F) (h : RecordsTo F w looked writes w') :
    (∀ a dst count, DeviceAllocator.copyToHost dst a count w'.allocator =
        DeviceAllocator.copyToHost dst a count w.allocator) ↔
      ∀ a ∈ looked, w.binding a ≠ none ∨ w.shadow a = none := by
  refine ⟨fun hsame => h.shadow_eq_iff.mp fun a => ?_, fun hkept a dst count => ?_⟩
  · -- Words leave, if they do, and then the copy to the host fails.
    rcases hs : w.shadow a with _ | values
    · rw [h.shadow, hs, ite_self]
    · have hlive := hw.inv.live_of_shadow hs
      have hhost := hsame a true 0
      by_contra hne
      have hnone : w'.shadow a = none := by
        rw [h.shadow] at hne ⊢
        split_ifs at hne ⊢
        · rfl
        · exact absurd hs hne
      rw [(copyToHost_zero (h.allocSet ▸ hlive)).mpr hnone] at hhost
      rw [(copyToHost_zero hlive).mp hhost.symm] at hs
      exact absurd hs.symm (Option.some_ne_none values)
  · exact copyToHost_congr (h.shadow_eq_iff.mpr hkept a) h.allocSet h.polyBytes dst count

/-- Looking sources up is not observed exactly when those that have words are bound. -/
theorem ReadsTo.sameValues_iff {w w' : World P M} {looked dsts : List DevAddr} (hw : w.Reachable F)
    (h : ReadsTo F w looked w') : w.SameValues F dsts w' ↔
      ∀ a ∈ looked, w.binding a ≠ none ∨ w.shadow a = none := by
  have hhost := (RecordsTo.of_reads h).host_iff hw
  refine ⟨fun hsame => hhost.mp hsame.host, fun hkept =>
    ⟨fun a _ => ?_, h.marks, hhost.mpr hkept, h.held⟩⟩
  rw [h.binding]
  split_ifs with ha
  · rcases hb : w.binding a with _ | poly
    · exact held_wordless hb ((hkept a ha).resolve_left (not_not.mpr hb))
    · exact held_bound hb
  · rfl

end World

/-- A call that fails is not observed exactly when each source that it looks up, those up to the
first that has nothing, is bound already or has no words. -/
theorem failed_computes_restores {c : Call} (hc : c.Computes) {w : World P M} (hw : w.Reachable F)
    (hfails : (c.run F env w).1.code ≠ .success) :
    w.SameValues F c.dsts (c.run F env w).2 ↔
      ∀ a ∈ c.looked F w.config (w.held F), w.binding a ≠ none ∨ w.shadow a = none := by
  have hrun := Call.run_eval F env hc w hw.stocked
  dsimp only at hrun
  rcases heval : c.eval F w.config (w.held F) with _ | writes <;> rw [heval] at hrun
  · exact hrun.2.sameValues_iff hw
  · exact absurd hrun.1 hfails

/-- An address that was set and not yet bound, and one that has nothing. -/
def setAndEmpty : World UInt64 (List (UInt64 × UInt64)) :=
  .runAll scalarRing .init (scalarProgram [.setRingDimension 1, .config (.setCiphertextModulus 0 17),
    .malloc true 8, .malloc true 8, .memset ⟨kHbmBase⟩ 5 8])

/-- The sum of the two, in place. -/
def sumInPlace : Call := .pp .add ⟨kHbmBase⟩ ⟨kHbmBase⟩ ⟨kHbmBase + 8⟩ 0

/-- The sum restores the values if and only if what it looks up is bound or has no words. -/
theorem failed_computes_restores_example :
    let w := setAndEmpty
    w.SameValues scalarRing sumInPlace.dsts (sumInPlace.run scalarRing scalarReplies w).2 ↔
      ∀ a ∈ sumInPlace.looked scalarRing w.config (w.held scalarRing),
        w.binding a ≠ none ∨ w.shadow a = none :=
  failed_computes_restores (c := sumInPlace) trivial ⟨_, rfl⟩ (by decide +kernel)

/-- The sum fails at its second source, and the first cannot be copied to the host any more. -/
theorem failed_computes_restores_counterexample :
    let w := setAndEmpty
    w.Reachable scalarRing ∧ (sumInPlace.run scalarRing scalarReplies w).1.code ≠ .success ∧
      ¬ w.SameValues scalarRing sumInPlace.dsts (sumInPlace.run scalarRing scalarReplies w).2 :=
  ⟨⟨_, rfl⟩, by decide +kernel, fun h =>
    absurd (h.host ⟨kHbmBase⟩ true 8) (by decide +kernel)⟩

end

end Haze
