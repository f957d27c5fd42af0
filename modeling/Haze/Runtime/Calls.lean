import Haze.Runtime.Methods

/-!
# What the public calls perform

The addresses that a call reads and writes, and the class of the actions that it performs. Where the
destinations of a base conversion follow the base of its result, they are known from the parameters
by the contract of the library (`Fhetch.LawfulBase`).
-/

namespace Haze

variable {P M : Type}

/-- The bases of the library's results. -/
structure Fhetch.LawfulBase (F : Fhetch P M) : Prop where
  base_fromPairs : ∀ pairs, F.base (F.fromPairs pairs) = pairs.map Prod.snd
  base_fastBaseConvert : ∀ m base variant shape,
    F.base (F.fastBaseConvert m base variant shape) = base
  base_rescaleFbc : ∀ m base variant shape,
    F.base (F.rescaleFbc m base variant shape) = (F.base m).filter (· ∉ base)

/-! ## The addresses of a call -/

open World (takePtrs)

/-- The residues of an array, where it and the base are given. -/
def residues (ptrs : Option (List DevAddr)) (base : Option (List UInt64)) : List DevAddr :=
  match ptrs, base with
  | some ptrs, some base => takePtrs base.length ptrs
  | _, _ => []

/-- The write of the residues of an array: its addresses and the base. -/
def residueWrites (ptrs : Option (List DevAddr)) (base : Option (List UInt64)) :
    List (List DevAddr × List UInt64) :=
  match ptrs, base with
  | some ptrs, some base => [(takePtrs base.length ptrs, base)]
  | _, _ => []

/-- The pointers of a destination list are among its writes. -/
theorem mem_residueWrites {ptrs : Option (List DevAddr)} {base : Option (List UInt64)}
    {d : List DevAddr} {b : List UInt64} {a : DevAddr} (hd : ptrs = some d) (hb : base = some b)
    (ha : a ∈ takePtrs b.length d) : a ∈ (residueWrites ptrs base).flatMap Prod.fst := by
  rw [hd, hb]
  exact List.mem_flatMap.mpr ⟨_, List.mem_cons_self .., ha⟩

/-- The write of a basis conversion. -/
def BasisConvertParams.writes (p : BasisConvertParams) (dst : List DevAddr) :
    List (List DevAddr × List UInt64) :=
  match p.validate with
  | .ok (_, dstBase) => [(takePtrs dstBase.length dst, dstBase)]
  | .error _ => []

/-- The write of a rescaling, one residue for each modulus that is kept. -/
def ModDownParams.writes (p : ModDownParams) (dst : List DevAddr) :
    List (List DevAddr × List UInt64) :=
  match p.validate with
  | .ok (srcBase, rescaleBase) =>
    let base := srcBase.filter (· ∉ rescaleBase)
    [(takePtrs base.length dst, base)]
  | .error _ => []

/-- The writes of a digit decomposition, digit by digit. -/
def ModUpParams.writes (p : ModUpParams) (dst : List DevAddr) :
    List (List DevAddr × List UInt64) :=
  match p.validate with
  | .ok (srcBase, _, lens, pBase) =>
    let base := srcBase ++ pBase
    (List.range lens.length).map fun d => (takePtrs base.length (dst.drop (d * base.length)), base)
  | .error _ => []

namespace Call

/-- The multi-residue writes of a compute call or a device-to-device copy, in order: the addresses
of each and their moduli. -/
def writes : Call → List (List DevAddr × List UInt64)
  | .memcpyMrp (.deviceToDevice dst _) _ base => residueWrites dst base
  | .ppMrp _ dst _ _ base => residueWrites dst base
  | .psMrp _ dst _ _ base => residueWrites dst base
  | .transformMrp _ dst _ base => residueWrites dst base
  | .indexMrp _ dst _ _ base => residueWrites dst base
  | .basisConvert (some dst) _ (some params) => params.writes dst
  | .modDown (some dst) _ (some params) => params.writes dst
  | .modUp (some dst) _ (some params) => params.writes dst
  | _ => []

/-- The addresses that a compute call or a device-to-device copy binds, in order. -/
def dsts : Call → List DevAddr
  | .memcpy (.deviceToDevice dst _) _ => [dst]
  | .pp _ dst _ _ _ => [dst]
  | .ps _ dst _ _ _ => [dst]
  | .transform _ dst _ _ => [dst]
  | .automorph dst _ _ => [dst]
  | c => c.writes.flatMap Prod.fst

/-- The addresses that a compute call or a device-to-device copy resolves, in order. -/
def srcs : Call → List DevAddr
  | .memcpy (.deviceToDevice _ src) _ => [src]
  | .memcpyMrp (.deviceToDevice _ src) _ base => residues src base
  | .pp _ _ src1 src2 _ => [src1, src2]
  | .ps _ _ src _ _ => [src]
  | .transform _ _ src _ => [src]
  | .automorph _ src _ => [src]
  | .ppMrp _ _ src1 src2 base => residues src1 base ++ residues src2 base
  | .psMrp _ _ src _ base => residues src base
  | .transformMrp _ _ src base => residues src base
  | .indexMrp _ _ src _ base => residues src base
  | .basisConvert _ src (some params) => residues src params.srcBase
  | .modDown _ src (some params) => residues src params.srcBase
  | .modUp _ src (some params) => residues src params.srcBase
  | _ => []

/-- The addresses that a call uploads to. -/
def uploads : Call → List DevAddr
  | .memcpy (.hostToDevice dst _) _ => [dst]
  | .memcpyMrp (.hostToDevice dst _) _ base => residues dst base
  | _ => []

/-- The addresses that a call frees. -/
def frees : Call → List DevAddr
  | .free ptr => [ptr]
  | .freeMrp (some ptrs) count => takePtrs count.toNat ptrs
  | _ => []

/-- The class of the actions that a call performs, from a state whose tagged addresses are
`pending`. -/
def Acts (F : Fhetch P M) (pending : DevAddr → Prop) (c : Call) (x : Action P M) : Prop :=
  match c with
  | .malloc _ _ => x.Allocates
  | .mallocMrp _ _ _ => x.Allocates
  | .free _ => x.Frees (· ∈ c.frees)
  | .freeMrp _ _ => x.Frees (· ∈ c.frees)
  | .memcpy (.hostToDevice _ _) _ => x.InSession (Action.Uploads (· ∈ c.uploads))
  | .memcpyMrp (.hostToDevice _ _) _ _ => x.InSession (Action.Uploads (· ∈ c.uploads))
  | .memcpy (.deviceToHost _ _) _ => False
  | .memcpyMrp (.deviceToHost _ _) _ _ => False
  | .memcpy .unknownKind _ => False
  | .memcpyMrp .unknownKind _ _ => False
  | .memset devPtr _ _ => x.Clears (· = devPtr)
  | .tagOutput ptr => x = .epoch (.tagOutput ptr)
  | .flush => x.Finalizes pending
  | .writeProgram => x.Finalizes pending
  | .deviceReset => x = .reset
  | .setRingDimension n => x = .ringDimension n
  | .config _ => ∃ c, x = .config c
  | _ => x.InSession (Action.Body fun a => F.LawfulBase → a ∈ c.dsts)

end Call

/-- The effect of a method is not changed by the translation of its result. -/
theorem Shim.replyWith_state {α : Type} (onOk : α → Reply) (x : Method P M α) (w : World P M) :
    (Shim.replyWith onOk x w).2 = (x w).2 := by
  unfold Shim.replyWith
  rcases x w with ⟨e | a, w'⟩ <;> rfl

/-- A method succeeds where its translated result does. -/
theorem Shim.replyWith_success {α : Type} {onOk : α → Reply} {x : Method P M α} {w : World P M}
    (h : (Shim.replyWith onOk x w).1.code = .success) : ∃ a, (x w).1 = .ok a := by
  unfold Shim.replyWith at h
  rcases hx : x w with ⟨e | a, w'⟩
  · rw [hx] at h
    exact absurd h (toPublicError_ne_success e)
  · exact ⟨a, rfl⟩

namespace World

/-- One state is reached from another by allowed actions of a class. -/
def Steps (F : Fhetch P M) (C : Action P M → Prop) (w w' : World P M) : Prop :=
  ∃ xs, Expected.Along (act F) (In C) w xs ∧ w' = xs.foldl (act F) w

section

variable {F : Fhetch P M} {C : Action P M → Prop} {w w' : World P M}

/-- No step leads from a state to itself. -/
theorem Steps.refl (w : World P M) : Steps F C w w := ⟨[], trivial, rfl⟩

/-- What every action of the class keeps, a call keeps. -/
theorem Steps.preserves (h : Steps F C w w') {I : World P M → Prop}
    (hI : ∀ w x, w.In C x → I w → I (w.act F x)) (hw : I w) : I w' := by
  obtain ⟨xs, hxs, rfl⟩ := h
  exact hxs.invariant hI hw

/-- An action that is allowed is one step. -/
theorem Steps.action (x : Action P M) (hx : w.In C x) : Steps F C w (w.act F x) :=
  ⟨[x], ⟨hx, trivial⟩, rfl⟩

/-- What a method performs are the steps of the entry. -/
theorem Steps.replyWith {α : Type} {x : Method P M α}
    (h : Expected.PerformsAt (act F) (In C) x w) (onOk : α → Reply) :
    Steps F C w (Shim.replyWith onOk x w).2 := by
  obtain ⟨xs, hxs, he⟩ := h
  exact ⟨xs, hxs, he ▸ Shim.replyWith_state onOk x w⟩

/-- A call whose arguments are rejected performs nothing. -/
theorem Steps.guarded {shim : Shim P M} (h : Steps F C w (shim w).2) (rejected : Bool) :
    Steps F C w (Shim.guarded rejected shim w).2 := by
  unfold Shim.guarded
  split_ifs
  · exact .refl w
  · exact h

/-- Setting the ring dimension is one action, or is rejected. -/
theorem setRingDimension_cases (n : UInt64) (w : World P M) :
    (w.Allowed (.ringDimension n) ∧ setRingDimension n w = (.ok (), w.act F (.ringDimension n))) ∨
      (¬ w.Allowed (.ringDimension n) ∧ (setRingDimension n w).2 = w) := by
  unfold setRingDimension
  -- A dimension that is supported, and the same one where there is one already.
  by_cases hn : Config.isSupportedRingDim n = true
  · by_cases hc : w.config.configured = true → w.config.ringDim = n
    · refine .inl ⟨⟨hn, hc⟩, ?_⟩
      have hkeep : (w.config.configured && w.config.ringDim != n) = false := by
        rcases hconf : w.config.configured
        · rfl
        · rw [hc hconf]
          simp
      simp only [hn, hkeep]
      rfl
    · refine .inr ⟨fun h => hc h.2, ?_⟩
      rw [Classical.not_imp] at hc
      have hchange : (w.config.configured && w.config.ringDim != n) = true := by
        rw [hc.1, Bool.true_and, bne_iff_ne]
        exact hc.2
      simp only [hn, hchange]
      rfl
  · refine .inr ⟨fun h => hn h.1, ?_⟩
    rw [Bool.not_eq_true] at hn
    simp only [hn]
    rfl

/-- Setting the dimension is one action. -/
theorem setRingDimension_performs (n : UInt64) (w : World P M) :
    Expected.PerformsAt (act F) (In (· = .ringDimension n)) (setRingDimension n) w := by
  rcases setRingDimension_cases (F := F) n w with ⟨hallowed, he⟩ | ⟨-, he⟩
  · exact .of_action (.ringDimension n) ⟨rfl, hallowed⟩ (congrArg Prod.snd he)
  · exact .of_unchanged he

/-- A call that sets the configuration keeps the ring dimension. -/
theorem config_steps (env : CompilerReplies P) (call : ConfigCall) (w : World P M) :
    Steps F (fun x => ∃ c, x = .config c) w (Call.run F env (.config call) w).2 := by
  -- No setter but the ring dimension's own changes the ring dimension.
  have hset : ∀ x : Config.Method Unit, (x w.config).2.ringDim = w.config.ringDim →
      Steps F (fun x => ∃ c, x = .config c) w (Shim.setInternalResult (onConfig x) w).2 :=
    fun x hx => .replyWith (.of_action (.config (x w.config).2) ⟨⟨_, rfl⟩, hx⟩ rfl) _
  cases call with
  | setCiphertextModulus index modulus =>
    refine hset _ ?_
    unfold Config.setModulus
    split_ifs <;> rfl
  | setTwiddleFactors index generator =>
    refine hset _ ?_
    unfold Config.setTwiddleGenerator
    split_ifs <;> rfl
  | configureDevice =>
    refine hset _ ?_
    unfold Config.configureDevice
    split_ifs <;> rfl
  | setProgramInfo name version description =>
    refine hset _ ?_
    rcases name with _ | name <;> rcases version with _ | version <;>
      rcases description with _ | description <;> rfl
  | setTarget target =>
    refine hset _ ?_
    rcases target with _ | target <;> rfl
  | setProgramDirectory dir =>
    refine hset _ ?_
    rcases dir with _ | dir <;> rfl
  | _ => exact hset _ rfl

/-- An entry with arrays takes the steps of its method when all of them are there, and none
otherwise. -/
theorem Steps.withArrays {x : List DevAddr → List DevAddr → List UInt64 → Method P M Unit}
    (dst src : Option (List DevAddr)) (base : Option (List UInt64))
    (h : ∀ d s b, dst = some d → src = some s → base = some b →
      Expected.PerformsAt (act F) (In C) (x d s b) w) :
    Steps F C w (Haze.withArrays dst src base x w).2 := by
  rcases dst with _ | d
  · exact .refl w
  rcases src with _ | s
  · exact .refl w
  rcases base with _ | b
  · exact .refl w
  · exact .guarded (.replyWith (h d s b rfl rfl rfl) _) _

end

end World

open World

section

variable {F : Fhetch P M}

/-- The base of a rescaled polynomial. -/
theorem base_rescaled (hF : F.LawfulBase) {pairs : List (P × UInt64)} {srcBase : List UInt64}
    (hpairs : pairs.map Prod.snd = srcBase) (rescaleBase : List UInt64) (variant : FbcVariant)
    (shape : FbcCenterShape) :
    F.base (F.rescaleFbc (F.fromPairs pairs) rescaleBase variant shape) =
      srcBase.filter (· ∉ rescaleBase) := by
  rw [hF.base_rescaleFbc, hF.base_fromPairs, hpairs]

/-- The base of a lifted digit. -/
theorem base_lifted (hF : F.LawfulBase) {pairs : List (P × UInt64)} {srcBase : List UInt64}
    (hpairs : pairs.map Prod.snd = srcBase) (m : M) (pBase : List UInt64) (variant : FbcVariant)
    (shape : FbcCenterShape) :
    F.base (F.fastBaseConvert m (F.base (F.fromPairs pairs) ++ pBase) variant shape) =
      srcBase ++ pBase := by
  rw [hF.base_fastBaseConvert, hF.base_fromPairs, hpairs]

/-- Dropping a list of addresses drops those that are not null. -/
theorem invalidateAll_run (addrs : List DevAddr) (w : World P M) :
    Expected.forEach invalidateNonNull addrs w = (.ok (), { w with
      epoch := (addrs.filter (· ≠ .null)).foldl (fun s a => s.invalidate a) w.epoch }) := by
  induction addrs generalizing w with
  | nil => rfl
  | cons a addrs ih =>
    have hone : invalidateNonNull a w = (.ok (), { w with
        epoch := if a = .null then w.epoch else w.epoch.invalidate a }) := by
      unfold invalidateNonNull
      by_cases ha : a = .null
      · rw [if_neg (not_not.mpr ha), if_pos ha]
        rfl
      · rw [if_pos ha, if_neg ha]
        rfl
    rw [Expected.forEach_cons, Expected.bind_run_ok hone, ih]
    by_cases ha : a = .null
    · rw [if_pos ha, List.filter_cons_of_neg (by simp [ha])]
    · rw [if_neg ha, List.filter_cons_of_pos (by simp [ha])]
      rfl

/-- There is a slice for each length. -/
theorem length_sliceDigits (digitBases lens : List UInt64) :
    (sliceDigits digitBases lens).length = lens.length := by
  induction lens generalizing digitBases with
  | nil => rfl
  | cons len lens ih => rw [sliceDigits, List.length_cons, ih, List.length_cons]

/-- What a call performs. -/
theorem Call.performs (env : CompilerReplies P) (c : Call) (w : World P M) :
    Steps F (c.Acts F (· ∈ w.epoch.pendingOutputs)) w (c.run F env w).2 := by
  -- Every call is its checks around methods whose actions are known.
  cases c with
  | malloc ptr size =>
    exact .guarded (.replyWith (allocate_allocates (fun s =>
      DeviceAllocator.allocate_performs (.inl rfl) fun h => h.elim) w) _) _
  | free ptr =>
    refine .replyWith (Expected.Performs.bind (invalidateNonNull_frees ?_)
      (fun _ => freeAll_frees fun s => DeviceAllocator.free_performs ptr ⟨ptr, rfl, ?_⟩ s) w) _
    · exact List.mem_cons_self ..
    · exact List.mem_cons_self ..
  | mallocMrp ptrs count size =>
    exact .guarded (.replyWith (allocate_allocates (fun s =>
      DeviceAllocator.allocateMany_performs (.inl rfl) (fun a => .inr ⟨a, rfl⟩)
        fun h => h.elim) w) _) _
  | freeMrp ptrs count =>
    rcases ptrs with _ | ptrs
    · exact .refl w
    · refine .guarded (.replyWith (Expected.Performs.bind
        (.forEach fun a ha => invalidateNonNull_frees ha)
        (fun _ => freeAll_frees fun s =>
          DeviceAllocator.freeMany_performs _ (fun a ha => ⟨a, rfl, ha⟩) s) w) _) _
  | memcpy transfer count =>
    cases transfer with
    | hostToDevice dst src =>
      have hd : dst ∈ (Call.memcpy (.hostToDevice dst src) count).uploads := List.mem_cons_self ..
      exact .guarded (.replyWith ((uploads_inSession (copyH2d_uploads src count hd w)).bind
        fun _ w' _ => (tagH2dInput_opens env hd w').performs) _) _
    | deviceToHost dst src => exact .guarded (.replyWith (onAllocator_query _ w) _) _
    | deviceToDevice dst src =>
      exact .guarded (.replyWith ((copyDeviceToDevice_opens env src
        (fun _ => List.mem_cons_self ..) w).mono fun _ => Action.Stores.body).performs _) _
    | unknownKind => exact .refl w
  | memcpyMrp transfer count base =>
    cases transfer with
    | hostToDevice dst src =>
      rcases dst with _ | dst
      · exact .refl w
      rcases src with _ | src
      · exact .refl w
      rcases base with _ | base
      · exact .refl w
      · exact .guarded (.replyWith (copyH2dMrp_uploads env dst src count base.length
          (fun a ha => ha) w) _) _
    | deviceToHost dst src =>
      rcases dst with _ | dst
      · exact .refl w
      rcases src with _ | src
      · exact .refl w
      rcases base with _ | base
      · exact .refl w
      · exact .guarded (.replyWith
          -- A copy to the host only reads.
          (.of_unchanged (Expected.mapEach_unchanged (fun _ _ => rfl) w)) _) _
    | deviceToDevice dst src =>
      rcases dst with _ | dst
      · exact .refl w
      rcases src with _ | src
      · exact .refl w
      rcases base with _ | base
      · exact .refl w
      · exact .guarded (.replyWith (copyDeviceToDeviceMrp_opens env dst src base
          (fun _ ha _ => mem_residueWrites rfl rfl ha) w).performs _) _
    | unknownKind => exact .refl w
  | memset devPtr value count =>
    refine .guarded (.replyWith (memset_clears value count ?_ w) _) _
    exact rfl
  | pp op dst src1 src2 modIdx =>
    cases op <;> exact .guarded (.replyWith ((binaryPpOp_opens env _ src1 src2 modIdx
      (fun _ => List.mem_cons_self ..) w).mono fun _ => Action.Stores.body).performs _) _
  | ps op dst src scalar modIdx =>
    cases op <;> exact .guarded (.replyWith ((unaryPqOp_opens env _ src modIdx
      (fun _ => List.mem_cons_self ..) w).mono fun _ => Action.Stores.body).performs _) _
  | transform op dst src modIdx =>
    cases op <;> exact .guarded (.replyWith ((unaryPqOp_opens env _ src modIdx
      (fun _ => List.mem_cons_self ..) w).mono fun _ => Action.Stores.body).performs _) _
  | automorph dst src index =>
    exact .guarded (.replyWith ((unaryPiOp_opens env _ src index
      (fun _ => List.mem_cons_self ..) w).mono fun _ => Action.Stores.body).performs _) _
  | ppMrp op dst src1 src2 base =>
    cases op <;>
    · rcases src2 with _ | src2
      · exact .refl w
      · refine .withArrays dst src1 base fun d s b hd hs hb => ?_
        exact (binaryPpOpMrp_opens env _ d s src2 b
          (fun _ ha _ => mem_residueWrites hd hb ha) w).performs
  | psMrp op dst src scalars base =>
    cases op <;>
    · rcases scalars with _ | scalars
      · exact .refl w
      · refine .withArrays dst src base fun d s b hd hs hb => ?_
        exact (unaryPOpMrp_opens env _ d s b (fun _ ha _ => mem_residueWrites hd hb ha) w).performs
  | transformMrp op dst src base =>
    cases op <;>
    · refine .withArrays dst src base fun d s b hd hs hb => ?_
      exact (unaryPOpMrp_opens env _ d s b (fun _ ha _ => mem_residueWrites hd hb ha) w).performs
  | indexMrp op dst src index base =>
    cases op <;>
    · refine .withArrays dst src base fun d s b hd hs hb => ?_
      exact (unaryPOpMrp_opens env _ d s b (fun _ ha _ => mem_residueWrites hd hb ha) w).performs
  | basisConvert dst src params =>
    rcases dst with _ | dst
    · exact .refl w
    rcases src with _ | src
    · exact .refl w
    rcases params with _ | p
    · exact .refl w
    refine .replyWith ?_ _
    -- The bases are validated before anything is looked up.
    rcases hp : p.validate with e | ⟨srcBase, dstBase⟩
    · exact .query_bind fun _ h => nomatch hp.symm.trans h
    · exact (basisConvert_opens env dst src hp (fun a ha _ => by
        simpa [dsts, writes, BasisConvertParams.writes, hp] using ha) w).performs
  | modDown dst src params =>
    rcases dst with _ | dst
    · exact .refl w
    rcases src with _ | src
    · exact .refl w
    rcases params with _ | p
    · exact .refl w
    refine .replyWith ?_ _
    rcases hp : p.validate with e | ⟨srcBase, rescaleBase⟩
    · exact .query_bind fun _ h => nomatch hp.symm.trans h
    · refine (modDown_opens env dst src hp
        (fun pairs variant shape hpairs a ha hF => ?_) w).performs
      rw [base_rescaled hF hpairs] at ha
      simpa [dsts, writes, ModDownParams.writes, hp] using ha
  | modUp dst src params =>
    rcases dst with _ | dst
    · exact .refl w
    rcases src with _ | src
    · exact .refl w
    rcases params with _ | p
    · exact .refl w
    refine .replyWith ?_ _
    rcases hp : p.validate with e | ⟨srcBase, digitBases, lens, pBase⟩
    · exact .query_bind fun _ h => nomatch hp.symm.trans h
    -- Each digit writes the residues of its own destination.
    · refine (modUp_opens env dst src hp
        (fun pairs variant shape hpairs i base hi a ha hF => ?_) w).performs
      have hlt : i < lens.length := by
        rw [← length_sliceDigits digitBases lens]
        exact (List.getElem?_eq_some_iff.mp hi).1
      rw [base_lifted hF hpairs] at ha
      simp only [dsts, writes, ModUpParams.writes, hp, List.mem_flatMap, List.mem_map,
        List.mem_range]
      exact ⟨_, ⟨i, hlt, rfl⟩, ha⟩
  | tagOutput ptr =>
    refine .guarded (.replyWith (onEpoch_performs (.tagOutput ptr) rfl ?_ trivial) _) _
    exact rfl
  | flush => exact .replyWith (flush_finalizes env w) _
  | writeProgram => exact .replyWith (finalize_finalizes env false w) _
  | deviceReset => exact .action .reset ⟨rfl, trivial⟩
  | setRingDimension n => exact .replyWith (setRingDimension_performs n w) _
  | config call => exact config_steps env call w

end

end Haze
