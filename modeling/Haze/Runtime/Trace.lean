import Haze.Runtime.Carrying
import Haze.Runtime.Parameters

/-!
# What is recorded

The library `recording` notes each operation that makes a polynomial, with what it carries and what
is configured when it is recorded. An operation is well formed when its modulus, its index or its
base is as `haze.h` asks. The runtime checks the index of a modulus and forwards what else it is
given, so that the trace is well formed as long as the callers keep to the contract
(`traces_wellFormed`).
-/

namespace Haze

open World

/-! ## Recorded operations -/

/-- What an operation of the library carries. -/
inductive Operation where
  /-- An operation on one residue. -/
  | modular (q : UInt64)
  /-- A copy: the sum with zero under the copy sentinel. -/
  | copy
  | automorph (index : UInt64)
  | rotAutomorphCoeff (offset : UInt64)
  /-- A multi-residue polynomial over a base, or an operation on one. -/
  | multiResidue (base : List UInt64)
deriving DecidableEq

/-- An operation with the ring dimension and the moduli that were configured. -/
structure RecordedOp where
  operation : Operation
  ringDim : UInt64
  moduli : List UInt64
deriving DecidableEq

/-- Neither zero nor the copy sentinel. -/
def IsModulus (q : UInt64) : Prop := q ≠ 0 ∧ q ≠ kCopyModulus

/-- The indices that are odd and in `[1, 2N - 1]`. -/
def IsAutomorphIndex (n index : UInt64) : Prop :=
  index.toNat % 2 = 1 ∧ index.toNat ≤ 2 * n.toNat - 1

/-- What an operation carries is as it should be. -/
def RecordedOp.WellFormed (r : RecordedOp) : Prop :=
  match r.operation with
  | .modular q => IsModulus q
  | .copy => True
  | .automorph index => IsAutomorphIndex r.ringDim index
  | .rotAutomorphCoeff offset => offset < r.ringDim
  | .multiResidue base => ∀ q ∈ base, IsModulus q ∧ q ∈ r.moduli

/-- An operation that is recorded under a configuration. -/
def Config.note (c : Config) (operation : Operation) : RecordedOp := ⟨operation, c.ringDim, c.moduli⟩

/-- The library that records: a polynomial is the list of the operations that it was made by, and a
multi-residue polynomial has its base besides. -/
def recording (c : Config) : Fhetch (List RecordedOp) (List RecordedOp × List UInt64) where
  fromData _ _ := []
  srAddp p p' q := p ++ p' ++ [c.note (.modular q)]
  srSubp p p' q := p ++ p' ++ [c.note (.modular q)]
  srMulp p p' q := p ++ p' ++ [c.note (.modular q)]
  srAddps p scalar q :=
    p ++ [c.note (if scalar = 0 ∧ q = kCopyModulus then .copy else .modular q)]
  srSubps p _ q := p ++ [c.note (.modular q)]
  srMulps p _ q := p ++ [c.note (.modular q)]
  srNtt p q := p ++ [c.note (.modular q)]
  srIntt p q := p ++ [c.note (.modular q)]
  srAutomorphEval p index := p ++ [c.note (.automorph index)]
  fromPairs pairs :=
    (pairs.flatMap Prod.fst ++ [c.note (.multiResidue (pairs.map Prod.snd))], pairs.map Prod.snd)
  residue m _ := m.1
  base m := m.2
  mrAddp m m' := (m.1 ++ m'.1 ++ [c.note (.multiResidue m.2)], m.2)
  mrSubp m m' := (m.1 ++ m'.1 ++ [c.note (.multiResidue m.2)], m.2)
  mrMulp m m' := (m.1 ++ m'.1 ++ [c.note (.multiResidue m.2)], m.2)
  mrAddps m scalars := (m.1 ++ [c.note (.multiResidue (scalars.map Prod.snd))], m.2)
  mrSubps m scalars := (m.1 ++ [c.note (.multiResidue (scalars.map Prod.snd))], m.2)
  mrMulps m scalars := (m.1 ++ [c.note (.multiResidue (scalars.map Prod.snd))], m.2)
  mrNtt m := (m.1 ++ [c.note (.multiResidue m.2)], m.2)
  mrIntt m := (m.1 ++ [c.note (.multiResidue m.2)], m.2)
  mrAutomorphEval m index := (m.1 ++ [c.note (.multiResidue m.2), c.note (.automorph index)], m.2)
  mrRotAutomorphCoeff m offset :=
    (m.1 ++ [c.note (.multiResidue m.2), c.note (.rotAutomorphCoeff offset)], m.2)
  mrSubset m base := (m.1 ++ [c.note (.multiResidue base)], base)
  fastBaseConvert m base _ _ := (m.1 ++ [c.note (.multiResidue base)], base)
  rescaleFbc m base _ _ :=
    (m.1 ++ [c.note (.multiResidue base)], m.2.filter fun q => q ∉ base)

/-- A call that records under the configuration that it finds. -/
def World.record (w : World (List RecordedOp) (List RecordedOp × List UInt64))
    (i : Invocation (List RecordedOp)) : World (List RecordedOp) (List RecordedOp × List UInt64) :=
  w.after (recording w.config) i

/-- The values whose operations are well formed. -/
def wellFormed (c : Config) : Domain (List RecordedOp) (List RecordedOp × List UInt64) where
  poly ops := ∀ r ∈ ops, r.WellFormed
  mrp base m := m.2 = base ∧ ∀ r ∈ m.1, r.WellFormed
  modulus := IsModulus
  base q := q ∈ c.moduli
  input m := ∀ r ∈ m.1, r.WellFormed

/-! ## The callers' contract -/

/-- The moduli of an array are configured. -/
def Config.Holds (c : Config) (base : List UInt64) : Prop := ∀ q ∈ base, q ∈ c.moduli

/-- What `haze.h` asks of the arguments of a call. It asks for primes, which the copy sentinel
`2^64 - 1` is not, so that the sentinel is no modulus that a call sets. -/
def Call.KeepsContract (c : Config) : Call → Prop
  | .config (.setCiphertextModulus _ modulus) => modulus ≠ kCopyModulus
  | .automorph _ _ index => IsAutomorphIndex c.ringDim index
  | .memcpyMrp (.deviceToDevice _ _) _ (some base) => c.Holds base
  | .ppMrp _ _ _ _ (some base) => c.Holds base
  | .psMrp _ _ _ _ (some base) => c.Holds base
  | .transformMrp _ _ _ (some base) => c.Holds base
  | .indexMrp .automorph _ _ index (some base) => c.Holds base ∧ IsAutomorphIndex c.ringDim index
  | .indexMrp .rotAutomorphCoeff _ _ offset (some base) =>
    c.Holds base ∧ offset < c.ringDim
  | .basisConvert _ _ (some p) => c.Holds (p.srcBase.getD []) ∧ c.Holds (p.dstBase.getD [])
  | .modDown _ _ (some p) => c.Holds (p.srcBase.getD [])
  | .modUp _ _ (some p) => c.Holds (p.srcBase.getD []) ∧ c.Holds (p.digitBases.getD []) ∧
    c.Holds (p.pBase.getD [])
  | _ => True

/-! ## The library stays in the domain -/

section

variable {c : Config}

/-- Only moduli are configured. -/
def Config.Proper (c : Config) : Prop := ∀ q ∈ c.moduli, IsModulus q

/-- A configured modulus is one. -/
theorem Config.Proper.modulus (h : c.Proper) {i : ℤ} (hi : c.modulus i ≠ 0) :
    IsModulus (c.modulus i) := by
  refine h _ ?_
  unfold Config.modulus at hi ⊢
  split_ifs at hi ⊢ with hneg
  · exact absurd rfl hi
  rw [List.getD_eq_getElem?_getD] at hi ⊢
  rcases hq : c.moduli[i.toNat]? with _ | q
  · rw [hq] at hi
    exact absurd rfl hi
  · exact List.mem_of_getElem? hq

/-- An operation over configured moduli is well formed. -/
theorem Config.Proper.multiResidue (h : c.Proper) {base : List UInt64} (hbase : c.Holds base) :
    (c.note (.multiResidue base)).WellFormed :=
  fun q hq => ⟨h q (hbase q hq), hbase q hq⟩

/-- One more operation. -/
theorem wellFormed_note {ops : List RecordedOp} {operation : Operation}
    (hops : ∀ r ∈ ops, r.WellFormed) (h : (c.note operation).WellFormed) :
    ∀ r ∈ ops ++ [c.note operation], r.WellFormed := by
  intro r hr
  rcases List.mem_append.mp hr with hr | hr
  · exact hops r hr
  · rw [List.mem_singleton.mp hr]
    exact h

/-- Well-formed operations on both sides are well formed together. -/
theorem wellFormed_append {ops ops' : List RecordedOp} (h : ∀ r ∈ ops, r.WellFormed)
    (h' : ∀ r ∈ ops', r.WellFormed) : ∀ r ∈ ops ++ ops', r.WellFormed :=
  fun r hr => (List.mem_append.mp hr).elim (h r) (h' r)

/-- An operation on two residues is recorded behind what both were made by. -/
theorem recording_sr (op : PpOp) (p p' : List RecordedOp) (q : UInt64) :
    op.sr (recording c) p p' q = p ++ p' ++ [c.note (.modular q)] := by
  cases op <;> rfl

/-- An operation with a scalar that is not under the sentinel is not a copy. -/
theorem recording_srs (op : PpOp) (p : List RecordedOp) (scalar : UInt64) {q : UInt64}
    (hq : q ≠ kCopyModulus) :
    op.srs (recording c) p scalar q = p ++ [c.note (.modular q)] := by
  cases op with
  | add =>
    have hcopy : ¬ (scalar = 0 ∧ q = kCopyModulus) := fun h => hq h.2
    change p ++ [c.note (if scalar = 0 ∧ q = kCopyModulus then .copy else .modular q)] = _
    rw [if_neg hcopy]
  | sub => rfl
  | mul => rfl

/-- A transform is recorded behind what its operand was made by. -/
theorem recording_transform (op : TransformOp) (p : List RecordedOp) (q : UInt64) :
    op.sr (recording c) p q = p ++ [c.note (.modular q)] := by
  cases op <;> rfl

/-- An operation on two multi-residue polynomials is recorded with the base. -/
theorem recording_mr (op : PpOp) (m m' : List RecordedOp × List UInt64) :
    op.mr (recording c) m m' = (m.1 ++ m'.1 ++ [c.note (.multiResidue m.2)], m.2) := by
  cases op <;> rfl

/-- An operation with scalars is recorded with the base of these. -/
theorem recording_mrs (op : PpOp) (m : List RecordedOp × List UInt64)
    (scalars : List (UInt64 × UInt64)) :
    op.mrs (recording c) m scalars =
      (m.1 ++ [c.note (.multiResidue (scalars.map Prod.snd))], m.2) := by
  cases op <;> rfl

/-- A transform of a multi-residue polynomial is recorded with the base. -/
theorem recording_mrTransform (op : TransformOp) (m : List RecordedOp × List UInt64) :
    op.mr (recording c) m = (m.1 ++ [c.note (.multiResidue m.2)], m.2) := by
  cases op <;> rfl

/-- What the library does whatever the arguments are is well formed. -/
theorem wellFormed_closed (h : c.Proper) : (wellFormed c).Closed (recording c) c where
  fromData _ _ r hr := absurd hr List.not_mem_nil
  configured i hi := h.modulus hi
  base q hq := h q hq
  copy poly hpoly := wellFormed_note hpoly trivial
  fromPairs pairs hpairs := by
    refine ⟨rfl, wellFormed_note (fun r hr => ?_) (h.multiResidue fun q hq => ?_)⟩
    · obtain ⟨pair, hpair, hr⟩ := List.mem_flatMap.mp hr
      exact (hpairs pair hpair).1 r hr
    · obtain ⟨pair, hpair, rfl⟩ := List.mem_map.mp hq
      exact (hpairs pair hpair).2
  residue _ _ hm _ _ := hm.2
  input _ _ _ hm := hm.2

/-- The operations of a call that keeps to the contract are well formed. -/
theorem wellFormed_respects (h : c.Proper) {call : Call} (hcall : call.KeepsContract c) :
    call.Respects (recording c) (wellFormed c) := by
  -- Each operation notes itself with the modulus or the base that it was given.
  unfold Call.Respects
  split
  · exact hcall
  · rename_i op _ _ _ _
    intro p p' q hp hp' hq
    rw [recording_sr]
    exact wellFormed_note (wellFormed_append hp hp') hq
  · rename_i op _ _ scalar _
    intro p q hp hq
    rw [recording_srs op p scalar hq.2]
    exact wellFormed_note hp hq
  · rename_i op _ _ _
    intro p q hp hq
    rw [recording_transform]
    exact wellFormed_note hp hq
  · exact fun p hp => wellFormed_note hp hcall
  · rename_i op _ _ _ base
    refine ⟨hcall, fun m m' hm hm' => ?_⟩
    rw [recording_mr]
    obtain ⟨rfl, hm⟩ := hm
    exact ⟨rfl, wellFormed_note (wellFormed_append hm hm'.2) (h.multiResidue hcall)⟩
  · rename_i op _ _ scalars base
    refine ⟨hcall, fun m hm => ?_⟩
    rw [recording_mrs, buildMrs_moduli]
    obtain ⟨rfl, hm⟩ := hm
    exact ⟨rfl, wellFormed_note hm (h.multiResidue hcall)⟩
  · rename_i op _ _ base
    refine ⟨hcall, fun m hm => ?_⟩
    rw [recording_mrTransform]
    obtain ⟨rfl, hm⟩ := hm
    exact ⟨rfl, wellFormed_note hm (h.multiResidue hcall)⟩
  · rename_i op _ _ index base
    cases op with
    | automorph =>
      refine ⟨hcall.1, fun m hm => ?_⟩
      obtain ⟨rfl, hm⟩ := hm
      refine ⟨rfl, ?_⟩
      -- The automorphism is noted twice, as the operation of several residues and with its index.
      have hindex : (c.note (.automorph index)).WellFormed := hcall.2
      have hops := wellFormed_note (wellFormed_note hm (h.multiResidue hcall.1)) hindex
      rwa [List.append_assoc] at hops
    | rotAutomorphCoeff =>
      refine ⟨hcall.1, fun m hm => ?_⟩
      obtain ⟨rfl, hm⟩ := hm
      refine ⟨rfl, ?_⟩
      have hoffset : (c.note (.rotAutomorphCoeff index)).WellFormed := hcall.2
      have hops := wellFormed_note (wellFormed_note hm (h.multiResidue hcall.1)) hoffset
      rwa [List.append_assoc] at hops
  -- The bases of the three conversions are those of the validated parameters.
  · rename_i p
    intro srcBase dstBase hp
    obtain ⟨hsrc, -, hdst⟩ := basisConvert_bases hp
    obtain ⟨hsrcHolds, hdstHolds⟩ := hcall
    rw [hsrc] at hsrcHolds
    rw [hdst] at hdstHolds
    exact ⟨hsrcHolds, hdstHolds, fun m _ _ hm => ⟨rfl, wellFormed_note hm.2 (h.multiResidue hdstHolds)⟩⟩
  · rename_i p
    intro srcBase rescaleBase hp
    obtain ⟨hsrc, -, hrescale, -⟩ := modDown_bases hp
    have hholds : c.Holds (p.srcBase.getD []) := hcall
    rw [hsrc] at hholds
    refine ⟨hholds, fun m _ _ hm => ?_⟩
    obtain ⟨rfl, hm⟩ := hm
    exact ⟨fun q hq => hholds q (List.mem_of_mem_filter hq), rfl,
      wellFormed_note hm (h.multiResidue fun q hq => hholds q (hrescale q hq))⟩
  · rename_i p
    intro srcBase digitBases lens pBase hp
    obtain ⟨hsrc, -, hdigits, hpBase, -⟩ := modUp_bases hp
    obtain ⟨hsrcHolds, hdigitsHold, hpHolds⟩ := hcall
    rw [hsrc] at hsrcHolds
    rw [hdigits] at hdigitsHold
    rw [hpBase] at hpHolds
    refine ⟨hsrcHolds, fun digitBase hdigit m _ _ hm => ?_⟩
    obtain ⟨rfl, hm⟩ := hm
    -- The base of the lifted digits is the source's, followed by the special moduli.
    have hlifted : c.Holds (m.2 ++ pBase) := fun q hq =>
      (List.mem_append.mp hq).elim (hsrcHolds q) (hpHolds q)
    have hdigitHolds : c.Holds digitBase := fun q hq => hdigitsHold q (mem_sliceDigits hdigit q hq)
    exact ⟨hlifted, rfl, wellFormed_note (wellFormed_note hm (h.multiResidue hdigitHolds))
      (h.multiResidue hlifted)⟩
  · trivial

end

/-! ## A modulus that is not configured -/

/-- The index of the modulus of an operation on one residue. -/
def Call.modIdx : Call → Option ℤ
  | .pp _ _ _ _ modIdx => some modIdx
  | .ps _ _ _ _ modIdx => some modIdx
  | .transform _ _ _ modIdx => some modIdx
  | _ => none

section

variable {P M : Type} {F : Fhetch P M} {env : CompilerReplies P} {w : World P M}

/-- Nothing is bound, and the compiler is at most called to open a session. -/
def World.RecordsNothing (w v : World P M) : Prop :=
  v.epoch.polyMap = w.epoch.polyMap ∧ ∃ cs, v.compiler = w.compiler ++ cs ∧ ∀ c ∈ cs, c.Opens

/-- Doing nothing records nothing. -/
theorem World.RecordsNothing.refl (w : World P M) : w.RecordsNothing w :=
  ⟨rfl, [], (List.append_nil _).symm, fun _ hc => absurd hc List.not_mem_nil⟩

/-- Without the modulus an operation ends when its session is open. -/
theorem missingModulus_run (F : Fhetch P M) {modIdx : ℤ} (hq : w.config.modulus modIdx = 0)
    (x : UInt64 → Method P M Unit) :
    (epochSession env >>= fun _ => resolveModulus modIdx >>= x) w =
      (.error .invalidArgument, w.act F (.session env)) := by
  have hconfig : (w.act F (.session env)).config = w.config := by
    obtain ⟨_, _, _, -, he⟩ := session_frame (F := F) env w
    rw [he]
  have hresolve : (resolveModulus modIdx : Method P M UInt64) (w.act F (.session env)) =
      (.error .invalidArgument, w.act F (.session env)) := by
    rw [resolveModulus, Expected.get_bind_run, hconfig, if_pos hq]
    rfl
  rw [epochSession, Expected.modify_bind_run]
  exact Expected.bind_run_error hresolve

/-- An entry with such an index fails, whether it rejects its arguments before or not. -/
theorem missingModulus_shim (F : Fhetch P M) {modIdx : ℤ} (hq : w.config.modulus modIdx = 0)
    (x : UInt64 → Method P M Unit) (rejected : Bool) :
    let r := Shim.guarded rejected (Shim.setInternalResult
      (epochSession env >>= fun _ => resolveModulus modIdx >>= x)) w
    r.1.code ≠ .success ∧ w.RecordsNothing r.2 := by
  have hinvalid : HazeError.invalidValue ≠ .success := by decide
  cases rejected with
  | true => exact ⟨hinvalid, .refl w⟩
  | false =>
    have hrun : Shim.setInternalResult
        (epochSession env >>= fun _ => resolveModulus modIdx >>= x) w =
          (.setError (toPublicError .invalidArgument), w.act F (.session env)) := by
      rw [Shim.setInternalResult, Shim.replyWith, missingModulus_run F hq]
    obtain ⟨recording, initialized, cs, hcs, he⟩ := session_frame (F := F) env w
    rw [he] at hrun
    change (Shim.setInternalResult _ w).1.code ≠ .success ∧ w.RecordsNothing
      (Shim.setInternalResult _ w).2
    rw [hrun]
    exact ⟨hinvalid, rfl, cs, rfl, hcs⟩

/-- In every state a call that names a modulus that is not configured fails and records nothing. -/
theorem missingModulus_rejected {call : Call} {modIdx : ℤ} (hcall : call.modIdx = some modIdx)
    (hq : w.config.modulus modIdx = 0) :
    (call.run F env w).1.code ≠ .success ∧ w.RecordsNothing (call.run F env w).2 := by
  cases call with
  | pp op dst src1 src2 i =>
    cases hcall
    cases op <;> exact missingModulus_shim F hq _ _
  | ps op dst src scalar i =>
    cases hcall
    cases op <;> exact missingModulus_shim F hq _ _
  | transform op dst src i =>
    cases hcall
    cases op <;> exact missingModulus_shim F hq _ _
  | _ => cases hcall

end

/-! ## Runs -/

/-- What a call records is well formed, and so is what it applies to values that are. -/
structure RecordsWell (w : World (List RecordedOp) (List RecordedOp × List UInt64))
    (i : Invocation (List RecordedOp)) : Prop where
  trace : (w.record i).Carries (wellFormed w.config)
  applied : i.call.Respects (recording w.config) (wellFormed w.config)

/-- In every state, with every library, a call that names a modulus that is not configured fails and
records nothing. -/
def RefusesMissingModulus : Prop :=
  ∀ (P M : Type) (F : Fhetch P M) (w : World P M) (i : Invocation P) (modIdx : ℤ),
    i.call.modIdx = some modIdx → w.config.modulus modIdx = 0 →
      (i.run F w).1.code ≠ .success ∧ w.RecordsNothing (i.run F w).2

/-- The moduli stay proper where the sentinel is not set. -/
theorem proper_record {w : World (List RecordedOp) (List RecordedOp × List UInt64)}
    {i : Invocation (List RecordedOp)} (h : w.config.Proper)
    (hcall : i.call.KeepsContract w.config) : (w.record i).config.Proper := by
  intro q hq
  rcases mem_moduli_after hq with hq | ⟨hzero, index, hset⟩
  · exact h q hq
  · rw [hset] at hcall
    exact ⟨hzero, hcall⟩

/-- In a run whose calls keep to the contract of `haze.h` every trace is well formed. -/
theorem records_wellFormed (is : List (Invocation (List RecordedOp)))
    (h : Expected.Along World.record (fun w i => i.call.KeepsContract w.config) .init is) :
    Expected.Along World.record RecordsWell .init is := by
  have htrace : ∀ (w : World (List RecordedOp) (List RecordedOp × List UInt64)) i,
      i.call.KeepsContract w.config →
      w.Inv ∧ w.config.Proper ∧ w.Carries (wellFormed w.config) →
        (w.record i).Carries (wellFormed w.config) := fun w i hcall hw =>
    hw.2.2.after hw.1.epoch (wellFormed_closed hw.2.1) (wellFormed_respects hw.2.1 hcall)
  refine h.mono_of_invariant
    (I := fun w => w.Inv ∧ w.config.Proper ∧ w.Carries (wellFormed w.config))
    (fun w i hcall hw => ?_) (fun w i hw hcall => ?_) ⟨inv_init, ?_, .of_empty rfl rfl⟩
  · have hcarries := htrace w i hcall hw
    exact ⟨hw.1.after i, proper_record hw.2.1 hcall, hcarries.bound, hcarries.recorded,
      hcarries.groups, hcarries.calls⟩
  · exact ⟨htrace w i hcall hw, wellFormed_respects hw.2.1 hcall⟩
  · exact fun q hq => absurd hq List.not_mem_nil

/-- In a run whose calls keep to the contract of `haze.h` every trace is well formed, and in every
state the index of a modulus is checked. -/
theorem traces_wellFormed (is : List (Invocation (List RecordedOp)))
    (h : Expected.Along World.record (fun w i => i.call.KeepsContract w.config) .init is) :
    Expected.Along World.record RecordsWell .init is ∧ RefusesMissingModulus :=
  ⟨records_wellFormed is h, fun _ _ _ _ _ _ hidx hq => missingModulus_rejected hidx hq⟩

/-- A compiler whose every step succeeds. -/
def recordingReplies : CompilerReplies (List RecordedOp) where
  initReturns := true
  stopSucceeds := true
  hookFails := false
  replaySucceeds := true
  result outputs name := (outputs.find? (·.1 = name)).map (·.2)
  savedValues _ _ := some [0]
  outputOrder := .inOrder
  groupOrder := .inOrder

/-- One word is uploaded at dimension one, with one modulus configured. -/
def uploadOne : List (Invocation (List RecordedOp)) :=
  [Call.setRingDimension 1, .config (.setCiphertextModulus 0 17), .malloc true 8,
    .memcpy (.hostToDevice ⟨kHbmBase⟩ (some [5, 0, 0, 0, 0, 0, 0, 0])) 8].map (⟨recordingReplies, ·⟩)

/-- The sum over the base of one modulus. -/
def addOver (q : UInt64) : Invocation (List RecordedOp) :=
  ⟨recordingReplies, .ppMrp .add (some [⟨kHbmBase⟩]) (some [⟨kHbmBase⟩]) (some [⟨kHbmBase⟩]) (some [q])⟩

/-- The automorphism with an index. -/
def automorphBy (index : UInt64) : Invocation (List RecordedOp) :=
  ⟨recordingReplies, .automorph ⟨kHbmBase⟩ ⟨kHbmBase⟩ index⟩

/-- A run that sums over the configured base and rotates by an odd index. -/
theorem traces_wellFormed_example :
    Expected.Along World.record RecordsWell .init (uploadOne ++ [addOver 17, automorphBy 1]) ∧
      RefusesMissingModulus := by
  refine traces_wellFormed _ ⟨trivial, ?_, trivial, trivial, ?_, ?_, trivial⟩
  · change (17 : UInt64) ≠ kCopyModulus
    decide
  · intro q hq
    rw [List.mem_singleton.mp hq]
    decide +kernel
  · exact ⟨by decide, by decide +kernel⟩

/-- An automorphism with an even index and a sum over a base that is not configured are recorded. -/
theorem traces_wellFormed_counterexample :
    let w := uploadOne.foldl World.record .init
    let even := automorphBy 2
    let zero := addOver 0
    (even.run (recording w.config) w).1.code = .success ∧
      ¬ (w.record even).Carries (wellFormed w.config) ∧
      (zero.run (recording w.config) w).1.code = .success ∧
      ¬ (w.record zero).Carries (wellFormed w.config) := by
  refine ⟨by decide +kernel, fun h => ?_, by decide +kernel, fun h => ?_⟩
  · have hops := h.bound ⟨kHbmBase⟩ [⟨.automorph 2, 1, [17]⟩] (by decide +kernel) _
      (List.mem_singleton_self _)
    exact absurd hops.1 (by decide)
  · have hzero := h.recorded ⟨kHbmBase⟩ 0 (by decide +kernel)
    exact absurd rfl hzero.1

end Haze
