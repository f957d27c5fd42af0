import Haze.Runtime.Copies

/-!
# The values of polynomials

Recording an operation builds a polynomial that the replay evaluates later, and an eager interpreter
would compute its value at once. `Semantics` relates the two libraries: the one whose polynomials
are recorded, and the one that computes on values. Evaluating a call on polynomials and taking
values is evaluating it on values (`Semantics.eval_map`).
-/

namespace Haze

variable {P M V N : Type}

open World (takePtrs buildMrs fbcVariant fbcCenterShape)

/-- The values of the polynomials of `F`, on which the operations of `G` compute. At the ring
dimension `n` a value has a word for each component. -/
structure Semantics (F : Fhetch P M) (G : Fhetch V N) (n : UInt64) where
  value : P → V
  values : M → N
  words : V → List UInt64
  length_words : ∀ x, (words x).length = n.toNat
  fromData_words : ∀ x, G.fromData (words x) n = x
  words_fromData : ∀ xs, xs.length = n.toNat → words (G.fromData xs n) = xs
  /-- A copy on the device has the value of its operand. -/
  copy : ∀ p, value (copyOf F p) = value p
  fromData : ∀ xs, xs.length = n.toNat → value (F.fromData xs n) = G.fromData xs n
  pp : ∀ (op : PpOp) p p' q, value (op.sr F p p' q) = op.sr G (value p) (value p') q
  ps : ∀ (op : PpOp) p s q, value (op.srs F p s q) = op.srs G (value p) s q
  transform : ∀ (op : TransformOp) p q, value (op.sr F p q) = op.sr G (value p) q
  automorph : ∀ p index, value (F.srAutomorphEval p index) = G.srAutomorphEval (value p) index
  fromPairs : ∀ pairs, values (F.fromPairs pairs) = G.fromPairs (pairs.map (Prod.map value id))
  residue : ∀ m q, value (F.residue m q) = G.residue (values m) q
  base : ∀ m, G.base (values m) = F.base m
  ppMrp : ∀ (op : PpOp) m m', values (op.mr F m m') = op.mr G (values m) (values m')
  psMrp : ∀ (op : PpOp) m scalars, values (op.mrs F m scalars) = op.mrs G (values m) scalars
  transformMrp : ∀ (op : TransformOp) m, values (op.mr F m) = op.mr G (values m)
  indexMrp : ∀ (op : IndexOp) m index, values (op.mr F m index) = op.mr G (values m) index
  subset : ∀ m base, values (F.mrSubset m base) = G.mrSubset (values m) base
  fastBaseConvert : ∀ m base variant shape,
    values (F.fastBaseConvert m base variant shape) = G.fastBaseConvert (values m) base variant shape
  rescaleFbc : ∀ m base variant shape,
    values (F.rescaleFbc m base variant shape) = G.rescaleFbc (values m) base variant shape

namespace Semantics

variable {F : Fhetch P M} {G : Fhetch V N} {n : UInt64} (D : Semantics F G n)

/-- The values at the addresses. -/
def valuesAt (v : DevAddr → Option P) : DevAddr → Option V := fun a => (v a).map D.value

/-- The values of writes. -/
def written (writes : List (DevAddr × P)) : List (DevAddr × V) := writes.map (Prod.map id D.value)

/-- An eager copy returns its operand. -/
theorem copyOf_value (D : Semantics F G n) (x : V) : copyOf G x = x := by
  have hx : D.value (F.fromData (D.words x) n) = x := by
    rw [D.fromData _ (D.length_words x), D.fromData_words]
  have hcopy := D.copy (F.fromData (D.words x) n)
  rw [copyOf, show F.srAddps = PpOp.add.srs F from rfl, D.ps, hx] at hcopy
  exact hcopy

/-- The values after a write are the values with its value written. -/
theorem valuesAt_one (v : DevAddr → Option P) (write : DevAddr × P) :
    D.valuesAt (Writes.one v write) = Writes.one (D.valuesAt v) (Prod.map id D.value write) := by
  funext a
  change Option.map D.value (Function.update v write.1 (some write.2) a) =
    Function.update (D.valuesAt v) write.1 (some (D.value write.2)) a
  rw [Function.update_apply, Function.update_apply]
  split_ifs <;> rfl

/-- The values after writes are those of the writes, and else those before them. -/
theorem valuesAt_all (v : DevAddr → Option P) (writes : List (DevAddr × P)) :
    D.valuesAt (Writes.all v writes) = Writes.all (D.valuesAt v) (D.written writes) := by
  induction writes generalizing v with
  | nil => rfl
  | cons write writes ih =>
    change D.valuesAt (Writes.all (Writes.one v write) writes) = _
    rw [ih, valuesAt_one]
    rfl

/-! ## Sources and destinations -/

/-- The values at addresses are those of the polynomials there. -/
theorem polysAt_map (v : DevAddr → Option P) (addrs : List DevAddr) :
    polysAt (D.valuesAt v) addrs = (polysAt v addrs).map (List.map D.value) := by
  induction addrs with
  | nil => rfl
  | cons a addrs ih =>
    rw [polysAt_cons, polysAt_cons, ih, valuesAt]
    rcases v a with _ | p
    · rfl
    · rcases polysAt v addrs with _ | polys <;> rfl

/-- The value of a multi-residue polynomial is built from the values of its residues. -/
theorem evalMrp_map (v : DevAddr → Option P) (src : List DevAddr) (base : List UInt64) :
    evalMrp G (D.valuesAt v) src base = (evalMrp F v src base).map D.values := by
  rw [evalMrp, evalMrp, D.polysAt_map, Option.map_map, Option.map_map]
  congr 1
  funext polys
  change G.fromPairs ((polys.map D.value).zip base) = D.values (F.fromPairs (polys.zip base))
  rw [D.fromPairs, List.zip_map_left]

/-- The values of the residues that are written are those of the value. -/
theorem mrpWrites_map (dst : List DevAddr) (m : M) (base : List UInt64) :
    mrpWrites G dst (D.values m) base = D.written (mrpWrites F dst m base) := by
  rw [written, mrpWrites, mrpWrites, List.map_map]
  congr 1
  funext r
  exact Prod.ext rfl (D.residue m r.2).symm

/-- So are those of the digits. -/
theorem digitWrites_map (dst : List DevAddr) {lift : List UInt64 → M} {lift' : List UInt64 → N}
    (hlift : ∀ base, lift' base = D.values (lift base)) (d : ℕ) (digits : List (List UInt64)) :
    digitWrites G dst lift' d digits = D.written (digitWrites F dst lift d digits) := by
  induction digits generalizing d with
  | nil => rfl
  | cons digit digits ih =>
    rw [digitWrites, digitWrites, hlift]
    rw [D.base, D.mrpWrites_map, ih]
    exact List.map_append.symm

/-- The values of the copies are the copies of the values. -/
theorem evalCopies_map (v : DevAddr → Option P) (residues : List (DevAddr × DevAddr)) :
    evalCopies G (D.valuesAt v) residues = (evalCopies F v residues).map D.written := by
  -- By induction on the copies; the value of a copy is the copy of the value.
  induction residues generalizing v with
  | nil => rfl
  | cons r rs ih =>
    obtain ⟨dst, src⟩ := r
    rw [evalCopies, evalCopies]
    rcases hp : v src with _ | p
    · rw [valuesAt, hp]
      rfl
    have hone : Writes.one (D.valuesAt v) (dst, copyOf G (D.value p)) =
        D.valuesAt (Writes.one v (dst, copyOf F p)) := by
      rw [valuesAt_one, D.copyOf_value, Prod.map_apply, D.copy]
      rfl
    have hsrc : D.valuesAt v src = some (D.value p) := by
      rw [valuesAt, hp]
      rfl
    rw [hsrc]
    change (evalCopies G (Writes.one (D.valuesAt v) (dst, copyOf G (D.value p))) rs).bind _ =
      ((evalCopies F (Writes.one v (dst, copyOf F p)) rs).bind _).map D.written
    rw [hone, ih, D.copyOf_value]
    rcases evalCopies F (Writes.one v (dst, copyOf F p)) rs with _ | writes
    · rfl
    · change some ((dst, D.value p) :: D.written writes) =
        some ((dst, D.value (copyOf F p)) :: D.written writes)
      rw [D.copy]

/-- Copies in order copy the values from key to key. -/
theorem valuesAt_copies {v : DevAddr → Option P} {residues : List (DevAddr × DevAddr)}
    {writes : List (DevAddr × P)} (h : evalCopies F v residues = some writes) :
    D.valuesAt (Writes.all v writes) = Writes.copyEach (D.valuesAt v) residues := by
  have hcopies := copiesMade_copyEach D.copy v residues
  rw [(copiesMade_of_eval h).1, (copiesMade_of_eval h).2] at hcopies
  exact hcopies

/-! ## Calls -/

/-- Evaluating a call on values is evaluating it on polynomials and taking the values. -/
theorem eval_map (c : Config) (v : DevAddr → Option P) (call : Call) :
    call.eval G c (D.valuesAt v) = (call.eval F c v).map D.written := by
  -- An operation from one source commutes with the values.
  have hsource : ∀ (dst src : DevAddr) (f : P → P) (g : V → V),
      (∀ p, D.value (f p) = g (D.value p)) →
      ((D.valuesAt v src).map fun x => [(dst, g x)]) =
        ((v src).map fun p => [(dst, f p)]).map D.written := by
    intro dst src f g hfg
    rw [valuesAt]
    rcases v src with _ | p
    · rfl
    · exact congrArg (fun x => some [(dst, x)]) (hfg p).symm
  -- So does one that writes residues.
  have hresidues : ∀ (dst src : List DevAddr) (base : List UInt64) (f : M → M) (g : N → N),
      (∀ m, D.values (f m) = g (D.values m)) →
      ((evalMrp G (D.valuesAt v) src base).map fun m => mrpWrites G dst (g m) base) =
        ((evalMrp F v src base).map fun m => mrpWrites F dst (f m) base).map D.written := by
    intro dst src base f g hfg
    rw [D.evalMrp_map]
    rcases evalMrp F v src base with _ | m
    · rfl
    · change some (mrpWrites G dst (g (D.values m)) base) =
        some (D.written (mrpWrites F dst (f m) base))
      rw [← hfg, D.mrpWrites_map]
  -- Both evaluations make the same checks, and then take the same step.
  cases call with
  | pp op dst src1 src2 modIdx =>
    rw [Call.eval, Call.eval]
    split_ifs
    · rfl
    rw [valuesAt, valuesAt]
    rcases v src1 with _ | p
    · rfl
    rcases v src2 with _ | p'
    · rfl
    exact congrArg (fun x => some [(dst, x)]) (D.pp op p p' _).symm
  | ps op dst src scalar modIdx =>
    rw [Call.eval, Call.eval]
    split_ifs
    · rfl
    · exact hsource dst src _ _ fun p => D.ps op p scalar _
  | transform op dst src modIdx =>
    rw [Call.eval, Call.eval]
    split_ifs
    · rfl
    · exact hsource dst src _ _ fun p => D.transform op p _
  | automorph dst src index =>
    rw [Call.eval, Call.eval]
    split_ifs
    · rfl
    · exact hsource dst src _ _ fun p => D.automorph p index
  | ppMrp op dst src1 src2 base =>
    rcases dst with _ | dst <;> rcases src1 with _ | src1 <;> rcases src2 with _ | src2 <;>
      rcases base with _ | base <;> try rfl
    rw [Call.eval, Call.eval]
    split_ifs
    · rfl
    rw [D.evalMrp_map, D.evalMrp_map]
    rcases evalMrp F v src1 base with _ | m
    · rfl
    rcases evalMrp F v src2 base with _ | m'
    · rfl
    change some (mrpWrites G dst (op.mr G (D.values m) (D.values m')) base) =
      some (D.written (mrpWrites F dst (op.mr F m m') base))
    rw [← D.ppMrp, D.mrpWrites_map]
  | psMrp op dst src scalars base =>
    rcases dst with _ | dst <;> rcases src with _ | src <;> rcases scalars with _ | scalars <;>
      rcases base with _ | base <;> try rfl
    rw [Call.eval, Call.eval]
    split_ifs
    · rfl
    · exact hresidues dst src base _ _ fun m => D.psMrp op m _
  | transformMrp op dst src base =>
    rcases dst with _ | dst <;> rcases src with _ | src <;> rcases base with _ | base <;> try rfl
    rw [Call.eval, Call.eval]
    split_ifs
    · rfl
    · exact hresidues dst src base _ _ fun m => D.transformMrp op m
  | indexMrp op dst src index base =>
    rcases dst with _ | dst <;> rcases src with _ | src <;> rcases base with _ | base <;> try rfl
    rw [Call.eval, Call.eval]
    split_ifs
    · rfl
    · exact hresidues dst src base _ _ fun m => D.indexMrp op m index
  | basisConvert dst src params =>
    rcases dst with _ | dst <;> rcases src with _ | src <;> rcases params with _ | p <;> try rfl
    rw [Call.eval, Call.eval]
    rcases p.validate with e | ⟨srcBase, dstBase⟩
    · rfl
    change (evalMrp G (D.valuesAt v) src srcBase).map _ = ((evalMrp F v src srcBase).map _).map _
    rw [D.evalMrp_map]
    rcases evalMrp F v src srcBase with _ | m
    · rfl
    change some (mrpWrites G dst _ dstBase) = some (D.written (mrpWrites F dst _ dstBase))
    rw [← D.fastBaseConvert, D.mrpWrites_map]
  | modDown dst src params =>
    rcases dst with _ | dst <;> rcases src with _ | src <;> rcases params with _ | p <;> try rfl
    rw [Call.eval, Call.eval]
    rcases p.validate with e | ⟨srcBase, rescaleBase⟩
    · rfl
    change (evalMrp G (D.valuesAt v) src srcBase).map _ = ((evalMrp F v src srcBase).map _).map _
    rw [D.evalMrp_map]
    rcases evalMrp F v src srcBase with _ | m
    · rfl
    change some (mrpWrites G dst (G.rescaleFbc (D.values m) rescaleBase _ _)
      (G.base (G.rescaleFbc (D.values m) rescaleBase _ _))) = some (D.written (mrpWrites F dst _ _))
    rw [← D.rescaleFbc, D.base, D.mrpWrites_map]
  | modUp dst src params =>
    rcases dst with _ | dst <;> rcases src with _ | src <;> rcases params with _ | p <;> try rfl
    rw [Call.eval, Call.eval]
    rcases p.validate with e | ⟨srcBase, digitBases, lens, pBase⟩
    · rfl
    change (evalMrp G (D.valuesAt v) src srcBase).map _ = ((evalMrp F v src srcBase).map _).map _
    rw [D.evalMrp_map]
    rcases evalMrp F v src srcBase with _ | m
    · rfl
    refine congrArg some (D.digitWrites_map dst (fun digitBase => ?_) 0 _)
    -- The digits are lifted on both sides to the base of the same value.
    rw [D.fastBaseConvert, D.subset, D.base]
  | memcpy transfer count =>
    cases transfer with
    | deviceToDevice dst src =>
      rw [Call.eval, Call.eval]
      split_ifs
      · rfl
      · exact hsource dst src _ _ fun p => (D.copy p).trans (D.copyOf_value _).symm
    | _ => rfl
  | memcpyMrp transfer count base =>
    cases transfer with
    | deviceToDevice dst src =>
      rcases dst with _ | dst <;> rcases src with _ | src <;> rcases base with _ | base <;> try rfl
      rw [Call.eval, Call.eval]
      split_ifs
      · rfl
      · exact D.evalCopies_map v _
    | _ => rfl
  | _ => rfl

end Semantics

end Haze
