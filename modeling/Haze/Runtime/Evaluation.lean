import Haze.Runtime.Carrying
import Haze.Runtime.Held

/-!
# What the methods store

`Call.eval` evaluates a compute call, a basis conversion or a device-to-device copy directly on a
map from addresses to polynomials, and `Call.looked` says which addresses it looks up. The methods
do the same on what the addresses hold: a method returns a value exactly when it can be evaluated,
makes the writes of the evaluation, and has looked the same addresses up whether it returns or fails
(`Evaluates`). Each operation is the composition of the sources that it resolves (`Sources`) with
the destinations that it stores.
-/

namespace Haze

variable {P M : Type}

open World (takePtrs buildMrs fbcVariant fbcCenterShape)

/-! ## Evaluation -/

/-- The polynomials at a list of addresses, if each has one. -/
def polysAt (v : DevAddr → Option P) (addrs : List DevAddr) : Option (List P) := addrs.mapM v

/-- Values are found at a list of addresses when the first has one and the rest have theirs. -/
theorem polysAt_cons (v : DevAddr → Option P) (a : DevAddr) (addrs : List DevAddr) :
    polysAt v (a :: addrs) = (v a).bind fun p => (polysAt v addrs).map (p :: ·) := by
  rw [polysAt, List.mapM_cons]
  rcases v a with _ | p
  · rfl
  · rcases h : List.mapM v addrs with _ | polys <;> simp [polysAt, h]

section

variable (F : Fhetch P M)

/-- The multi-residue polynomial at an array of addresses. -/
def evalMrp (v : DevAddr → Option P) (src : List DevAddr) (base : List UInt64) : Option M :=
  (polysAt v (takePtrs base.length src)).map fun polys => F.fromPairs (polys.zip base)

/-- The writes of the residues of a multi-residue polynomial. -/
def mrpWrites (dst : List DevAddr) (m : M) (base : List UInt64) : List (DevAddr × P) :=
  ((takePtrs base.length dst).zip base).map fun r => (r.1, F.residue m r.2)

/-- The writes of the digits of a decomposition, one after the other. -/
def digitWrites (dst : List DevAddr) (lift : List UInt64 → M) :
    ℕ → List (List UInt64) → List (DevAddr × P)
  | _, [] => []
  | d, digitBase :: digitBases =>
    let digit := lift digitBase
    mrpWrites F (dst.drop (d * (F.base digit).length)) digit (F.base digit) ++
      digitWrites dst lift (d + 1) digitBases

/-- The polynomial that a copy is recorded as. -/
def copyOf (p : P) : P := F.srAddps p 0 kCopyModulus

/-- The writes of a copy of several residues, each made before the next source is read. -/
def evalCopies : (DevAddr → Option P) → List (DevAddr × DevAddr) → Option (List (DevAddr × P))
  | _, [] => some []
  | v, (dst, src) :: residues => do
    let p ← v src
    let writes ← evalCopies (Writes.one v (dst, copyOf F p)) residues
    pure ((dst, copyOf F p) :: writes)

/-- The writes of a copy of several residues that are made before the first source without a
polynomial. -/
def copiesMade : (DevAddr → Option P) → List (DevAddr × DevAddr) → List (DevAddr × P)
  | _, [] => []
  | v, (dst, src) :: residues =>
    match v src with
    | none => []
    | some p => (dst, copyOf F p) :: copiesMade (Writes.one v (dst, copyOf F p)) residues

/-- The addresses that a copy of several residues looks up before it writes them: up to the first
source without a polynomial, and none that an earlier residue has written. -/
def copiesLooked : (DevAddr → Option P) → List (DevAddr × DevAddr) → List DevAddr
  | _, [] => []
  | v, (dst, src) :: residues =>
    src :: match v src with
      | none => []
      | some p => (copiesLooked (Writes.one v (dst, copyOf F p)) residues).filter (· ≠ dst)

/-- The writes of a compute call, a basis conversion or a device-to-device copy on a map from
addresses to polynomials, under a configuration; none when an argument is rejected or a source has
no polynomial. -/
def Call.eval (c : Config) (v : DevAddr → Option P) : Call → Option (List (DevAddr × P))
  | .memcpy (.deviceToDevice dst src) _ =>
    if dst = .null ∨ src = .null then none else (v src).map fun p => [(dst, copyOf F p)]
  | .memcpyMrp (.deviceToDevice (some dst) (some src)) _ (some base) =>
    if base = [] then none
    else evalCopies F v ((takePtrs base.length dst).zip (takePtrs base.length src))
  | .pp op dst src1 src2 modIdx =>
    if dst = .null ∨ src1 = .null ∨ src2 = .null ∨ c.modulus modIdx = 0 then none
    else do
      let p1 ← v src1
      let p2 ← v src2
      pure [(dst, op.sr F p1 p2 (c.modulus modIdx))]
  | .ps op dst src scalar modIdx =>
    if dst = .null ∨ src = .null ∨ c.modulus modIdx = 0 then none
    else (v src).map fun p => [(dst, op.srs F p scalar (c.modulus modIdx))]
  | .transform op dst src modIdx =>
    if dst = .null ∨ src = .null ∨ c.modulus modIdx = 0 then none
    else (v src).map fun p => [(dst, op.sr F p (c.modulus modIdx))]
  | .automorph dst src index =>
    if dst = .null ∨ src = .null then none
    else (v src).map fun p => [(dst, F.srAutomorphEval p index)]
  | .ppMrp op (some dst) (some src1) (some src2) (some base) =>
    if base = [] then none
    else do
      let m1 ← evalMrp F v src1 base
      let m2 ← evalMrp F v src2 base
      pure (mrpWrites F dst (op.mr F m1 m2) base)
  | .psMrp op (some dst) (some src) (some scalars) (some base) =>
    if base = [] then none
    else (evalMrp F v src base).map fun m =>
      mrpWrites F dst (op.mrs F m (buildMrs scalars base)) base
  | .transformMrp op (some dst) (some src) (some base) =>
    if base = [] then none
    else (evalMrp F v src base).map fun m => mrpWrites F dst (op.mr F m) base
  | .indexMrp op (some dst) (some src) index (some base) =>
    if base = [] then none
    else (evalMrp F v src base).map fun m => mrpWrites F dst (op.mr F m index) base
  | .basisConvert (some dst) (some src) (some p) =>
    match p.validate with
    | .error _ => none
    | .ok (srcBase, dstBase) => (evalMrp F v src srcBase).map fun m =>
      mrpWrites F dst (F.fastBaseConvert m dstBase (fbcVariant c) (fbcCenterShape c)) dstBase
  | .modDown (some dst) (some src) (some p) =>
    match p.validate with
    | .error _ => none
    | .ok (srcBase, rescaleBase) => (evalMrp F v src srcBase).map fun m =>
      let result := F.rescaleFbc m rescaleBase (fbcVariant c) (fbcCenterShape c)
      mrpWrites F dst result (F.base result)
  | .modUp (some dst) (some src) (some p) =>
    match p.validate with
    | .error _ => none
    | .ok (srcBase, digitBases, lens, pBase) => (evalMrp F v src srcBase).map fun m =>
      digitWrites F dst (fun digitBase => F.fastBaseConvert (F.mrSubset m digitBase)
        (F.base m ++ pBase) (fbcVariant c) (fbcCenterShape c)) 0 (sliceDigits digitBases lens)
  | _ => none

/-- An argument is rejected: a null address or array, a base without residues, an index without a
modulus, or parameters that are not valid. -/
def Call.rejected (c : Config) : Call → Bool
  | .memcpy (.deviceToDevice dst src) _ => dst = .null ∨ src = .null
  | .memcpyMrp (.deviceToDevice (some _) (some _)) _ (some base) => base = []
  | .pp _ dst src1 src2 modIdx =>
    dst = .null ∨ src1 = .null ∨ src2 = .null ∨ c.modulus modIdx = 0
  | .ps _ dst src _ modIdx => dst = .null ∨ src = .null ∨ c.modulus modIdx = 0
  | .transform _ dst src modIdx => dst = .null ∨ src = .null ∨ c.modulus modIdx = 0
  | .automorph dst src _ => dst = .null ∨ src = .null
  | .ppMrp _ (some _) (some _) (some _) (some base) => base = []
  | .psMrp _ (some _) (some _) (some _) (some base) => base = []
  | .transformMrp _ (some _) (some _) (some base) => base = []
  | .indexMrp _ (some _) (some _) _ (some base) => base = []
  | .basisConvert (some _) (some _) (some p) => !p.validate.isOk
  | .modDown (some _) (some _) (some p) => !p.validate.isOk
  | .modUp (some _) (some _) (some p) => !p.validate.isOk
  | _ => true

/-- The addresses that a call looks up before it writes them: none where an argument is rejected,
and else its sources up to the first without a polynomial. -/
def Call.looked (c : Config) (v : DevAddr → Option P) : Call → List DevAddr
  | .memcpyMrp (.deviceToDevice (some dst) (some src)) _ (some base) =>
    if base = [] then []
    else copiesLooked F v ((takePtrs base.length dst).zip (takePtrs base.length src))
  | call => if call.rejected c then [] else World.lookedUp v call.srcs

end

namespace World

/-! ## Sources -/

section

variable {F : Fhetch P M}

/-- The method resolves sources in order and returns what `eval` gives from what the addresses hold.
It fails where one of them holds nothing, and then `eval` gives nothing. -/
def Sources (F : Fhetch P M) {α : Type} (srcs : List DevAddr)
    (eval : (DevAddr → Option P) → Option α) (x : Method P M α) : Prop :=
  ∀ w₀ before, w₀.Stocked → Expected.Triple (ReadsTo F w₀ before) x
    (fun a w => eval (w₀.held F) = some a ∧ (∀ b ∈ srcs, (w₀.held F b).isSome) ∧
      ReadsTo F w₀ (before ++ lookedUp (w₀.held F) srcs) w)
    (fun _ w => eval (w₀.held F) = none ∧ (¬ ∀ b ∈ srcs, (w₀.held F b).isSome) ∧
      ReadsTo F w₀ (before ++ lookedUp (w₀.held F) srcs) w)

namespace Sources

variable {α : Type} {srcs : List DevAddr} {ev : (DevAddr → Option P) → Option α} {x : Method P M α}

/-- The address of one source. -/
theorem lookup (F : Fhetch P M) (a : DevAddr) : Sources F [a] (· a) (lookupOrCreateLocked F a) := by
  intro w₀ before hw
  have hone : lookedUp (w₀.held F) [a] = [a] := by
    simp [lookedUp]
  rw [hone]
  refine (lookup_readsTo (F := F) hw a before).mono (fun _ h => h) (fun poly w h => ?_)
    fun _ w h => ?_
  · refine ⟨h.1, fun b hb => ?_, h.2⟩
    rw [List.mem_singleton.mp hb, h.1]
    rfl
  · refine ⟨h.1, fun hall => ?_, h.2⟩
    have hsome := hall a (List.mem_singleton.mpr rfl)
    rw [h.1] at hsome
    exact absurd hsome Bool.false_ne_true

/-- What is evaluated may be given by an equal function. -/
theorem congr {ev' : (DevAddr → Option P) → Option α} (h : Sources F srcs ev x)
    (hev : ∀ v, ev' v = ev v) : Sources F srcs ev' x := by
  rwa [funext hev]

/-- A result that the sources and nothing else determine. -/
theorem mapResult {β : Type} (h : Sources F srcs ev x) {g : α → Method P M β} (f : α → β)
    (hg : ∀ w₀ before a, Expected.Triple (ReadsTo F w₀ before) (g a)
      (fun b w => b = f a ∧ ReadsTo F w₀ before w) (fun _ _ => False)) :
    Sources F srcs (fun v => (ev v).map f) (x >>= g) := by
  intro w₀ before hw
  refine .bind ((h w₀ before hw).mono (fun _ h => h) (fun _ _ h => h) fun _ w h => ?_)
    fun a w h => ?_
  · refine ⟨?_, h.2⟩
    dsimp only
    rw [h.1]
    rfl
  · refine (hg w₀ _ a).mono (fun _ h => h) (fun b w' h' => ?_) (fun _ _ h' => h'.elim) w h.2.2
    refine ⟨?_, h.2.1, h'.2⟩
    dsimp only
    rw [h.1, h'.1]
    rfl

/-- Sources after sources. -/
theorem andThen {β γ : Type} {srcs' : List DevAddr} {ev' : (DevAddr → Option P) → Option β}
    {y : Method P M β} (h : Sources F srcs ev x) (h' : Sources F srcs' ev' y) (f : α → β → γ) :
    Sources F (srcs ++ srcs') (fun v => (ev v).bind fun a => (ev' v).map (f a))
      (x >>= fun a => y >>= fun b => pure (f a b)) := by
  -- Both parts succeed exactly where all the sources are held.
  intro w₀ before hw
  have hiff : (∀ b ∈ srcs ++ srcs', (w₀.held F b).isSome) ↔
      (∀ b ∈ srcs, (w₀.held F b).isSome) ∧ ∀ b ∈ srcs', (w₀.held F b).isSome :=
    List.forall_mem_append
  simp only [hiff, lookedUp_append]
  refine .bind ((h w₀ before hw).mono (fun _ h => h) (fun _ _ h => h) fun _ w h => ?_)
    fun a w h => ?_
  -- The first part fails, and the second is not run.
  · rw [h.1, if_neg h.2.1]
    exact ⟨rfl, fun hall => h.2.1 hall.1, h.2.2⟩
  -- It succeeds, so all its sources have been looked up when the second starts.
  · obtain ⟨heval, hall, hreads⟩ := h
    rw [heval, if_pos hall, ← List.append_assoc]
    rw [lookedUp_all hall] at hreads
    refine Expected.Triple.bind ((h' w₀ _ hw).mono (fun _ h => h) (fun _ _ h => h)
      fun _ w h => ?_) (fun b => .pure fun w h => ?_) w hreads
    · refine ⟨?_, fun hboth => h.2.1 hboth.2, h.2.2⟩
      change Option.map (f a) _ = none
      rw [h.1]
      rfl
    · refine ⟨?_, ⟨hall, h.2.1⟩, h.2.2⟩
      change Option.map (f a) _ = _
      rw [h.1]
      rfl

/-- Several residues in order. -/
theorem residues (F : Fhetch P M) (rs : List (DevAddr × UInt64)) :
    Sources F (rs.map Prod.fst)
      (fun v => (polysAt v (rs.map Prod.fst)).map fun polys => polys.zip (rs.map Prod.snd))
      (Expected.mapEach (lookupResidue F) rs) := by
  induction rs with
  | nil =>
    intro w₀ before _
    refine .pure fun w h => ⟨rfl, fun _ h => absurd h List.not_mem_nil, ?_⟩
    exact (List.append_nil before).symm ▸ h
  | cons r rs ih =>
    have hone : Sources F [r.1] (fun v => (v r.1).map fun poly => (poly, r.2))
        (lookupResidue F r) :=
      mapResult (lookup F r.1) (·, r.2) fun _ _ _ => .pure fun _ h => ⟨rfl, h⟩
    rw [Expected.mapEach_cons]
    refine (hone.andThen ih List.cons).congr fun v => ?_
    rw [List.map_cons, List.map_cons, polysAt_cons]
    rcases v r.1 with _ | poly
    · rfl
    · rcases polysAt v (rs.map Prod.fst) with _ | polys <;> rfl

/-- Assembling a multi-residue source. -/
theorem buildMrp (F : Fhetch P M) (src : List DevAddr) (base : List UInt64) :
    Sources F (takePtrs base.length src) (evalMrp F · src base) (buildMrpLocked F src base) := by
  have hfst := map_fst_zip_takePtrs base src
  have hsnd : ((takePtrs base.length src).zip base).map Prod.snd = base :=
    List.map_snd_zip (length_takePtrs ..).ge
  have hresidues := residues F ((takePtrs base.length src).zip base)
  rw [hfst, hsnd] at hresidues
  refine (hresidues.mapResult F.fromPairs fun w₀ before pairs => ?_).congr fun v => ?_
  · refine .get_bind fun w hw => ?_
    split_ifs
    · rintro v rfl
      obtain ⟨u, hrun, hv, hr⟩ := nameInput_run ((takePtrs base.length src).headD .null)
        (F.fromPairs pairs) v
      rw [← Expected.bind_assoc, Expected.bind_run_ok hrun]
      have hlive : u.rest.allocator.allocSet = v.rest.allocator.allocSet := by rw [hr]
      have hbytes : u.rest.allocator.polyBytes = v.rest.allocator.polyBytes := by rw [hr]
      exact ⟨rfl, hw.frame (congrArg Values.binding hv) (congrArg Values.shadow hv)
        (ResidueOp.config_eq_of_rest hr) hlive hbytes (marks_congr hv hr)⟩
    · exact .pure fun v hv => hv ▸ ⟨rfl, hw⟩
  · rw [evalMrp, Option.map_map]
    rfl

end Sources

/-! ## Destinations -/

/-- Storing a multi-residue polynomial makes its writes. -/
theorem storeMrp_storesTo (dst : List DevAddr) (m : M) (base : List UInt64) (w : World P M) :
    ∃ w', storeMrpLocked F dst m base w = (.ok (), w') ∧
      StoresTo w (mrpWrites F dst m base) w' := by
  have hstore := forEach_storeResidue (F := F) m ((takePtrs base.length dst).zip base) w
  have hwrites := storeResidues_storesTo (F := F) m ((takePtrs base.length dst).zip base) w
  generalize ({ w with epoch := storeResidues F m ((takePtrs base.length dst).zip base) w.epoch } :
    World P M) = w₁ at hstore hwrites
  obtain ⟨w', hrun, hgroup⟩ := registerGroup_storesTo (length_takePtrs base.length dst) w₁
  refine ⟨w', ?_, ?_⟩
  · unfold storeMrpLocked
    rw [Expected.bind_run_ok hstore]
    exact hrun
  · have hall := hwrites.trans hgroup
    rwa [List.append_nil] at hall

/-- Storing the digits of a decomposition makes their writes in order. -/
theorem storeDigits_storesTo (dst : List DevAddr) (lift : List UInt64 → M)
    (digitBases : List (List UInt64)) (d : ℕ) (w : World P M) :
    ∃ w', storeDigits F dst lift d digitBases w = (.ok (), w') ∧
      StoresTo w (digitWrites F dst lift d digitBases) w' := by
  induction digitBases generalizing d w with
  | nil => exact ⟨w, rfl, .refl w⟩
  | cons digitBase digitBases ih =>
    obtain ⟨w₁, hrun₁, hwrites₁⟩ := storeMrp_storesTo (F := F)
      (dst.drop (d * (F.base (lift digitBase)).length)) (lift digitBase) (F.base (lift digitBase)) w
    obtain ⟨w₂, hrun₂, hwrites₂⟩ := ih (d + 1) w₁
    refine ⟨w₂, ?_, hwrites₁.trans hwrites₂⟩
    unfold storeDigits
    rw [Expected.bind_run_ok hrun₁]
    exact hrun₂

/-! ## Methods that are evaluated -/

/-- After the sources `before` were looked up, the method makes the writes that `eval` gives from
the configuration and what the addresses hold, or fails where it gives none. Either way it has
looked up `looked`. -/
def Evaluates (F : Fhetch P M) (before : List DevAddr)
    (looked : Config → (DevAddr → Option P) → List DevAddr)
    (eval : Config → (DevAddr → Option P) → Option (List (DevAddr × P))) (x : Method P M Unit) :
    Prop :=
  ∀ w₀, w₀.Stocked → Expected.Triple (ReadsTo F w₀ before) x
    (fun _ w => ∃ writes, eval w₀.config (w₀.held F) = some writes ∧
      RecordsTo F w₀ (before ++ looked w₀.config (w₀.held F)) writes w)
    (fun _ w => eval w₀.config (w₀.held F) = none ∧
      ReadsTo F w₀ (before ++ looked w₀.config (w₀.held F)) w)

namespace Evaluates

variable {env : CompilerReplies P} {before srcs : List DevAddr} {x : Method P M Unit}
  {looked : Config → (DevAddr → Option P) → List DevAddr}
  {eval : Config → (DevAddr → Option P) → Option (List (DevAddr × P))}

/-- What is looked up and evaluated may be given by equal functions. -/
theorem congr {looked' : Config → (DevAddr → Option P) → List DevAddr}
    {eval' : Config → (DevAddr → Option P) → Option (List (DevAddr × P))}
    (h : Evaluates F before looked eval x) (hlooked : ∀ c v, looked' c v = looked c v)
    (heval : ∀ c v, eval' c v = eval c v) : Evaluates F before looked' eval' x := by
  rwa [funext fun c => funext (hlooked c), funext fun c => funext (heval c)]

/-- Opening a session first evaluates nothing. -/
theorem session (h : Evaluates F [] looked eval x) :
    Evaluates F [] looked eval (epochSession env >>= fun _ => x) := fun w₀ hw₀ =>
  .bind (Q := fun _ => ReadsTo F w₀ [])
    (fun w hw => hw.trans (session_readsTo F env w)) fun _ => h w₀ hw₀

/-- The method returns a value exactly when it can be evaluated. -/
theorem run (h : Evaluates F [] looked eval x) {w : World P M} (hw : w.Stocked) :
    match eval w.config (w.held F) with
    | some writes => ∃ w', x w = (.ok (), w') ∧
      RecordsTo F w (looked w.config (w.held F)) writes w'
    | none => ∃ e w', x w = (.error e, w') ∧ ReadsTo F w (looked w.config (w.held F)) w' := by
  rcases hrun : x w with ⟨e | ⟨⟩, w'⟩
  · obtain ⟨hnone, hw'⟩ := (h w hw).error (ReadsTo.refl F w) hrun
    rw [hnone]
    exact ⟨e, w', rfl, hw'⟩
  · obtain ⟨writes, hsome, hw'⟩ := (h w hw).ok (ReadsTo.refl F w) hrun
    rw [hsome]
    exact ⟨w', rfl, hw'⟩

/-- Sources are resolved before the rest of a method. -/
theorem sources {α : Type} {ev : (DevAddr → Option P) → Option α} {y : Method P M α}
    {rest : List DevAddr} {f : α → Method P M Unit}
    {eval : α → Config → (DevAddr → Option P) → Option (List (DevAddr × P))}
    (hy : Sources F srcs ev y)
    (hf : ∀ a, Evaluates F (before ++ srcs) (fun _ v => lookedUp v rest) (eval a) (f a)) :
    Evaluates F before (fun _ v => lookedUp v (srcs ++ rest))
      (fun c v => (ev v).bind fun a => eval a c v) (y >>= f) := by
  intro w₀ hw₀
  simp only [lookedUp_append]
  refine .bind ((hy w₀ before hw₀).mono (fun _ h => h) (fun _ _ h => h) fun _ w h => ?_)
    fun a w h => ?_
  · rw [h.1, if_neg h.2.1]
    exact ⟨rfl, h.2.2⟩
  · obtain ⟨heval, hall, hreads⟩ := h
    rw [heval, if_pos hall, ← List.append_assoc]
    rw [lookedUp_all hall] at hreads
    exact hf a w₀ hw₀ w hreads

/-- The last sources of a method. -/
theorem lastSources {α : Type} {ev : (DevAddr → Option P) → Option α} {y : Method P M α}
    {f : α → Method P M Unit}
    {eval : α → Config → (DevAddr → Option P) → Option (List (DevAddr × P))}
    (hy : Sources F srcs ev y)
    (hf : ∀ a, Evaluates F (before ++ srcs) (fun _ v => lookedUp v []) (eval a) (f a)) :
    Evaluates F before (fun _ v => lookedUp v srcs)
      (fun c v => (ev v).bind fun a => eval a c v) (y >>= f) := by
  have hall := sources hy hf
  rwa [List.append_nil] at hall

/-- A modulus by its index is that of the configuration. -/
theorem withModulus {modIdx : ℤ} {f : UInt64 → Method P M Unit}
    {eval : UInt64 → Config → (DevAddr → Option P) → Option (List (DevAddr × P))}
    (h : ∀ q, Evaluates F [] looked (eval q) (f q)) :
    Evaluates F [] (fun c v => if c.modulus modIdx = 0 then [] else looked c v)
      (fun c v => if c.modulus modIdx = 0 then none else eval (c.modulus modIdx) c v)
      (resolveModulus modIdx >>= f) := by
  intro w₀ hw₀ w hw
  have hmodulus : w.config.modulus modIdx = w₀.config.modulus modIdx := by rw [hw.config]
  by_cases hq : w.config.modulus modIdx = 0
  · have hfails : resolveModulus modIdx w = (.error .invalidArgument, w) := by
      unfold resolveModulus
      rw [Expected.get_bind_run, if_pos hq]
      rfl
    rw [Expected.bind_run_error hfails]
    refine ⟨if_pos (hmodulus ▸ hq), ?_⟩
    simpa only [if_pos (hmodulus ▸ hq), List.append_nil] using hw
  · rw [Expected.bind_run_ok (ResidueOp.resolveModulus_run hq), hmodulus]
    simp only [if_neg (hmodulus ▸ hq)]
    exact h _ w₀ hw₀ w hw

/-- The rest of a method may depend on the configuration. -/
theorem withConfig {f : World P M → Method P M Unit}
    (h : ∀ w, Evaluates F before looked (fun _ v => eval w.config v) (f w)) :
    Evaluates F before looked eval (Expected.get >>= f) := by
  intro w₀ hw₀ w hw
  have hrest := h w w₀ hw₀ w hw
  rw [hw.config] at hrest
  rw [Expected.get_bind_run]
  exact hrest

/-- Binding destinations. -/
theorem stores {writes : List (DevAddr × P)}
    (h : ∀ w, ∃ w', x w = (.ok (), w') ∧ StoresTo w writes w') :
    Evaluates F before (fun _ v => lookedUp v []) (fun _ _ => some writes) x := by
  intro w₀ _ w hw
  obtain ⟨w', hrun, hwrites⟩ := h w
  rw [hrun]
  refine ⟨writes, rfl, .of_stores ?_ hwrites⟩
  exact (List.append_nil before).symm ▸ hw

/-- Binding the destination of an operation. -/
theorem store (dst : DevAddr) (poly : P) (q : UInt64) :
    Evaluates F before (fun _ v => lookedUp v []) (fun _ _ => some [(dst, poly)])
      (modifyEpoch (EpochState.storeComputeResultLocked dst poly q)) :=
  .stores fun w => ⟨_, rfl, store_storesTo w dst poly q⟩

/-- Binding the destinations of a multi-residue operation. -/
theorem storeMrp (dst : List DevAddr) (m : M) (base : List UInt64) :
    Evaluates F before (fun _ v => lookedUp v []) (fun _ _ => some (mrpWrites F dst m base))
      (storeMrpLocked F dst m base) :=
  .stores fun w => storeMrp_storesTo dst m base w

/-- Storing the digits evaluates to their writes. -/
theorem storeDigits (dst : List DevAddr) (lift : List UInt64 → M)
    (digitBases : List (List UInt64)) :
    Evaluates F before (fun _ v => lookedUp v [])
      (fun _ _ => some (digitWrites F dst lift 0 digitBases))
      (storeDigits F dst lift 0 digitBases) :=
  .stores fun w => storeDigits_storesTo dst lift digitBases 0 w

/-- A call of the compiler before the rest of a method. -/
theorem bindModulus {polys : List P} {q : UInt64} {f : Unit → Method P M Unit}
    (hf : Evaluates F before looked eval (f ())) :
    Evaluates F before looked eval (bindModulus polys q >>= f) := by
  unfold World.bindModulus
  split_ifs
  · exact fun w₀ hw₀ w hw => hf w₀ hw₀ _ (hw.frame rfl rfl rfl rfl rfl rfl)
  · exact hf

/-- The state may be read before the rest of a method. -/
theorem get {f : World P M → Method P M Unit} (h : ∀ w, Evaluates F before looked eval (f w)) :
    Evaluates F before looked eval (Expected.get >>= f) :=
  fun w₀ hw₀ w hw => h w w₀ hw₀ w hw

/-- A copy of one residue. -/
theorem copyResult (dst src : DevAddr) (q : UInt64) :
    Evaluates F [] (fun _ v => lookedUp v [src])
      (fun _ v => (v src).map fun poly => [(dst, copyOf F poly)]) (copyResultLocked F dst src q) := by
  have hrest : ∀ poly, Evaluates F [src] (fun _ v => lookedUp v [])
      (fun _ _ => some [(dst, copyOf F poly)])
      (Expected.get >>= fun w =>
        let q := if q = kCopyModulus then w.epoch.recordedModulusLocked src else q
        let copy := F.srAddps poly 0 kCopyModulus
        World.bindModulus [poly, copy] q >>= fun _ =>
        if q ≠ kCopyModulus then
          modifyEpoch (EpochState.recordModulus src q) >>= fun _ =>
            modifyEpoch (EpochState.storeComputeResultLocked dst copy q)
        else modifyEpoch (EpochState.storeComputeResultLocked dst copy q)) := by
    refine fun poly => .get fun w => .bindModulus ?_
    -- The modulus that is recorded for the source is no binding.
    have hrecorded : ∀ (w : World P M) (q : UInt64), StoresTo w [(dst, copyOf F poly)]
        { w with epoch :=
          (w.epoch.recordModulus src q).storeComputeResultLocked dst (copyOf F poly) q } := by
      intro w q
      have hmodulus : StoresTo w [] { w with epoch := w.epoch.recordModulus src q } :=
        ⟨rfl, rfl, rfl, rfl, rfl⟩
      exact hmodulus.trans (store_storesTo _ dst _ q)
    split_ifs
    · exact .stores fun w => ⟨_, rfl, hrecorded w _⟩
    · exact .store dst _ _
    · exact .stores fun w => ⟨_, rfl, hrecorded w _⟩
  refine (sources (Sources.lookup F src) hrest).congr (fun _ _ => rfl) fun _ v => ?_
  rw [Option.map_eq_bind]
  rfl

/-! ### The operations -/

/-- An operation on two residues looks both up under a configured modulus, and writes their result.
-/
theorem binaryPpOp (opFn : P → P → UInt64 → P) (dst src1 src2 : DevAddr) (modIdx : ℤ) :
    Evaluates F [] (fun c v => if c.modulus modIdx = 0 then [] else lookedUp v [src1, src2])
      (fun c v => if c.modulus modIdx = 0 then none
        else (v src1).bind fun p1 => (v src2).bind fun p2 =>
          some [(dst, opFn p1 p2 (c.modulus modIdx))])
      (binaryPpOp F env opFn dst src1 src2 modIdx) :=
  session (withModulus fun q =>
    sources (Sources.lookup F src1) fun p1 => sources (Sources.lookup F src2) fun p2 =>
      .store dst (opFn p1 p2 q) q)

/-- An operation on one residue looks it up under a configured modulus, and writes its result. -/
theorem unaryPqOp (opFn : P → UInt64 → P) (dst src : DevAddr) (modIdx : ℤ) :
    Evaluates F [] (fun c v => if c.modulus modIdx = 0 then [] else lookedUp v [src])
      (fun c v => if c.modulus modIdx = 0 then none
        else (v src).bind fun p => some [(dst, opFn p (c.modulus modIdx))])
      (unaryPqOp F env opFn dst src modIdx) :=
  session (withModulus fun q =>
    sources (Sources.lookup F src) fun p => .store dst (opFn p q) q)

/-- An operation with an index looks its source up, and writes its result. -/
theorem unaryPiOp (opFn : P → UInt64 → P) (dst src : DevAddr) (index : UInt64) :
    Evaluates F [] (fun _ v => lookedUp v [src])
      (fun _ v => (v src).bind fun p => some [(dst, opFn p index)])
      (unaryPiOp F env opFn dst src index) :=
  session (sources (Sources.lookup F src) fun _ => .get fun _ => .bindModulus (.store dst _ _))

/-- An operation on two lists looks up both, and writes the residues of the result. -/
theorem binaryPpOpMrp (opFn : M → M → M) (dst src1 src2 : List DevAddr) (base : List UInt64) :
    Evaluates F []
      (fun _ v => lookedUp v (takePtrs base.length src1 ++ takePtrs base.length src2))
      (fun _ v => (evalMrp F v src1 base).bind fun m1 => (evalMrp F v src2 base).bind fun m2 =>
        some (mrpWrites F dst (opFn m1 m2) base))
      (binaryPpOpMrp F env opFn dst src1 src2 base) :=
  session (sources (Sources.buildMrp F src1 base) fun m1 =>
    lastSources (Sources.buildMrp F src2 base) fun m2 => .storeMrp dst (opFn m1 m2) base)

/-- An operation on one list looks it up, and writes the residues of the result. -/
theorem unaryPOpMrp (opFn : M → M) (dst src : List DevAddr) (base : List UInt64) :
    Evaluates F [] (fun _ v => lookedUp v (takePtrs base.length src))
      (fun _ v => (evalMrp F v src base).bind fun m => some (mrpWrites F dst (opFn m) base))
      (unaryPOpMrp F env opFn dst src base) :=
  session (lastSources (Sources.buildMrp F src base) fun m => .storeMrp dst (opFn m) base)

/-- A check of the parameters before a session. -/
theorem checked {T : Type} {check : Except HazeInternalError T} {f : T → Method P M Unit}
    (h : ∀ t, check = .ok t → Evaluates F [] looked eval (f t))
    (hrejected : ∀ e, check = .error e → ∀ c v, looked c v = [] ∧ eval c v = none) :
    Evaluates F [] looked eval (Expected.query (fun _ => check) >>= f) :=
  fun w₀ hw₀ => .check (fun t ht => h t ht w₀ hw₀) fun e he _ hw => by
    obtain ⟨hlooked, heval⟩ := hrejected e he w₀.config (w₀.held F)
    rw [hlooked]
    exact ⟨heval, hw⟩

/-- A conversion that is accepted looks its sources up, and writes the residues over the new base.
-/
theorem basisConvert (dst src : List DevAddr) (p : BasisConvertParams) :
    Evaluates F []
      (fun _ v => if !p.validate.isOk then [] else lookedUp v (residues (some src) p.srcBase))
      (fun c v => match p.validate with
        | .error _ => none
        | .ok (srcBase, dstBase) => (evalMrp F v src srcBase).bind fun m => some
          (mrpWrites F dst (F.fastBaseConvert m dstBase (fbcVariant c) (fbcCenterShape c)) dstBase))
      (basisConvert F env dst src p) := by
  refine checked (fun t ht => ?_) fun e he _ _ => by
    simp only [he]
    exact ⟨rfl, trivial⟩
  obtain ⟨srcBase, dstBase⟩ := t
  simp only [ht, (basisConvert_bases ht).1, residues, Except.isOk, Except.toBool, Bool.not_true,
    if_neg Bool.false_ne_true]
  exact session (lastSources (Sources.buildMrp F src srcBase) fun m =>
    withConfig fun w => .storeMrp dst _ dstBase)

/-- A rescaling that is accepted looks its sources up, and writes the residues that are kept. -/
theorem modDown (dst src : List DevAddr) (p : ModDownParams) :
    Evaluates F []
      (fun _ v => if !p.validate.isOk then [] else lookedUp v (residues (some src) p.srcBase))
      (fun c v => match p.validate with
        | .error _ => none
        | .ok (srcBase, rescaleBase) => (evalMrp F v src srcBase).bind fun m =>
          let result := F.rescaleFbc m rescaleBase (fbcVariant c) (fbcCenterShape c)
          some (mrpWrites F dst result (F.base result)))
      (modDown F env dst src p) := by
  refine checked (fun t ht => ?_) fun e he _ _ => by
    simp only [he]
    exact ⟨rfl, trivial⟩
  obtain ⟨srcBase, rescaleBase⟩ := t
  simp only [ht, (modDown_bases ht).1, residues, Except.isOk, Except.toBool, Bool.not_true,
    if_neg Bool.false_ne_true]
  exact session (lastSources (Sources.buildMrp F src srcBase) fun m =>
    withConfig fun w => .storeMrp dst _ _)

/-- A lifting that is accepted looks its sources up, and writes the residues of every digit. -/
theorem modUp (dst src : List DevAddr) (p : ModUpParams) :
    Evaluates F []
      (fun _ v => if !p.validate.isOk then [] else lookedUp v (residues (some src) p.srcBase))
      (fun c v => match p.validate with
        | .error _ => none
        | .ok (srcBase, digitBases, lens, pBase) => (evalMrp F v src srcBase).bind fun m => some
          (digitWrites F dst (fun digitBase => F.fastBaseConvert (F.mrSubset m digitBase)
            (F.base m ++ pBase) (fbcVariant c) (fbcCenterShape c)) 0 (sliceDigits digitBases lens)))
      (modUp F env dst src p) := by
  refine checked (fun t ht => ?_) fun e he _ _ => by
    simp only [he]
    exact ⟨rfl, trivial⟩
  obtain ⟨srcBase, digitBases, lens, pBase⟩ := t
  simp only [ht, (modUp_bases ht).1, residues, Except.isOk, Except.toBool, Bool.not_true,
    if_neg Bool.false_ne_true]
  exact session (lastSources (Sources.buildMrp F src srcBase) fun m =>
    withConfig fun w => .storeDigits dst _ _)

end Evaluates

end

end World

end Haze
