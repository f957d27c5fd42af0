import Haze.Core.ScalarRing
import Haze.Epoch.Registry
import Haze.Runtime.Finalize

/-!
# The registry of groups over programs

What each public call does to the registry of groups: a successful call writes its groups, a call
that frees or clears an address invalidates it, and the end of an epoch empties the registry. The
epoch's maps correspond to the registry so described after every program, and a finalization tags
exactly its tagged entries.
-/

namespace Haze

variable {P M : Type}

/-- A write of residues; a single residue is no group. -/
def Registry.writeGroup (r : Registry) (group : List DevAddr × List UInt64) : Registry :=
  if 1 < group.2.length then r.write group.1 group.2 else r

/-- The effect of an action on the registry. -/
def Action.registry : Action P M → Registry → Registry
  | .epoch x => x.registry
  | .clearState => fun _ => .empty
  | .reset => fun _ => .empty
  | _ => id

namespace World

variable {F : Fhetch P M} {w : World P M} {r : Registry}

/-- The epoch's invariant holds, and its maps represent a registry. -/
def Holds (r : Registry) (w : World P M) : Prop := w.epoch.Valid ∧ w.epoch.registry = r

/-- An allowed action changes the registry as it says. -/
theorem Holds.act (h : w.Holds r) {x : Action P M} (hx : w.Allowed x) :
    (w.act F x).Holds (x.registry r) := by
  obtain ⟨hv, rfl⟩ := h
  refine ⟨epoch_valid_act hx hv, ?_⟩
  cases x with
  | epoch x => exact EpochState.registry_act hv x hx
  | promote a => exact EpochState.registry_act hv (.bindInput a (w.shadowPoly F a)) trivial
  | session env =>
    obtain ⟨_, _, _, -, he⟩ := session_frame (F := F) env w
    rw [he]
    rfl
  | _ => rfl

/-- A method whose actions leave the registry alone leaves it alone. -/
theorem holds_of_performs {α : Type} {x : Method P M α} {C : Action P M → Prop}
    (h : Expected.Performs (act F) (In C) x) (hC : ∀ y, C y → y.registry = id) :
    Expected.Triple (Holds r) x (fun _ => Holds r) (fun _ => Holds r) := by
  intro w hw
  have hkeep := (h w).preserves (I := Holds r)
    (fun v y hy hv => by have := hv.act (F := F) hy.2; rwa [hC y hy.1] at this) hw
  rcases hx : x w with ⟨e | a, w'⟩
  · rw [hx] at hkeep
    exact hkeep
  · rw [hx] at hkeep
    exact hkeep

/-- Stores change no group. -/
theorem registry_stores {dst : DevAddr → Prop} {x : Action P M} (h : x.Stores dst) :
    x.registry = id := by
  cases x with
  | epoch x => cases x <;> first | rfl | exact h.elim
  | clearState => exact h.elim
  | reset => exact h.elim
  | _ => rfl

/-- Reads change no group. -/
theorem registry_reads {x : Action P M} (h : x.Reads) : x.registry = id :=
  registry_stores (h.stores : x.Stores fun _ => False)

/-- Uploads change no group. -/
theorem registry_uploads {dst : DevAddr → Prop} {x : Action P M} (h : x.Uploads dst) :
    x.registry = id := by
  cases x with
  | epoch x => cases x <;> first | rfl | exact h.elim
  | clearState => exact h.elim
  | reset => exact h.elim
  | _ => rfl

/-- The rest of a method that opens a session decides what becomes of the registry. -/
theorem holds_session (F : Fhetch P M) {α : Type} {env : CompilerReplies P} {x : Method P M α}
    {Q : α → World P M → Prop} {E : HazeInternalError → World P M → Prop}
    (h : Expected.Triple (Holds r) x Q E) :
    Expected.Triple (Holds r) (epochSession env >>= fun _ => x) Q E := fun w hw =>
  h (w.act F (.session env)) (hw.act trivial)

/-! ## Writes -/

/-- Binding the destinations and registering them is one write. -/
theorem registerGroup_holds {addrs : List DevAddr} {base : List UInt64}
    (hlen : addrs.length = base.length) (hw : w.Holds r) (hbound : ∀ a ∈ addrs, a ∈ w.epoch.polyMap) :
    ∃ w', registerGroup addrs base w = (.ok (), w') ∧ w'.Holds (r.writeGroup (addrs, base)) := by
  unfold Registry.writeGroup
  split_ifs with hlong
  · obtain ⟨s, name, rfl, hissued, hrun⟩ := registerGroup_run hlen hlong hbound
    obtain ⟨hv, rfl⟩ := hw
    have hnamed := hv.act (.nameGroup true (addrs.headD .null)) trivial
    refine ⟨_, hrun, hnamed.act _ hissued, ?_⟩
    rw [EpochState.registry_act hnamed _ hissued,
      EpochState.registry_act hv (.nameGroup true (addrs.headD .null)) trivial]
    rfl
  · refine ⟨w, ?_, hw⟩
    unfold registerGroup
    rw [if_neg hlong]
    rfl

/-- Storing residues writes their group. -/
theorem storeMrp_holds (dstPolys : List DevAddr) (mrp : M) {base base' : List UInt64}
    (hbase : base' = base) (E : HazeInternalError → World P M → Prop) :
    Expected.Triple (Holds r) (storeMrpLocked F dstPolys mrp base')
      (fun _ => Holds (r.writeGroup (takePtrs base.length dstPolys, base))) E := by
  subst hbase
  intro w hw
  have hstores : Expected.Performs (act F) (In (Action.Stores fun _ => True))
      (Expected.forEach (storeResidue F mrp) ((takePtrs base'.length dstPolys).zip base')) :=
    .forEach fun r _ => store_stores _ _ trivial
  have hrun := forEach_storeResidue (F := F) mrp ((takePtrs base'.length dstPolys).zip base') w
  have hbound := (holds_of_performs hstores fun _ => registry_stores).ok hw hrun
  obtain ⟨w', hregister, hw'⟩ := registerGroup_holds
    (length_takePtrs ..) hbound fun a ha =>
      storeResidues_bound (.inr (by rwa [map_fst_zip_takePtrs]))
  have : storeMrpLocked F dstPolys mrp base' w = (.ok (), w') :=
    (Expected.bind_run_ok hrun).trans hregister
  rw [this]
  exact hw'

/-- Assembling a multi-residue polynomial leaves the registry alone, and takes one polynomial for
each modulus. -/
theorem buildMrp_holds (polys : List DevAddr) (base : List UInt64) :
    Expected.Triple (Holds r) (buildMrpLocked F polys base)
      (fun m w => w.Holds r ∧ ∃ pairs, m = F.fromPairs pairs ∧ pairs.map Prod.snd = base)
      (fun _ => Holds r) := by
  intro w hw
  have hkeep := holds_of_performs (buildMrp_reads (F := F) polys base)
    (fun _ => registry_reads) w hw
  rcases hb : buildMrpLocked F polys base w with ⟨e | m, w'⟩
  · rw [hb] at hkeep
    exact hkeep
  · rw [hb] at hkeep
    exact ⟨hkeep, buildMrp_value hb⟩

/-- A copy of residues writes their group. -/
theorem copyMrp_holds (env : CompilerReplies P) (d src : List DevAddr) (base : List UInt64) :
    Expected.Triple (Holds r) (copyDeviceToDeviceMrp F env d src base)
      (fun _ => Holds (r.writeGroup (takePtrs base.length d, base))) (fun _ => Holds r) := by
  refine holds_session F fun w hw => ?_
  have hcopies : Expected.Performs (act F) (In (Action.Stores fun _ => True)) (Expected.forEach
      (copyResidue F) (((takePtrs base.length d).zip (takePtrs base.length src)).zip base)) :=
    .forEach fun r _ => copyResult_stores _ _ trivial
  have hkeep := holds_of_performs hcopies (fun _ => registry_stores) w hw
  rcases hrun : Expected.forEach (copyResidue F)
      (((takePtrs base.length d).zip (takePtrs base.length src)).zip base) w with ⟨e | _, w₁⟩
  · rw [hrun] at hkeep
    rw [Expected.bind_run_error hrun]
    exact hkeep
  · rw [hrun] at hkeep
    obtain ⟨w', hregister, hw'⟩ := registerGroup_holds (length_takePtrs ..) hkeep
      (copyResidues_bound hrun)
    rw [Expected.bind_run_ok hrun, hregister]
    exact hw'

/-- An operation on two lists writes the group of its result. -/
theorem binaryPpOpMrp_holds (env : CompilerReplies P) (opFn : M → M → M)
    (d src1 src2 : List DevAddr) (base : List UInt64) :
    Expected.Triple (Holds r) (binaryPpOpMrp F env opFn d src1 src2 base)
      (fun _ => Holds (r.writeGroup (takePtrs base.length d, base))) (fun _ => Holds r) :=
  holds_session F <| .bind (buildMrp_holds src1 base) fun _ =>
    .bind ((buildMrp_holds src2 base).mono (fun _ h => h.1) (fun _ _ h => h) fun _ _ h => h)
      fun _ => (storeMrp_holds d _ rfl _).mono (fun _ h => h.1) (fun _ _ h => h) fun _ _ h => h

/-- An operation on one list writes the group of its result. -/
theorem unaryPOpMrp_holds (env : CompilerReplies P) (opFn : M → M) (d src : List DevAddr)
    (base : List UInt64) :
    Expected.Triple (Holds r) (unaryPOpMrp F env opFn d src base)
      (fun _ => Holds (r.writeGroup (takePtrs base.length d, base))) (fun _ => Holds r) :=
  holds_session F <| .bind (buildMrp_holds src base) fun _ =>
    (storeMrp_holds d _ rfl _).mono (fun _ h => h.1) (fun _ _ h => h) fun _ _ h => h

/-- A conversion writes the groups of its parameters. -/
theorem basisConvert_holds (env : CompilerReplies P) (d src : List DevAddr)
    (p : BasisConvertParams) :
    Expected.Triple (Holds r) (basisConvert F env d src p)
      (fun _ => Holds ((p.writes d).foldl Registry.writeGroup r)) (fun _ => Holds r) := by
  refine .check (fun (srcBase, dstBase) hp => ?_) fun e _ w hw => hw
  unfold BasisConvertParams.writes
  rw [hp]
  refine holds_session F (.bind (buildMrp_holds src srcBase) fun m => ?_)
  exact fun w hw => storeMrp_holds d _ rfl _ w hw.1

/-- A rescaling writes the groups of its parameters. -/
theorem modDown_holds (hF : F.LawfulBase) (env : CompilerReplies P) (d src : List DevAddr)
    (p : ModDownParams) :
    Expected.Triple (Holds r) (modDown F env d src p)
      (fun _ => Holds ((p.writes d).foldl Registry.writeGroup r)) (fun _ => Holds r) := by
  refine .check (fun (srcBase, rescaleBase) hp => ?_) fun e _ w hw => hw
  unfold ModDownParams.writes
  rw [hp]
  refine holds_session F (.bind (buildMrp_holds src srcBase) fun m => ?_)
  rintro w ⟨hw, pairs, rfl, hpairs⟩
  exact storeMrp_holds d _ (base_rescaled hF hpairs ..) _ w hw

/-- Storing the digits writes a group for each. -/
theorem storeDigits_holds (d : List DevAddr) {lift : List UInt64 → M} {base : List UInt64}
    (hbase : ∀ b, F.base (lift b) = base) (k : ℕ) (digitBases : List (List UInt64))
    (E : HazeInternalError → World P M → Prop) :
    Expected.Triple (Holds r) (storeDigits F d lift k digitBases)
      (fun _ => Holds (((List.range' k digitBases.length).map fun i =>
        (takePtrs base.length (d.drop (i * base.length)), base)).foldl Registry.writeGroup r)) E := by
  induction digitBases generalizing r k with
  | nil => exact fun w hw => hw
  | cons digitBase digitBases ih =>
    refine Expected.Triple.bind (storeMrp_holds _ _ (hbase digitBase) E) fun _ => ?_
    rw [hbase digitBase]
    exact ih (k + 1)

/-- A lifting writes the groups of its parameters. -/
theorem modUp_holds (hF : F.LawfulBase) (env : CompilerReplies P) (d src : List DevAddr)
    (p : ModUpParams) :
    Expected.Triple (Holds r) (modUp F env d src p)
      (fun _ => Holds ((p.writes d).foldl Registry.writeGroup r)) (fun _ => Holds r) := by
  refine .check (fun (srcBase, digitBases, lens, pBase) hp => ?_) fun e _ w hw => hw
  unfold ModUpParams.writes
  rw [hp]
  refine holds_session F (.bind (buildMrp_holds src srcBase) fun m => ?_)
  rintro w ⟨hw, pairs, rfl, hpairs⟩
  have hstore := storeDigits_holds (F := F) d (fun b => base_lifted hF hpairs
    (F.mrSubset (F.fromPairs pairs) b) pBase (fbcVariant w.config) (fbcCenterShape w.config)) 0
    (sliceDigits digitBases lens) (fun _ => Holds r) w hw
  rw [length_sliceDigits, ← List.range_eq_range'] at hstore
  exact hstore

end World

/-! ## Calls -/

/-- The operation of a successful call on the registry. -/
def Call.registry : Call → Registry → Registry
  | .memset devPtr _ _, r => r.invalidate devPtr
  | .tagOutput ptr, r => r.tag ptr
  | c, r => c.writes.foldl Registry.writeGroup r

/-- The operation of an invocation on the registry. A free invalidates its addresses before it
fails or not; a finalization of a recorded epoch empties the registry however it ends. -/
def Invocation.registry (F : Fhetch P M) (w : World P M) (i : Invocation P) (r : Registry) : Registry :=
  match i.call with
  | .free ptr => if ptr = .null then r else r.invalidate ptr
  | .freeMrp (some ptrs) count =>
    if count > kMaxCiphertextModuli then r
    else ((World.takePtrs count.toNat ptrs).filter (· ≠ .null)).foldl (fun r a => r.invalidate a) r
  | .flush => if w.epoch.recording && !w.config.unsupportedDataFormat then .empty else r
  | .writeProgram => if w.epoch.recording then .empty else r
  | .deviceReset => .empty
  | c => if (i.run F w).1.code = .success then c.registry r else r

/-- The registry after a program. -/
def Registry.runAll (F : Fhetch P M) : World P M → Registry → List (Invocation P) → Registry
  | _, r, [] => r
  | w, r, i :: is => Registry.runAll F (w.after F i) (i.registry F w r) is

section

variable {F : Fhetch P M} {env : CompilerReplies P} {w : World P M} {r r' : Registry}

/-- A method behind a shim: the registry becomes `r'` where the reply is a success. -/
theorem World.Holds.replied {y : Method P M Unit} {ok : Reply} (hok : ok.code = .success)
    (h : Expected.Triple (World.Holds r) y (fun _ => World.Holds r') fun _ => World.Holds r)
    (hw : w.Holds r) :
    (Shim.replyWith (fun _ => ok) y w).2.Holds
      (if (Shim.replyWith (fun _ => ok) y w).1.code = .success then r' else r) := by
  unfold Shim.replyWith
  rcases hy : y w with ⟨e | _, w'⟩
  · have hfails : (Reply.setError (toPublicError e)).code ≠ .success := toPublicError_ne_success e
    dsimp only
    rw [if_neg hfails]
    exact h.error hw hy
  · dsimp only
    rw [if_pos hok]
    exact h.ok hw hy

/-- A method behind a shim that makes the registry `r'` whether it fails or not. -/
theorem World.Holds.always {y : Method P M Unit}
    (h : Expected.Triple (World.Holds r) y (fun _ => World.Holds r') fun _ => World.Holds r')
    (hw : w.Holds r) : (Shim.setInternalResult y w).2.Holds r' := by
  rw [Shim.setInternalResult, Shim.replyWith_state]
  rcases hy : y w with ⟨e | _, w'⟩
  · exact h.error hw hy
  · exact h.ok hw hy

/-- A rejected call leaves the registry alone. -/
theorem World.Holds.guarded {y : Method P M Unit} {ok : Reply} (hok : ok.code = .success)
    (rejected : Bool)
    (h : Expected.Triple (World.Holds r) y (fun _ => World.Holds r') fun _ => World.Holds r)
    (hw : w.Holds r) :
    (Shim.guarded rejected (Shim.replyWith (fun _ => ok) y) w).2.Holds
      (if (Shim.guarded rejected (Shim.replyWith (fun _ => ok) y) w).1.code = .success
        then r' else r) := by
  cases rejected with
  | true => exact hw
  | false => exact World.Holds.replied hok h hw

/-- An entry with arrays writes what its method writes when all of them are there. -/
theorem World.Holds.withArrays {dst src : Option (List DevAddr)} {base : Option (List UInt64)}
    {x : List DevAddr → List DevAddr → List UInt64 → Method P M Unit}
    (h : ∀ d s b, Expected.Triple (World.Holds r) (x d s b)
      (fun _ => World.Holds (r.writeGroup (World.takePtrs b.length d, b))) fun _ => World.Holds r)
    (hw : w.Holds r) :
    (Haze.withArrays dst src base x w).2.Holds
      (if (Haze.withArrays dst src base x w).1.code = .success
        then (residueWrites dst base).foldl Registry.writeGroup r else r) := by
  rcases dst with _ | d
  · exact hw
  rcases src with _ | s
  · exact hw
  rcases base with _ | b
  · exact hw
  · exact World.Holds.guarded rfl _ (h d s b) hw

/-- A call whose actions leave the registry alone. -/
theorem World.Holds.steps {C : Action P M → Prop} {w' : World P M} (h : World.Steps F C w w')
    (hC : ∀ x, C x → x.registry = id) (hw : w.Holds r) : w'.Holds r :=
  h.preserves (I := World.Holds r)
    (fun v x hx hv => by have := hv.act (F := F) hx.2; rwa [hC x hx.1] at this) hw

/-- In a session no group changes but by what the body does. -/
theorem registry_inSession {C : Action P M → Prop} (hC : ∀ x, C x → x.registry = id)
    {x : Action P M} (h : x.InSession C) : x.registry = id := by
  cases x with
  | session env => rfl
  | _ => exact hC _ h

/-- The allocator is apart from the registry. -/
theorem World.Holds.onAllocator (y : DeviceAllocator.Method Unit) :
    Expected.Triple (World.Holds r) (World.onAllocator y : Method P M Unit)
      (fun _ => World.Holds r) fun _ => World.Holds r := by
  intro w hw
  unfold World.onAllocator
  rw [Expected.zoom_run]
  rcases y w.allocator with ⟨e | _, s⟩
  · exact hw
  · exact hw

/-- Invalidating an address invalidates it in the registry. -/
theorem World.Holds.invalidate (a : DevAddr) (E : HazeInternalError → World P M → Prop) :
    Expected.Triple (World.Holds r) (World.modifyEpoch (EpochState.invalidate a) : Method P M Unit)
      (fun _ => World.Holds (r.invalidate a)) E := by
  rintro w ⟨hv, rfl⟩
  exact ⟨hv.invalidate a, EpochState.registry_invalidate hv a⟩

/-- Invalidating a pointer does, unless it is null. -/
theorem World.Holds.invalidateNonNull (a : DevAddr) (E : HazeInternalError → World P M → Prop) :
    Expected.Triple (World.Holds r) (Haze.invalidateNonNull a : Method P M Unit)
      (fun _ => World.Holds (if a = .null then r else r.invalidate a)) E := by
  unfold Haze.invalidateNonNull
  by_cases ha : a = .null
  · rw [if_neg (not_not.mpr ha), if_pos ha]
    exact fun w hw => hw
  · rw [if_pos ha, if_neg ha]
    exact World.Holds.invalidate a E

/-- Invalidating pointers invalidates those that are not null. -/
theorem World.Holds.invalidateAll (addrs : List DevAddr)
    (E : HazeInternalError → World P M → Prop) :
    Expected.Triple (World.Holds r) (Expected.forEach Haze.invalidateNonNull addrs : Method P M Unit)
      (fun _ => World.Holds ((addrs.filter (· ≠ .null)).foldl (fun r a => r.invalidate a) r)) E := by
  induction addrs generalizing r with
  | nil => exact fun w hw => hw
  | cons a addrs ih =>
    rw [Expected.forEach_cons]
    refine .bind (World.Holds.invalidateNonNull a E) fun _ => ?_
    by_cases ha : a = .null
    · rw [if_pos ha, List.filter_cons_of_neg (by simp [ha])]
      exact ih
    · rw [if_neg ha, List.filter_cons_of_pos (by simp [ha])]
      exact ih

/-- A finalization of a recorded epoch empties the registry. -/
theorem World.Holds.finalize (env : CompilerReplies P) (runReplay : Bool) (hw : w.Holds r) :
    (World.finalizeLocked F env runReplay w).2.Holds
      (if w.epoch.recording = true then .empty else r) := by
  split_ifs with hrec
  · obtain ⟨v, -, hv, -⟩ := World.finalize_ends (F := F) env runReplay hw.1.consistent hrec
    rw [hv]
    exact ⟨EpochState.valid_init, rfl⟩
  · unfold World.finalizeLocked
    rw [Expected.get_bind_run, if_pos (by simpa using hrec)]
    exact hw

/-- What an invocation does to the registry. -/
theorem World.Holds.after (hF : F.LawfulBase) (hw : w.Holds r) (i : Invocation P) :
    (w.after F i).Holds (i.registry F w r) := by
  obtain ⟨env, c⟩ := i
  -- Most calls leave the registry as it is.
  have hkeep : ∀ {C : Action P M → Prop}, World.Steps F C w (c.run F env w).2 →
      (∀ x, C x → x.registry = id) → ∀ p : Prop, [Decidable p] → (c.run F env w).2.Holds
        (if p then r else r) := fun h hC p _ => by
    rw [ite_self]
    exact hw.steps h hC
  -- Single stores do too, although they open a session.
  have hstores : ∀ {y : Method P M Unit}, World.Opens F env (Action.Stores fun _ => True) y w →
      ∀ rejected : Bool, ∀ p : Prop, [Decidable p] →
        (Shim.guarded rejected (Shim.setInternalResult y) w).2.Holds (if p then r else r) :=
    fun h rejected p _ => by
      rw [ite_self]
      exact hw.steps (.guarded (.replyWith h.performs _) rejected) fun _ =>
        registry_inSession fun _ => World.registry_stores
  cases c with
  -- The calls on single residues, then those on several, then what is left.
  | pp op dst src1 src2 modIdx =>
    cases op <;> exact hstores (World.binaryPpOp_opens env _ src1 src2 modIdx trivial w) _ _
  | ps op dst src scalar modIdx =>
    cases op <;> exact hstores (World.unaryPqOp_opens env _ src modIdx trivial w) _ _
  | transform op dst src modIdx =>
    cases op <;> exact hstores (World.unaryPqOp_opens env _ src modIdx trivial w) _ _
  | automorph dst src index => exact hstores (World.unaryPiOp_opens env _ src index trivial w) _ _
  | ppMrp op dst src1 src2 base =>
    -- A refused call has registered nothing.
    rcases src2 with _ | src2
    · cases op <;> exact hw
    · cases op <;> exact World.Holds.withArrays (fun d s b =>
        World.binaryPpOpMrp_holds env _ d s src2 b) hw
  | psMrp op dst src scalars base =>
    rcases scalars with _ | scalars
    · cases op <;> exact hw
    · cases op <;> exact World.Holds.withArrays (fun d s b =>
        World.unaryPOpMrp_holds env _ d s b) hw
  | transformMrp op dst src base =>
    cases op <;> exact World.Holds.withArrays (fun d s b =>
      World.unaryPOpMrp_holds env _ d s b) hw
  | indexMrp op dst src index base =>
    cases op <;> exact World.Holds.withArrays (fun d s b =>
      World.unaryPOpMrp_holds env _ d s b) hw
  | basisConvert dst src params =>
    rcases dst with _ | dst
    · exact hw
    rcases src with _ | src
    · exact hw
    rcases params with _ | p
    · exact hw
    · exact World.Holds.replied rfl (World.basisConvert_holds env dst src p) hw
  | modDown dst src params =>
    rcases dst with _ | dst
    · exact hw
    rcases src with _ | src
    · exact hw
    rcases params with _ | p
    · exact hw
    · exact World.Holds.replied rfl (World.modDown_holds hF env dst src p) hw
  | modUp dst src params =>
    rcases dst with _ | dst
    · exact hw
    rcases src with _ | src
    · exact hw
    rcases params with _ | p
    · exact hw
    · exact World.Holds.replied rfl (World.modUp_holds hF env dst src p) hw
  | malloc ptr size =>
    refine hkeep (Call.performs env (.malloc ptr size) w) (fun x hx => ?_) _
    cases x <;> first | rfl | exact hx.elim
  | mallocMrp ptrs count size =>
    refine hkeep (Call.performs env (.mallocMrp ptrs count size) w) (fun x hx => ?_) _
    cases x <;> first | rfl | exact hx.elim
  | free ptr =>
    exact World.Holds.always (.bind (World.Holds.invalidateNonNull ptr _) fun _ =>
      World.Holds.onAllocator (DeviceAllocator.free ptr)) hw
  | freeMrp ptrs count =>
    rcases ptrs with _ | ptrs
    · exact hw
    unfold Invocation.registry
    dsimp only
    -- A list that is too long is refused before anything is invalidated.
    split_ifs with hcount
    · change (Shim.guarded (decide (count > kMaxCiphertextModuli)) _ w).2.Holds r
      rw [decide_eq_true hcount]
      exact hw
    · change (Shim.guarded (decide (count > kMaxCiphertextModuli)) _ w).2.Holds _
      rw [decide_eq_false hcount]
      exact World.Holds.always (.bind (World.Holds.invalidateAll _ _) fun _ =>
        World.Holds.onAllocator _) hw
  | memcpy transfer count =>
    have hperforms := Call.performs (F := F) env (.memcpy transfer count) w
    cases transfer with
    | hostToDevice dst src =>
      exact hkeep hperforms (fun _ => registry_inSession fun _ => World.registry_uploads) _
    | deviceToDevice dst src => exact hstores (World.copyDeviceToDevice_opens env src trivial w) _ _
    | deviceToHost dst src => exact hkeep hperforms (fun x hx => hx.elim) _
    | unknownKind => exact hw
  | memcpyMrp transfer count base =>
    have hperforms := Call.performs (F := F) env (.memcpyMrp transfer count base) w
    cases transfer with
    | hostToDevice dst src =>
      exact hkeep hperforms (fun _ => registry_inSession fun _ => World.registry_uploads) _
    | deviceToDevice dst src =>
      rcases dst with _ | dst
      · exact hw
      rcases src with _ | src
      · exact hw
      rcases base with _ | base
      · exact hw
      · exact World.Holds.guarded rfl _ (World.copyMrp_holds env dst src base) hw
    | deviceToHost dst src => exact hkeep hperforms (fun x hx => hx.elim) _
    | unknownKind => exact hw
  | memset devPtr value count =>
    exact World.Holds.guarded rfl _ (.bind (World.Holds.onAllocator _) fun _ =>
      World.Holds.invalidate devPtr _) hw
  | tagOutput ptr =>
    refine World.Holds.guarded rfl _ ?_ hw
    rintro w ⟨hv, rfl⟩
    have htag := EpochState.registry_tagOutput hv ptr
    have hvalid := hv.tagOutput ptr
    unfold World.onEpoch
    rw [Expected.zoom_run]
    -- Tagging succeeds exactly for an address that is bound.
    by_cases hb : ptr ∈ w.epoch.polyMap
    · have hok : (EpochState.tagOutputLocked ptr w.epoch).1 = .ok () := by
        unfold EpochState.tagOutputLocked
        rw [if_neg (not_not.mpr hb)]
        rcases AList.lookup ptr w.epoch.addrToMrpGroups with _ | names <;> rfl
      rw [hok]
      exact ⟨hvalid, htag⟩
    · have herror : EpochState.tagOutputLocked ptr w.epoch = (.error .sourceUnavailable, w.epoch) := by
        unfold EpochState.tagOutputLocked
        rw [if_pos hb]
      rw [herror]
      exact ⟨hv, rfl⟩
  | flush =>
    change (Shim.replyWith _ (World.flush F env) w).2.Holds
      (if w.epoch.recording && !w.config.unsupportedDataFormat then .empty else r)
    rw [Shim.replyWith_state, World.flush, Expected.get_bind_run]
    -- A flush clears the registry where its format is supported and something is recorded.
    rcases w.config.unsupportedDataFormat
    · have hfinal := hw.finalize (F := F) env true
      simpa using hfinal
    · simpa using hw
  | writeProgram =>
    change (Shim.replyWith _ (World.finalizeLocked F env false) w).2.Holds _
    rw [Shim.replyWith_state]
    exact hw.finalize env false
  | deviceReset => exact ⟨EpochState.valid_init, rfl⟩
  | setRingDimension n =>
    refine hkeep (Call.performs env (.setRingDimension n) w) (fun x hx => ?_) _
    subst hx
    rfl
  | config call =>
    refine hkeep (Call.performs env (.config call) w) (fun x hx => ?_) _
    obtain ⟨c, rfl⟩ := hx
    rfl

/-- The pairs of a tagged entry: the bindings of its addresses, in order, with its moduli. -/
def World.Bundles (w : World P M) (e : RegistryEntry) (pairs : List (P × UInt64)) : Prop :=
  pairs.map (fun p => some p.1) = e.addrs.map w.binding ∧ pairs.map Prod.snd = e.moduli

/-- Where every address of a group is bound, its pairs are the bindings with the moduli. -/
theorem World.bundles_groupPairs {group : MrpGroup} (hlen : group.addrs.length = group.moduli.length)
    (hbound : ∀ a ∈ group.addrs, a ∈ w.epoch.polyMap) (tagged : Bool) :
    w.Bundles ⟨group.addrs, group.moduli, tagged⟩ (World.groupPairs w.epoch group) := by
  obtain ⟨addrs, moduli⟩ := group
  unfold World.Bundles World.groupPairs World.binding
  dsimp only at hlen hbound ⊢
  induction addrs generalizing moduli with
  | nil =>
    rw [List.length_nil] at hlen
    rw [List.eq_nil_of_length_eq_zero hlen.symm]
    exact ⟨rfl, rfl⟩
  | cons a addrs ih =>
    rcases moduli with _ | ⟨q, moduli⟩
    · cases hlen
    obtain ⟨poly, hp⟩ := UMap.mem_iff_lookup.mp (hbound a (List.mem_cons_self ..))
    obtain ⟨h₁, h₂⟩ := ih moduli (Nat.succ.inj hlen) fun b hb => hbound b (List.mem_cons_of_mem _ hb)
    rw [List.zip_cons_cons, List.filterMap_cons_some (by rw [hp, Option.map_some])]
    refine ⟨?_, ?_⟩
    · rw [List.map_cons, List.map_cons, h₁, hp]
    · rw [List.map_cons, h₂]

/-- The pairs of an entry are determined by its members. -/
theorem World.Bundles.unique {e : RegistryEntry} {pairs pairs' : List (P × UInt64)}
    (h : w.Bundles e pairs) (h' : w.Bundles e pairs') : pairs = pairs' := by
  have hfst : pairs.map Prod.fst = pairs'.map Prod.fst := by
    have := h.1.trans h'.1.symm
    refine (List.map_injective_iff.mpr (Option.some_injective P)) ?_
    rw [List.map_map, List.map_map]
    exact this
  have hsnd := h.2.trans h'.2.symm
  calc pairs = (pairs.map Prod.fst).zip (pairs.map Prod.snd) := List.zip_of_prod rfl rfl
    _ = (pairs'.map Prod.fst).zip (pairs'.map Prod.snd) := by rw [hfst, hsnd]
    _ = pairs' := (List.zip_of_prod rfl rfl).symm

/-- The groups that a finalization tags are the tagged entries, under distinct names. -/
theorem World.taggedGroups_spec (env : CompilerReplies P) (hw : w.Holds r) :
    ((World.taggedGroups F env w).map Prod.fst).Nodup ∧
      ∀ name m, (name, m) ∈ World.taggedGroups F env w ↔ ∃ a e pairs, r a = some e ∧
        e.tagged = true ∧ AList.lookup a w.epoch.mrpOutNames = some name ∧ w.Bundles e pairs ∧
        m = F.fromPairs pairs := by
  obtain ⟨hv, rfl⟩ := hw
  -- A group is bundled with what its members are bound to.
  have hbundle : ∀ name group tagged, AList.lookup name w.epoch.knownMrpGroups = some group →
      w.Bundles ⟨group.addrs, group.moduli, tagged⟩ (World.groupPairs w.epoch group) :=
    fun name group tagged hg => World.bundles_groupPairs (hv.consistent.lengths name group hg)
      (fun a ha => hv.consistent.member_bound name a ⟨group, hg, ha⟩) tagged
  refine ⟨?_, fun name m => ?_⟩
  -- No two groups have one name, whatever the order they are visited in.
  · unfold World.taggedGroups
    rw [List.map_filterMap]
    refine List.Nodup.filterMap (fun n n' name hn hn' => ?_)
      ((env.groupOrder.perm _).nodup_iff.mpr (AList.keys_nodup _))
    simp only [Option.map_map, Option.mem_def, Option.map_eq_some_iff] at hn hn'
    obtain ⟨_, -, rfl⟩ := hn
    obtain ⟨_, -, heq⟩ := hn'
    exact heq.symm
  · unfold World.taggedGroups
    simp only [List.mem_filterMap, IterationOrder.mem_order, Option.map_eq_some_iff, Prod.mk.injEq]
    -- A tagged group stands in the registry under the address that leads it.
    constructor
    · rintro ⟨n, hn, group, hg, rfl, rfl⟩
      exact ⟨group.addrs.headD .null, ⟨group.addrs, group.moduli, true⟩, _,
        EpochState.registry_eq_some.mpr ⟨n, (hv.named.leading n group hg).2, hg,
          iff_of_true rfl (AList.mem_keys.mpr hn)⟩, rfl, (hv.named.leading n group hg).2,
        hbundle n group true hg, rfl⟩
    · rintro ⟨a, e, pairs, he, htagged, hname, hpairs, rfl⟩
      obtain ⟨n, hname', hg, hpending⟩ := EpochState.registry_eq_some.mp he
      rw [hname] at hname'
      cases hname'
      refine ⟨name, AList.mem_keys.mp (hpending.mp htagged), _, hg, rfl, ?_⟩
      rw [(hbundle name _ e.tagged hg).unique hpairs]

end

/-- The registry over programs. After every program the epoch's maps correspond to the registry in
which the latest write wins; tagging the pending outputs there, and so the finalization of a
recorded epoch, tags exactly the tagged entries, each once and with the current bindings of its
addresses and its moduli. -/
theorem registry_refines (F : Fhetch P M) (hF : F.LawfulBase) (is : List (Invocation P)) :
    let w := World.runAll F World.init is
    let r := Registry.runAll F World.init .empty is
    w.epoch.Refines r ∧
      ∀ env, ∃ groups,
        (World.tagPendingOutputsLocked F env w).1 = .ok () ∧
        World.groupOutputs (World.tagPendingOutputsLocked F env w).2.compiler =
          World.groupOutputs w.compiler ++ groups ∧
        (∀ runReplay, w.epoch.recording = true →
          World.groupOutputs (World.finalizeLocked F env runReplay w).2.compiler =
            World.groupOutputs w.compiler ++ groups) ∧
        (groups.map Prod.fst).Nodup ∧
        ∀ name m, (name, m) ∈ groups ↔ ∃ a e pairs, r a = some e ∧ e.tagged = true ∧
          AList.lookup a w.epoch.mrpOutNames = some name ∧ w.Bundles e pairs ∧
          m = F.fromPairs pairs := by
  -- By induction on the run, for any state and registry that agree.
  have hall : ∀ (w : World P M) r, w.Holds r →
      (World.runAll F w is).Holds (Registry.runAll F w r is) := by
    induction is with
    | nil => exact fun w r hw => hw
    | cons i is ih => exact fun w r hw => ih (w.after F i) _ (hw.after hF i)
  have hw := hall World.init .empty ⟨EpochState.valid_init, rfl⟩
  intro w r
  have hrefines := hw.1.refines
  rw [hw.2] at hrefines
  refine ⟨hrefines, fun env => ⟨World.taggedGroups F env w, ?_, ?_, ?_,
    World.taggedGroups_spec env hw⟩⟩
  · rw [World.tagPendingOutputs_run env hw.1.consistent]
  · rw [World.tagPendingOutputs_run env hw.1.consistent, World.groupOutputs_append,
      World.groupOutputs_tagCalls]
  -- The clearing at the end announces no group.
  · intro runReplay hrec
    obtain ⟨v, hv, hgroups⟩ := World.finalize_groups (F := F) env runReplay hw.1.consistent hrec
    rw [hv]
    change World.groupOutputs (v.compiler ++ [.clearCaptured]) = _
    rw [World.groupOutputs_append, hgroups]
    exact List.append_nil _

/-- The library at ring dimension one has the bases that the contract says. -/
theorem scalarRing_lawfulBase : scalarRing.LawfulBase where
  base_fromPairs _ := rfl
  base_fastBaseConvert m base variant shape := by
    change (base.map _).map _ = base
    rw [List.map_map]
    exact List.map_id base
  base_rescaleFbc m base variant shape := by
    change (m.filter fun r => r.2 ∉ base).map Prod.snd = (m.map Prod.snd).filter (· ∉ base)
    rw [List.filter_map]
    rfl

/-- Two residues written and tagged, and then one of them written with a third. -/
theorem registry_refines_example :
    let is := scalarProgram [.setRingDimension 1, .mallocMrp true 3 8,
      .memcpyMrp (.hostToDevice (some [⟨kHbmBase⟩, ⟨kHbmBase + 8⟩])
        (some [some [5, 0, 0, 0, 0, 0, 0, 0], some [6, 0, 0, 0, 0, 0, 0, 0]])) 8 (some [17, 19]),
      .ppMrp .add (some [⟨kHbmBase⟩, ⟨kHbmBase + 8⟩]) (some [⟨kHbmBase⟩, ⟨kHbmBase + 8⟩])
        (some [⟨kHbmBase⟩, ⟨kHbmBase + 8⟩]) (some [17, 19]),
      .tagOutput ⟨kHbmBase⟩,
      .transformMrp .ntt (some [⟨kHbmBase + 16⟩, ⟨kHbmBase + 8⟩])
        (some [⟨kHbmBase⟩, ⟨kHbmBase + 8⟩]) (some [17, 19])]
    (World.runAll scalarRing World.init is).epoch.Refines
      (Registry.runAll scalarRing World.init .empty is) :=
  (registry_refines scalarRing scalarRing_lawfulBase _).1

end Haze
