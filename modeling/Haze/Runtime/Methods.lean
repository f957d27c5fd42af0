import Haze.Runtime.Actions

/-!
# What the methods perform

For each method of the runtime, the class of actions that it performs: sources are resolved by
`Reads`, operations are a session and a `Body` on their destinations, an upload writes its address
and binds it, and a finalization writes the words of pending outputs and drops the epoch.
-/

namespace Haze

variable {P M : Type}

/-- Calls that each capture nothing capture nothing together. -/
theorem quiet_map {β : Type} (f : β → CompilerCall P M) (bs : List β)
    (h : ∀ b outputs, (f b).capture outputs = outputs) : Quiet (bs.map f) := by
  intro outputs
  induction bs with
  | nil => rfl
  | cons b bs ih =>
    rw [List.map_cons, List.foldl_cons, h]
    exact ih

namespace Action

/-- A session, or an action of a class. -/
def InSession (C : Action P M → Prop) : Action P M → Prop
  | .session _ => True
  | x => C x

/-- The actions of an upload to addresses of `dst`, after its session is opened or before. -/
def Uploads (dst : DevAddr → Prop) : Action P M → Prop
  | .allocator (.write a _) => dst a
  | .epoch (.bindInput a _) => dst a
  | .epoch (.dropTag a) => dst a
  | .calls cs => Quiet cs
  | _ => False

/-- The actions of a memset. -/
def Clears (dst : DevAddr → Prop) : Action P M → Prop
  | .allocator (.write a _) => dst a
  | .epoch (.invalidate a) => dst a
  | _ => False

/-- The actions of allocations. -/
def Allocates : Action P M → Prop
  | .allocator .allocateOne => True
  | .allocator (.freeOne _) => True
  | _ => False

/-- The actions that free addresses of `dst`. -/
def Frees (dst : DevAddr → Prop) : Action P M → Prop
  | .allocator (.freeOne a) => dst a
  | .epoch (.invalidate a) => dst a
  | _ => False

/-- The actions that finalize an epoch whose tagged addresses are `pending`. -/
def Finalizes (pending : DevAddr → Prop) : Action P M → Prop
  | .allocator (.write a _) => pending a
  | .calls _ => True
  | .hook _ => True
  | .clearState => True
  | _ => False

/-- An action of the body is one of the session. -/
theorem inSession {C : Action P M → Prop} {x : Action P M} (h : C x) : x.InSession C := by
  cases x <;> first | exact h | trivial

end Action

namespace World

section

variable {F : Fhetch P M} {C : Action P M → Prop} {dst : DevAddr → Prop}

/-- The rest of a method whose state and value are known. -/
theorem performs_bind_eq {α β : Type} {x : Method P M α} {f : α → Method P M β} {w w' : World P M}
    {a : α} (hx : Expected.PerformsAt (act F) (In C) x w) (he : x w = (.ok a, w'))
    (hf : Expected.PerformsAt (act F) (In C) (f a) w') :
    Expected.PerformsAt (act F) (In C) (x >>= f) w := by
  refine hx.bind fun b w'' hb => ?_
  rw [he] at hb
  cases hb
  exact hf

/-- From a state, the method opens a session and then performs actions of a class. -/
def Opens (F : Fhetch P M) (env : CompilerReplies P) (C : Action P M → Prop) (y : Method P M Unit)
    (w : World P M) : Prop :=
  ∃ x : Method P M Unit, y w = (epochSession env >>= fun _ => x) w ∧
    Expected.Performs (act F) (In C) x

/-- What is allowed in a session may be widened. -/
theorem Opens.mono {D : Action P M → Prop} (hCD : ∀ x, C x → D x) {env : CompilerReplies P}
    {y : Method P M Unit} {w : World P M} (h : Opens F env C y w) : Opens F env D y w := by
  obtain ⟨x, he, hx⟩ := h
  exact ⟨x, he, hx.mono fun _ _ h => h.mono hCD⟩

/-- What a method performs that opens a session. -/
theorem Opens.performs {env : CompilerReplies P} {y : Method P M Unit} {w : World P M}
    (h : Opens F env C y w) : Expected.PerformsAt (act F) (In (Action.InSession C)) y w := by
  obtain ⟨x, he, hx⟩ := h
  have hx : Expected.Performs (act F) (In (Action.InSession C)) x :=
    hx.mono fun _ _ h => h.mono fun _ => Action.inSession
  obtain ⟨as, has, hfold⟩ := Expected.Performs.bind (epochSession_performs env trivial)
    (fun _ => hx) w
  exact ⟨as, has, he ▸ hfold⟩

/-! ## Sources -/

/-- The lookup of a residue only reads. -/
theorem lookupResidue_reads (residue : DevAddr × UInt64) :
    Expected.Performs (act F) (In Action.Reads) (lookupResidue F residue) :=
  .bind (lookup_reads residue.1) fun poly => .pure (poly, residue.2)

/-- Tagging a multi-residue input only reads. -/
theorem tagMrpInputIfNew_reads (name : ProbeName) (mrp : M) :
    Expected.Performs (act F) (In Action.Reads) (tagMrpInputIfNewLocked name mrp) := by
  refine .get_bind fun w => ?_
  split_ifs
  · exact .of_unchanged rfl
  · exact .bind (modifyEpoch_performs (.tagMrpInputName name) rfl trivial trivial) fun _ w' _ =>
      call_performs [.tagInputMrp name mrp] (fun _ => rfl) w'

/-- Building a multi-residue polynomial only reads. -/
theorem buildMrp_reads (polys : List DevAddr) (base : List UInt64) :
    Expected.Performs (act F) (In Action.Reads) (buildMrpLocked F polys base) := by
  refine .bind (.mapEach fun residue _ => lookupResidue_reads residue) fun pairs => ?_
  refine .get_bind fun w => ?_
  split_ifs
  · refine .bind (onEpoch_performs (.nameGroup false _) rfl trivial trivial) fun name w' _ => ?_
    exact Expected.Performs.bind (tagMrpInputIfNew_reads name (F.fromPairs pairs))
      (fun _ => .pure (F.fromPairs pairs)) w'
  · exact .of_unchanged rfl

/-! ## Destinations -/

/-- Residues bound one after the other. -/
def storeResidues (F : Fhetch P M) (mrp : M) (residues : List (DevAddr × UInt64))
    (s : EpochState P) : EpochState P :=
  residues.foldl (fun s r => s.storeComputeResultLocked r.1 (F.residue mrp r.2) r.2) s

/-- A loop of stores changes the epoch alone. -/
theorem forEach_storeResidue (mrp : M) (residues : List (DevAddr × UInt64)) (w : World P M) :
    Expected.forEach (storeResidue F mrp) residues w =
      (.ok (), { w with epoch := storeResidues F mrp residues w.epoch }) :=
  forEach_modifyEpoch
    (fun (r : DevAddr × UInt64) s => s.storeComputeResultLocked r.1 (F.residue mrp r.2) r.2) residues w

/-- Stores unbind nothing, and bind what they store to. -/
theorem storeResidues_bound {mrp : M} {residues : List (DevAddr × UInt64)} {s : EpochState P}
    {a : DevAddr} (h : a ∈ s.polyMap ∨ a ∈ residues.map Prod.fst) :
    a ∈ (storeResidues F mrp residues s).polyMap := by
  induction residues generalizing s with
  | nil => exact h.resolve_right List.not_mem_nil
  | cons r rs ih =>
    refine ih ?_
    rcases h with h | h
    · exact .inl ((AList.mem_insert _).mpr (.inr h))
    · rcases List.mem_cons.mp h with rfl | h
      · exact .inl ((AList.mem_insert _).mpr (.inl rfl))
      · exact .inr h

/-- The name of an output group is recorded for its leading address. -/
theorem outputName_spec (leading : DevAddr) (s : EpochState P) :
    ∃ name s', EpochState.mrpGroupNameLocked true leading s = (.ok name, s') ∧
      AList.lookup leading s'.mrpOutNames = some name ∧ s'.polyMap = s.polyMap := by
  unfold EpochState.mrpGroupNameLocked
  rw [if_pos rfl]
  rcases hl : AList.lookup leading s.mrpOutNames with _ | name
  · exact ⟨_, _, rfl, AList.lookup_insert _, rfl⟩
  · exact ⟨name, s, rfl, hl, rfl⟩

/-- A group with a modulus for each address is registered. -/
theorem register_ok {addrs : List DevAddr} {base : List UInt64} (hlen : addrs.length = base.length)
    (name : ProbeName) (s : EpochState P) :
    (EpochState.registerMrpOutputGroupLocked addrs base name s).1 = .ok () := by
  unfold EpochState.registerMrpOutputGroupLocked
  rw [if_neg (not_not.mpr hlen)]
  rcases AList.lookup name s.knownMrpGroups with _ | existing
  · rfl
  · dsimp only
    split_ifs <;> rfl

/-- Several destinations that are bound are registered as a group under the name of the first. -/
theorem registerGroup_run {addrs : List DevAddr} {base : List UInt64} {w : World P M}
    (hlen : addrs.length = base.length) (hlong : 1 < base.length)
    (hbound : ∀ a ∈ addrs, a ∈ w.epoch.polyMap) :
    ∃ s name, s = w.epoch.act (.nameGroup true (addrs.headD .null)) ∧
      s.Issued (.register addrs base name) ∧
      registerGroup addrs base w = (.ok (), { w with epoch := s.act (.register addrs base name) }) := by
  obtain ⟨name, s, hs, hname, hpoly⟩ := outputName_spec (addrs.headD .null) w.epoch
  refine ⟨s, name, by rw [EpochState.act, hs], ⟨hlen, hlen ▸ hlong, hname, ?_⟩, ?_⟩
  · intro a ha
    rw [hpoly]
    exact hbound a ha
  have hrun : onEpoch (EpochState.mrpGroupNameLocked true (addrs.headD .null)) w =
      (.ok name, { w with epoch := s }) := by
    rw [onEpoch, Expected.zoom_run, hs]
  unfold registerGroup
  rw [if_pos hlong, Expected.bind_run_ok hrun, onEpoch, Expected.zoom_run, register_ok hlen]
  rfl

/-- The destinations are registered as a group after they were bound. -/
theorem registerGroup_performs {addrs : List DevAddr} {base : List UInt64} {w : World P M}
    (hlen : addrs.length = base.length) (hbound : ∀ a ∈ addrs, a ∈ w.epoch.polyMap) :
    Expected.PerformsAt (act F) (In (Action.Body dst)) (registerGroup addrs base) w := by
  by_cases hlong : 1 < base.length
  · obtain ⟨s, name, rfl, hissued, hrun⟩ := registerGroup_run hlen hlong hbound
    refine ⟨[.epoch (.nameGroup true (addrs.headD .null)), .epoch (.register addrs base name)],
      ⟨⟨trivial, trivial⟩, ⟨trivial, hissued⟩, trivial⟩, ?_⟩
    rw [hrun]
    rfl
  · unfold registerGroup
    rw [if_neg hlong]
    exact .of_unchanged rfl

/-- The pointers are as many as are asked for. -/
theorem length_takePtrs (len : ℕ) (ptrs : List DevAddr) : (takePtrs len ptrs).length = len :=
  List.takeD_length ..

/-- The pointers of residues are those that are asked for. -/
theorem map_fst_zip_takePtrs (base : List UInt64) (ptrs : List DevAddr) :
    ((takePtrs base.length ptrs).zip base).map Prod.fst = takePtrs base.length ptrs :=
  List.map_fst_zip (length_takePtrs ..).le

/-- Storing residues is allowed in the body. -/
theorem storeMrp_body (dstPolys : List DevAddr) (mrp : M) (base : List UInt64)
    (h : ∀ a ∈ takePtrs base.length dstPolys, dst a) :
    Expected.Performs (act F) (In (Action.Body dst)) (storeMrpLocked F dstPolys mrp base) := by
  intro w
  refine performs_bind_eq ?_ (forEach_storeResidue ..) (registerGroup_performs ?_ fun a ha => ?_)
  · refine Expected.Performs.forEach (fun r hr w' => ?_) w
    exact modifyEpoch_performs (.store r.1 (F.residue mrp r.2) r.2) rfl
      (h r.1 (List.of_mem_zip hr).1) trivial
  · exact length_takePtrs ..
  · exact storeResidues_bound (.inr (by rwa [map_fst_zip_takePtrs]))

/-! ## Copies -/

/-- Binding moduli calls the compiler and changes nothing else. -/
theorem bindModulus_run (polys : List P) (q : UInt64) (w : World P M) :
    ∃ cs, Quiet cs ∧ bindModulus polys q w = (.ok (), { w with compiler := w.compiler ++ cs }) := by
  unfold bindModulus
  split_ifs
  · exact ⟨_, quiet_map _ _ fun _ _ => rfl, rfl⟩
  · exact ⟨[], fun _ => rfl, by rw [List.append_nil]; rfl⟩

/-- Binding moduli is allowed where stores are. -/
theorem bindModulus_performs (polys : List P) (q : UInt64) :
    Expected.Performs (act F) (In (Action.Stores dst)) (bindModulus polys q) := by
  intro w
  obtain ⟨cs, hq, he⟩ := bindModulus_run polys q w
  exact .of_action (.calls cs) ⟨hq, trivial⟩ (by rw [he]; rfl)

/-- The modulus of a copy: that of the caller, or the one recorded for the source. -/
def copyModulus (src : DevAddr) (q : UInt64) (s : EpochState P) : UInt64 :=
  if q = kCopyModulus then s.recordedModulusLocked src else q

/-- The epoch after a copy of a resolved source. -/
def copied (F : Fhetch P M) (d src : DevAddr) (q : UInt64) (poly : P) (s : EpochState P) :
    EpochState P :=
  let q' := copyModulus src q s
  (if q' ≠ kCopyModulus then s.recordModulus src q' else s).storeComputeResultLocked d
    (F.srAddps poly 0 kCopyModulus) q'

/-- A copy succeeds when its source resolves. -/
theorem copyResult_run {d src : DevAddr} {q : UInt64} {w w' : World P M} {poly : P}
    (h : lookupOrCreateLocked F src w = (.ok poly, w')) :
    ∃ cs, Quiet cs ∧ copyResultLocked F d src q w = (.ok (), { w' with
      epoch := copied F d src q poly w'.epoch
      compiler := w'.compiler ++ cs }) := by
  -- Whatever the modulus is, the copy announces it and then stores.
  have htail : ∀ m, ∃ cs, Quiet cs ∧
      (bindModulus [poly, F.srAddps poly 0 kCopyModulus] m >>= fun _ =>
        if m ≠ kCopyModulus then
          modifyEpoch (EpochState.recordModulus src m) >>= fun _ =>
            modifyEpoch (EpochState.storeComputeResultLocked d (F.srAddps poly 0 kCopyModulus) m)
        else modifyEpoch (EpochState.storeComputeResultLocked d (F.srAddps poly 0 kCopyModulus) m))
        w' = (.ok (), { w' with
          epoch := (if m ≠ kCopyModulus then w'.epoch.recordModulus src m else
            w'.epoch).storeComputeResultLocked d (F.srAddps poly 0 kCopyModulus) m
          compiler := w'.compiler ++ cs }) := by
    intro m
    obtain ⟨cs, hcs, he⟩ := bindModulus_run [poly, F.srAddps poly 0 kCopyModulus] m w'
    refine ⟨cs, hcs, ?_⟩
    rw [Expected.bind_run_ok he]
    split_ifs <;> rfl
  obtain ⟨cs, hcs, he⟩ := htail (copyModulus src q w'.epoch)
  refine ⟨cs, hcs, ?_⟩
  unfold copyResultLocked
  rw [Expected.bind_run_ok h]
  exact he

/-- Copying a result stores to its destination. -/
theorem copyResult_stores {d : DevAddr} (src : DevAddr) (q : UInt64) (hd : dst d) :
    Expected.Performs (act F) (In (Action.Stores dst)) (copyResultLocked F d src q) := by
  intro w
  obtain ⟨as, has, hfold⟩ := (lookup_reads (F := F) src w).mono fun _ _ h =>
    h.mono (D := Action.Stores dst) fun _ => Action.Reads.stores
  -- A source that cannot be read ends the copy before the store.
  rcases hw : lookupOrCreateLocked F src w with ⟨e | poly, w'⟩
  · refine ⟨as, has, ?_⟩
    rw [copyResultLocked, Expected.bind_run_error hw, ← hfold, hw]
  obtain ⟨cs, hcs, he⟩ := copyResult_run (d := d) (q := q) hw
  rw [hw] at hfold
  -- The source is bound by its lookup, so its modulus may be recorded.
  have hbound := mem_polyMap.mpr ((lookup_binds hw).symm ▸ Option.some_ne_none poly)
  unfold copied at he
  dsimp only at hfold he
  split_ifs at he
  · refine ⟨as ++ [.calls cs, .epoch (.recordModulus src (copyModulus src q w'.epoch)),
      .epoch (.store d (F.srAddps poly 0 kCopyModulus) (copyModulus src q w'.epoch))],
      Expected.along_append.mpr ⟨has, ?_⟩, by rw [he, List.foldl_append, ← hfold]; rfl⟩
    rw [← hfold]
    exact ⟨⟨hcs, trivial⟩, ⟨trivial, hbound⟩, ⟨hd, trivial⟩, trivial⟩
  · refine ⟨as ++ [.calls cs,
      .epoch (.store d (F.srAddps poly 0 kCopyModulus) (copyModulus src q w'.epoch))],
      Expected.along_append.mpr ⟨has, ?_⟩, by rw [he, List.foldl_append, ← hfold]; rfl⟩
    exact ⟨⟨hcs, trivial⟩, ⟨hd, trivial⟩, trivial⟩

/-- The destination of a copy is bound. -/
theorem copyResult_binds {d src : DevAddr} {q : UInt64} {w w' : World P M}
    (h : copyResultLocked F d src q w = (.ok (), w')) : d ∈ w'.epoch.polyMap := by
  obtain ⟨poly, w₁, hlookup, -⟩ := Expected.bind_eq_ok.mp h
  obtain ⟨cs, -, he⟩ := copyResult_run (d := d) (q := q) hlookup
  rw [he] at h
  cases h
  exact (AList.mem_insert _).mpr (.inl rfl)

/-- The actions of an operation unbind no address. -/
theorem stores_keep_bound {w : World P M} {x : Action P M} (hx : w.In (Action.Stores dst) x)
    {a : DevAddr} (ha : a ∈ w.epoch.polyMap) : a ∈ (w.act F x).epoch.polyMap := by
  rw [mem_polyMap] at ha ⊢
  rw [binding_act]
  obtain ⟨hx, -⟩ := hx
  -- A store and a lookup bind, and no action of a body takes a binding away.
  cases x with
  | epoch x =>
    cases x with
    | store b poly q =>
      dsimp only
      split_ifs
      · exact Option.some_ne_none poly
      · exact ha
    | invalidate b => exact hx.elim
    | clear => exact hx.elim
    | bindInput b poly => exact hx.elim
    | _ => exact ha
  | promote b =>
    dsimp only
    split_ifs
    · exact Option.some_ne_none _
    · exact ha
  | clearState => exact hx.elim
  | reset => exact hx.elim
  | _ => exact ha

/-- What only reads is allowed where stores are. -/
theorem reads_stores {α : Type} {x : Method P M α}
    (h : Expected.Performs (act F) (In Action.Reads) x) :
    Expected.Performs (act F) (In (Action.Stores dst)) x :=
  h.mono fun _ _ hx => hx.mono fun _ => Action.Reads.stores

/-- What stores is allowed in the body. -/
theorem stores_body {α : Type} {x : Method P M α}
    (h : Expected.Performs (act F) (In (Action.Stores dst)) x) :
    Expected.Performs (act F) (In (Action.Body dst)) x :=
  h.mono fun _ _ hx => hx.mono fun _ => Action.Stores.body

/-- What only reads is allowed in the body. -/
theorem reads_body {α : Type} {x : Method P M α}
    (h : Expected.Performs (act F) (In Action.Reads) x) :
    Expected.Performs (act F) (In (Action.Body dst)) x :=
  stores_body (reads_stores h)

/-- After every residue was copied, every destination is bound. -/
theorem copyResidues_bound {d src : List DevAddr} {base : List UInt64} {w w' : World P M}
    (h : Expected.forEach (copyResidue F)
      (((takePtrs base.length d).zip (takePtrs base.length src)).zip base) w = (.ok (), w')) :
    ∀ a ∈ takePtrs base.length d, a ∈ w'.epoch.polyMap := by
  have hall := Expected.forEach_establishes (f := copyResidue F)
    (Q := fun r (w : World P M) => r.1.1 ∈ w.epoch.polyMap) (fun r w w' => copyResult_binds)
    (fun r r' w w' hr hbound => by
      have hp : Expected.PerformsAt (act F) (In (Action.Stores fun _ => True))
          (copyResultLocked F r.1.1 r.1.2 r.2) w := copyResult_stores r.1.2 r.2 trivial w
      have hk := hp.preserves (I := fun w => r'.1.1 ∈ w.epoch.polyMap)
        (fun _ _ hx => stores_keep_bound hx) hbound
      rwa [show (copyResultLocked F r.1.1 r.1.2 r.2 w) = (.ok (), w') from hr] at hk) h
  intro a ha
  obtain ⟨i, hi, rfl⟩ := List.getElem_of_mem ha
  rw [length_takePtrs] at hi
  have hi' : i < (((takePtrs base.length d).zip (takePtrs base.length src)).zip base).length := by
    simp only [List.length_zip, length_takePtrs, Nat.min_self]
    exact hi
  have := hall _ (List.getElem_mem hi')
  simpa only [List.getElem_zip] using this

/-- A copy of residues opens a session for its body. -/
theorem copyDeviceToDeviceMrp_opens (env : CompilerReplies P) (d src : List DevAddr)
    (base : List UInt64) (h : ∀ a ∈ takePtrs base.length d, dst a) (w : World P M) :
    Opens F env (Action.Body dst) (copyDeviceToDeviceMrp F env d src base) w := by
  refine ⟨_, rfl, fun w => ?_⟩
  have hbody : ∀ r ∈ ((takePtrs base.length d).zip (takePtrs base.length src)).zip base,
      Expected.Performs (act F) (In (Action.Body dst)) (copyResidue F r) := fun r hr =>
    stores_body <| copyResult_stores _ _ (h _ (List.of_mem_zip (List.of_mem_zip hr).1).1)
  exact (Expected.Performs.forEach hbody w).bind fun _ w' hw' =>
    registerGroup_performs (length_takePtrs ..) (copyResidues_bound hw')

/-! ## Operations -/

/-- Finding a modulus changes nothing. -/
theorem resolveModulus_unchanged (modIdx : ℤ) (w : World P M) :
    (resolveModulus modIdx w).2 = w := by
  unfold resolveModulus
  rw [Expected.get_bind_run]
  split_ifs <;> rfl

/-- Storing a result is allowed where stores are. -/
theorem store_stores {a : DevAddr} (poly : P) (q : UInt64) (ha : dst a) :
    Expected.Performs (act F) (In (Action.Stores dst))
      (modifyEpoch (EpochState.storeComputeResultLocked a poly q)) :=
  fun _ => modifyEpoch_performs (.store a poly q) rfl ha trivial

/-- An operation on two residues opens a session for its stores. -/
theorem binaryPpOp_opens (env : CompilerReplies P) (opFn : P → P → UInt64 → P) {d : DevAddr}
    (src1 src2 : DevAddr) (modIdx : ℤ) (hd : dst d) (w : World P M) :
    Opens F env (Action.Stores dst) (binaryPpOp F env opFn d src1 src2 modIdx) w :=
  ⟨_, rfl, .bind (.of_unchanged (resolveModulus_unchanged modIdx)) fun _ =>
    .bind (reads_stores (lookup_reads src1)) fun _ =>
      .bind (reads_stores (lookup_reads src2)) fun _ => store_stores _ _ hd⟩

/-- So does an operation on one. -/
theorem unaryPqOp_opens (env : CompilerReplies P) (opFn : P → UInt64 → P) {d : DevAddr}
    (src : DevAddr) (modIdx : ℤ) (hd : dst d) (w : World P M) :
    Opens F env (Action.Stores dst) (unaryPqOp F env opFn d src modIdx) w :=
  ⟨_, rfl, .bind (.of_unchanged (resolveModulus_unchanged modIdx)) fun _ =>
    .bind (reads_stores (lookup_reads src)) fun _ => store_stores _ _ hd⟩

/-- So does an operation with an index. -/
theorem unaryPiOp_opens (env : CompilerReplies P) (opFn : P → UInt64 → P) {d : DevAddr}
    (src : DevAddr) (index : UInt64) (hd : dst d) (w : World P M) :
    Opens F env (Action.Stores dst) (unaryPiOp F env opFn d src index) w :=
  ⟨_, rfl, .bind (reads_stores (lookup_reads src)) fun _ =>
    .get_bind fun w => .bind (bindModulus_performs _ _ w) fun _ w' _ => store_stores _ _ hd w'⟩

/-- So does a copy. -/
theorem copyDeviceToDevice_opens (env : CompilerReplies P) {d : DevAddr} (src : DevAddr)
    (hd : dst d) (w : World P M) :
    Opens F env (Action.Stores dst) (copyDeviceToDevice F env d src) w :=
  ⟨_, rfl, copyResult_stores src kCopyModulus hd⟩

/-- An operation on two lists of residues opens a session for its body. -/
theorem binaryPpOpMrp_opens (env : CompilerReplies P) (opFn : M → M → M)
    (d src1 src2 : List DevAddr) (base : List UInt64) (h : ∀ a ∈ takePtrs base.length d, dst a)
    (w : World P M) :
    Opens F env (Action.Body dst) (binaryPpOpMrp F env opFn d src1 src2 base) w :=
  ⟨_, rfl, .bind (reads_body (buildMrp_reads src1 base)) fun _ =>
    .bind (reads_body (buildMrp_reads src2 base)) fun _ => storeMrp_body d _ base h⟩

/-- So does an operation on one list. -/
theorem unaryPOpMrp_opens (env : CompilerReplies P) (opFn : M → M) (d src : List DevAddr)
    (base : List UInt64) (h : ∀ a ∈ takePtrs base.length d, dst a) (w : World P M) :
    Opens F env (Action.Body dst) (unaryPOpMrp F env opFn d src base) w :=
  ⟨_, rfl, .bind (reads_body (buildMrp_reads src base)) fun _ => storeMrp_body d _ base h⟩

/-- A multi-residue polynomial is assembled from one polynomial for each modulus of its base. -/
theorem buildMrp_value {polys : List DevAddr} {base : List UInt64} {w w' : World P M} {m : M}
    (h : buildMrpLocked F polys base w = (.ok m, w')) :
    ∃ pairs, m = F.fromPairs pairs ∧ pairs.map Prod.snd = base := by
  obtain ⟨pairs, w₁, hpairs, h⟩ := Expected.bind_eq_ok.mp h
  -- The value is assembled before the input is named.
  refine ⟨pairs, ?_, ?_⟩
  · rw [Expected.get_bind_run] at h
    split_ifs at h
    · obtain ⟨name, w₂, -, h⟩ := Expected.bind_eq_ok.mp h
      obtain ⟨_, w₃, -, h⟩ := Expected.bind_eq_ok.mp h
      cases h
      rfl
    · cases h
      rfl
  -- Each residue is looked up under its own modulus.
  · have hmap : ∀ (residues : List (DevAddr × UInt64)) (w : World P M) pairs w₁,
        Expected.mapEach (lookupResidue F) residues w = (.ok pairs, w₁) →
        pairs.map Prod.snd = residues.map Prod.snd := by
      intro residues
      induction residues with
      | nil =>
        intro w pairs w₁ h
        cases h
        rfl
      | cons r rs ih =>
        intro w pairs w₁ h
        rw [Expected.mapEach_cons, Expected.bind_eq_ok] at h
        obtain ⟨pair, w₂, hpair, h⟩ := h
        obtain ⟨rest, w₃, hrest, h⟩ := Expected.bind_eq_ok.mp h
        obtain ⟨poly, w₄, -, hpair⟩ := Expected.bind_eq_ok.mp hpair
        cases h
        cases hpair
        rw [List.map_cons, List.map_cons, ih _ _ _ hrest]
    rw [hmap _ _ _ _ hpairs, List.map_snd_zip (length_takePtrs ..).ge]

/-- So does an accepted basis conversion. -/
theorem basisConvert_opens (env : CompilerReplies P) (d src : List DevAddr)
    {p : BasisConvertParams} {srcBase dstBase : List UInt64}
    (hp : p.validate = .ok (srcBase, dstBase)) (h : ∀ a ∈ takePtrs dstBase.length d, dst a)
    (w : World P M) : Opens F env (Action.Body dst) (basisConvert F env d src p) w := by
  refine ⟨_, Expected.query_bind_ok hp, ?_⟩
  exact .bind (reads_body (buildMrp_reads src srcBase)) fun m => .get_bind fun w' =>
    storeMrp_body d _ dstBase h w'

/-- So does an accepted rescaling. -/
theorem modDown_opens (env : CompilerReplies P) (d src : List DevAddr) {p : ModDownParams}
    {srcBase rescaleBase : List UInt64} (hp : p.validate = .ok (srcBase, rescaleBase))
    (h : ∀ pairs variant shape, pairs.map Prod.snd = srcBase →
      ∀ a ∈ takePtrs (F.base (F.rescaleFbc (F.fromPairs pairs) rescaleBase variant shape)).length d,
        dst a) (w : World P M) : Opens F env (Action.Body dst) (modDown F env d src p) w := by
  refine ⟨_, Expected.query_bind_ok hp, fun w₁ => ?_⟩
  refine (reads_body (buildMrp_reads src srcBase) w₁).bind fun m w₂ hm => ?_
  obtain ⟨pairs, rfl, hpairs⟩ := buildMrp_value hm
  exact storeMrp_body d _ _ (h pairs _ _ hpairs) w₂

/-- Storing digits is allowed in the body. -/
theorem storeDigits_body (d : List DevAddr) (lift : List UInt64 → M) (k : ℕ)
    (digitBases : List (List UInt64))
    (h : ∀ i base, digitBases[i]? = some base → ∀ a ∈ takePtrs (F.base (lift base)).length
      (d.drop ((k + i) * (F.base (lift base)).length)), dst a) :
    Expected.Performs (act F) (In (Action.Body dst)) (storeDigits F d lift k digitBases) := by
  induction digitBases generalizing k with
  | nil => exact .pure ()
  | cons base bases ih =>
    refine .bind (storeMrp_body _ _ _ (h 0 base rfl)) fun _ => ih (k + 1) fun i base' hi => ?_
    rw [Nat.add_assoc, Nat.add_comm 1 i]
    exact h (i + 1) base' hi

/-- An accepted lifting opens a session for its body. -/
theorem modUp_opens (env : CompilerReplies P) (d src : List DevAddr) {p : ModUpParams}
    {srcBase digitBases lens pBase : List UInt64}
    (hp : p.validate = .ok (srcBase, digitBases, lens, pBase))
    (h : ∀ pairs variant shape, pairs.map Prod.snd = srcBase →
      ∀ i base, (sliceDigits digitBases lens)[i]? = some base →
      let digit := F.fastBaseConvert (F.mrSubset (F.fromPairs pairs) base)
        (F.base (F.fromPairs pairs) ++ pBase) variant shape
      ∀ a ∈ takePtrs (F.base digit).length (d.drop (i * (F.base digit).length)), dst a)
    (w : World P M) : Opens F env (Action.Body dst) (modUp F env d src p) w := by
  refine ⟨_, Expected.query_bind_ok hp, fun w₁ => ?_⟩
  refine (reads_body (buildMrp_reads src srcBase) w₁).bind fun m w₂ hm => ?_
  obtain ⟨pairs, rfl, hpairs⟩ := buildMrp_value hm
  refine storeDigits_body d _ 0 _ (fun i base hi => ?_) w₂
  rw [Nat.zero_add]
  exact h pairs _ _ hpairs i base hi

/-! ## Memory -/

/-- A query of the allocator does nothing. -/
theorem onAllocator_query {α : Type} (f : DeviceAllocator → Except HazeInternalError α) :
    Expected.Performs (act F) (In C) (onAllocator (Expected.query f) : Method P M α) :=
  .of_unchanged fun _ => rfl

/-- Copying words from the host is allowed in an upload. -/
theorem copyH2d_uploads {d : DevAddr} (src : Option (List UInt8)) (count : UInt64) (hd : dst d) :
    Expected.Performs (act F) (In (Action.Uploads dst))
      (onAllocator (DeviceAllocator.copyH2d d src count) : Method P M Unit) := fun w =>
  onAllocator_performs (K := fun y => ∃ values, y = .write d values)
    (DeviceAllocator.copyH2d_performs d src count (fun values => ⟨values, rfl⟩) w.allocator) (by
      rintro _ ⟨values, rfl⟩
      exact ⟨hd, fun _ => AllocatorAction.noConfusion⟩)

/-- Tagging an upload is allowed in one. -/
theorem tagH2dInputLocked_uploads {d : DevAddr} (hd : dst d) :
    Expected.Performs (act F) (In (Action.Uploads dst)) (tagH2dInputLocked F d) := by
  refine .get_bind fun w => ?_
  split_ifs
  · exact .of_unchanged rfl
  refine Expected.Performs.bind (onAllocator_query _) (fun values => ?_) w
  refine .bind (.get_bind fun w => ?_) fun _ w =>
    modifyEpoch_performs (.dropTag d) rfl hd trivial
  refine .bind (call_performs _ (fun _ => rfl) w) fun _ w' _ => ?_
  exact .bind (modifyEpoch_performs (.bindInput d _) rfl hd trivial) fun _ _ _ => .of_unchanged rfl

/-- Tagging an upload opens a session for it. -/
theorem tagH2dInput_opens (env : CompilerReplies P) {d : DevAddr} (hd : dst d) (w : World P M) :
    Opens F env (Action.Uploads dst) (tagH2dInput F env d) w :=
  ⟨_, rfl, tagH2dInputLocked_uploads hd⟩

/-- Copying the words of residues is allowed in an upload. -/
theorem copyH2dAll_uploads (count : UInt64) {residues : List (DevAddr × Option (List UInt8))}
    (h : ∀ r ∈ residues, dst r.1) :
    Expected.Performs (act F) (In (Action.Uploads dst)) (Expected.forEach (fun r =>
      (onAllocator (DeviceAllocator.copyH2d r.1 r.2 count) : Method P M Unit)) residues) :=
  .forEach fun r hr => copyH2d_uploads r.2 count (h r hr)

/-- What is allowed in an upload is allowed in its session. -/
theorem uploads_inSession {α : Type} {x : Method P M α} {w : World P M}
    (h : Expected.PerformsAt (act F) (In (Action.Uploads dst)) x w) :
    Expected.PerformsAt (act F) (In (Action.InSession (Action.Uploads dst))) x w :=
  h.mono fun _ _ hx => hx.mono fun _ => Action.inSession

/-- An upload of residues is allowed in its session. -/
theorem copyH2dMrp_uploads (env : CompilerReplies P) (d : List DevAddr)
    (src : List (Option (List UInt8))) (count : UInt64) (len : ℕ)
    (h : ∀ a ∈ takePtrs len d, dst a) :
    Expected.Performs (act F) (In (Action.InSession (Action.Uploads dst)))
      (copyH2dMrp F env d src count len) := fun w =>
  (uploads_inSession (copyH2dAll_uploads count (fun r hr => h r.1 (List.of_mem_zip hr).1) w)).bind
    fun _ w' _ => Opens.performs (w := w')
      ⟨_, rfl, .forEach fun a ha => tagH2dInputLocked_uploads (h a ha)⟩

/-- Setting the words of an address clears it. -/
theorem memset_clears {d : DevAddr} (value : ℤ) (count : UInt64) (hd : dst d) :
    Expected.Performs (act F) (In (Action.Clears dst)) (do
      onAllocator (DeviceAllocator.memset d value count)
      modifyEpoch (EpochState.invalidate d) : Method P M Unit) := by
  refine .bind (fun w => onAllocator_performs (K := fun y => ∃ values, y = .write d values)
    (DeviceAllocator.memset_performs d value count (fun values => ⟨values, rfl⟩) w.allocator) ?_)
    fun _ w => modifyEpoch_performs (.invalidate d) rfl hd trivial
  rintro _ ⟨values, rfl⟩
  exact ⟨hd, fun _ => AllocatorAction.noConfusion⟩

/-- What allocates is allowed to. -/
theorem allocate_allocates {α : Type} {x : DeviceAllocator.Method α}
    (h : ∀ s, Expected.PerformsAt DeviceAllocator.act (DeviceAllocator.Takes False fun y =>
      y = .allocateOne ∨ ∃ a, y = .freeOne a) x s) :
    Expected.Performs (act F) (In Action.Allocates) (onAllocator x : Method P M α) := fun w =>
  onAllocator_performs (h w.allocator) (by
    rintro _ (rfl | ⟨a, rfl⟩)
    · exact ⟨trivial, fun _ => AllocatorAction.noConfusion⟩
    · exact ⟨trivial, fun _ => AllocatorAction.noConfusion⟩)

/-- Invalidating a pointer frees it. -/
theorem invalidateNonNull_frees {a : DevAddr} (ha : dst a) :
    Expected.Performs (act F) (In (Action.Frees dst)) (invalidateNonNull a : Method P M Unit) := by
  unfold invalidateNonNull
  split_ifs
  · exact fun w => modifyEpoch_performs (.invalidate a) rfl ha trivial
  · exact .pure ()

/-- Freeing addresses is allowed to. -/
theorem freeAll_frees {x : DeviceAllocator.Method Unit}
    (h : ∀ s, Expected.PerformsAt DeviceAllocator.act (DeviceAllocator.Takes False fun y =>
      ∃ a, y = .freeOne a ∧ dst a) x s) :
    Expected.Performs (act F) (In (Action.Frees dst)) (onAllocator x : Method P M Unit) := fun w =>
  onAllocator_performs (h w.allocator) (by
    rintro _ ⟨a, rfl, ha⟩
    exact ⟨ha, fun _ => AllocatorAction.noConfusion⟩)

/-! ## Finalization -/

section Finalization

variable (env : CompilerReplies P)

/-- The calls to the compiler that tag outputs. -/
def Tags : Action P M → Prop
  | .calls _ => True
  | _ => False

/-- Finding the binding of a member changes nothing. -/
theorem memberBinding_unchanged (residue : DevAddr × UInt64) (w : World P M) :
    (memberBinding residue w).2 = w := by
  unfold memberBinding
  rw [Expected.get_bind_run]
  rcases AList.lookup residue.1 w.epoch.polyMap with _ | poly <;> rfl

/-- Tagging what is pending tags. -/
theorem tagPendingOutputs_tags :
    Expected.Performs (act F) (In Tags) (tagPendingOutputsLocked F env) := by
  refine .get_bind fun w => ?_
  refine Expected.Performs.bind (.forEach fun entry _ => .get_bind fun w => ?_)
    (fun _ => .forEach fun name _ => .get_bind fun w => ?_) w
  · rcases AList.lookup entry.1 w.epoch.polyMap with _ | poly
    · exact .of_unchanged rfl
    · exact call_performs _ trivial w
  · rcases AList.lookup name w.epoch.knownMrpGroups with _ | group
    · exact .of_unchanged rfl
    · exact Expected.Performs.bind
        (.mapEach fun residue _ => .of_unchanged (memberBinding_unchanged residue))
        (fun pairs => call_performs _ trivial) w

/-- Aborting the epoch is part of a finalization. -/
theorem abortEpoch_finalizes {α : Type} (pending : DevAddr → Prop) (e : HazeInternalError) :
    Expected.Performs (act F) (In (Action.Finalizes pending)) (abortEpoch e : Method P M α) :=
  .bind (.of_action (fun _ => .clearState) (fun _ => ⟨trivial, trivial⟩) fun _ => rfl) fun _ =>
    .fail e

/-- So is storing what was read back for a pending output. -/
theorem populateShadow_finalizes {pending : DevAddr → Prop}
    {entry : Sigma fun _ : DevAddr => ProbeName} (h : pending entry.1) :
    Expected.Performs (act F) (In (Action.Finalizes pending))
      (populateShadow env entry : Method P M Unit) := by
  refine .get_bind fun w => ?_
  rcases env.result (capturedOutputs w.compiler) entry.2 with _ | poly
  · exact abortEpoch_finalizes pending _ w
  dsimp only
  rcases env.extractPolynomialValues poly entry.2 with _ | values
  · exact abortEpoch_finalizes pending _ w
  refine Expected.PerformsAt.bind (x := Expected.attempt _) (onAllocator_performs
    (K := fun y => ∃ values, y = .write entry.1 values)
    (DeviceAllocator.updateShadow_performs entry.1 values ⟨_, rfl⟩) ?_) ?_
  · rintro _ ⟨values, rfl⟩
    exact ⟨h, fun _ => AllocatorAction.noConfusion⟩
  · rintro (e | _) w' _
    · exact abortEpoch_finalizes pending e w'
    · exact .of_unchanged rfl

/-- So is materializing. -/
theorem doMaterialize_finalizes (runReplay : Bool) (w : World P M) :
    Expected.PerformsAt (act F) (In (Action.Finalizes (· ∈ w.epoch.pendingOutputs)))
      (doMaterializeLocked env runReplay) w := by
  have hclear : Expected.Performs (act F) (In (Action.Finalizes (· ∈ w.epoch.pendingOutputs)))
      (Expected.modify clearStateLocked : Method P M Unit) :=
    .of_action (fun _ => .clearState) (fun _ => ⟨trivial, trivial⟩) fun _ => rfl
  unfold doMaterializeLocked
  rw [show ∀ f : World P M → Method P M Unit, Expected.PerformsAt (act F)
    (In (Action.Finalizes (· ∈ w.epoch.pendingOutputs))) (Expected.get >>= f) w =
    Expected.PerformsAt (act F) (In (Action.Finalizes (· ∈ w.epoch.pendingOutputs))) (f w) w
    from fun _ => rfl]
  -- Each stage either aborts, which clears the state, or goes on with the next.
  split
  · exact .of_unchanged rfl
  refine Expected.Performs.bind (x := stopEpoch env) (fun w => ?_) (fun stopOk => ?_) w
  · exact ⟨[.calls [.stop], .hook (w.hookHadError || env.hookFails)],
      ⟨⟨trivial, trivial⟩, ⟨trivial, trivial⟩, trivial⟩, rfl⟩
  split
  · exact abortEpoch_finalizes _ _
  refine .bind (x := takeHookHadError)
    (.of_action (fun _ => .hook false) (fun _ => ⟨trivial, trivial⟩) fun _ => rfl)
    fun hookHadError => ?_
  split_ifs
  · exact abortEpoch_finalizes _ _
  · exact hclear
  refine .bind (x := replay env)
    (.of_action (fun _ => .calls [.replay]) (fun _ => ⟨trivial, trivial⟩) fun _ => rfl)
    fun replayOk => ?_
  split_ifs
  · exact abortEpoch_finalizes _ _
  -- The outputs that are stored are pending ones.
  · refine .bind (.forEach fun entry hentry => populateShadow_finalizes env ?_) fun _ => hclear
    rw [outputs, IterationOrder.mem_order] at hentry
    exact UMap.mem_of_lookup (UMap.mem_entries_iff.mp hentry)

/-- A finalization does what it may. -/
theorem finalize_finalizes (runReplay : Bool) (w : World P M) :
    Expected.PerformsAt (act F) (In (Action.Finalizes (· ∈ w.epoch.pendingOutputs)))
      (finalizeLocked F env runReplay) w := by
  unfold finalizeLocked
  change Expected.PerformsAt _ _ (if _ then _ else if _ then _ else _) w
  split_ifs
  · exact .of_unchanged rfl
  · exact .of_action .clearState ⟨trivial, trivial⟩ rfl
  have htags := tagPendingOutputs_tags (F := F) env w
  refine Expected.PerformsAt.bind (htags.mono fun _ _ hx => hx.mono fun x hx => ?_)
    fun _ w' hw' => ?_
  · cases x <;> first | exact hx.elim | trivial
  · have hepoch := htags.preserves (I := fun w' => w'.epoch = w.epoch) (fun _ x hx hI => by
      cases x <;> first | exact hx.1.elim | exact hI) rfl
    rw [hw'] at hepoch
    rw [← hepoch]
    exact doMaterialize_finalizes env runReplay w'

/-- So does a flush. -/
theorem flush_finalizes (w : World P M) :
    Expected.PerformsAt (act F) (In (Action.Finalizes (· ∈ w.epoch.pendingOutputs)))
      (flush F env) w := by
  unfold flush
  change Expected.PerformsAt _ _ (if _ then _ else _) w
  split_ifs
  · exact .of_unchanged rfl
  · exact finalize_finalizes env true w

end Finalization

end

end World

end Haze
