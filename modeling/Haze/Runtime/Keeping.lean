import Haze.Runtime.Recording

/-!
# What the primitive methods keep

Every call is made of a few primitive methods: those of the allocator and the configuration alone,
opening a session, binding an input, naming a multi-residue input, binding a modulus, finalizing an
epoch, and changes of the epoch that bind no input and name none. A property of the whole state that
each of them keeps is kept by every call and by every critical section (`World.Kept`). Where a
session changes a property, what follows it in a call that records keeps the new one
(`World.Sessioned`).

A property may say something of the values that a session handles (`Domain`). Then a call that
records keeps it where the operations of the library that it applies stay in the domain
(`Call.Respects`).

Where the actions say what changes of the state a method makes, a primitive method also says which
of them come together: the call that tags an input takes its name from the counter that binding the
input advances.
-/

namespace Haze

variable {P M : Type}

/-! ## The values of a session -/

/-- What is known of the values that a session handles. -/
structure Domain (P M : Type) where
  poly : P → Prop
  /-- A multi-residue polynomial over a base. -/
  mrp : List UInt64 → M → Prop
  modulus : UInt64 → Prop
  /-- A modulus of the bases that a call is given. -/
  base : UInt64 → Prop
  /-- A multi-residue polynomial that is tagged as an input. -/
  input : M → Prop

/-- Nothing is known. -/
def Domain.all : Domain P M :=
  ⟨fun _ => True, fun _ _ => True, fun _ => True, fun _ => True, fun _ => True⟩

/-- The changes of the epoch that bind no input and name none, with values of the domain. -/
def EpochAction.Plain (D : Domain P M) : EpochAction P → Prop
  | .bindInput _ _ => False
  | .nameGroup false _ => False
  | .tagMrpInputName _ => False
  | .clear => False
  | .store _ poly q => D.poly poly ∧ (q ≠ kCopyModulus → D.modulus q)
  | .recordModulus _ q => D.modulus q
  | .register _ moduli _ => ∀ q ∈ moduli, D.modulus q
  | _ => True

/-- The values that a state of `I` holds are in the domain, and the library keeps to it where it is
applied whatever the call's arguments are. -/
structure Domain.Known (D : Domain P M) (F : Fhetch P M) (I : World P M → Prop) : Prop where
  bound : ∀ w a poly, I w → w.binding a = some poly → D.poly poly
  recorded : ∀ w a q, I w → AList.lookup a w.epoch.addrModulus = some q → D.modulus q
  configured : ∀ w i, I w → w.config.modulus i ≠ 0 → D.modulus (w.config.modulus i)
  base : ∀ q, D.base q → D.modulus q
  copy : ∀ poly, D.poly poly → D.poly (F.srAddps poly 0 kCopyModulus)
  fromPairs : ∀ pairs, (∀ r ∈ pairs, D.poly r.1 ∧ D.base r.2) →
    D.mrp (pairs.map Prod.snd) (F.fromPairs pairs)
  residue : ∀ base mrp, D.mrp base mrp → ∀ q ∈ base, D.poly (F.residue mrp q)

/-- The domain of everything is known in every state. -/
theorem Domain.all_known (F : Fhetch P M) (I : World P M → Prop) : Domain.all.Known F I where
  bound _ _ _ _ _ := trivial
  recorded _ _ _ _ _ := trivial
  configured _ _ _ _ := trivial
  base _ _ := trivial
  copy _ _ := trivial
  fromPairs _ _ := trivial
  residue _ _ _ _ _ := trivial

/-- The operations that a call applies stay in the domain, and so do the moduli of its bases. -/
def Call.Respects (F : Fhetch P M) (D : Domain P M) : Call → Prop
  | .memcpyMrp (.deviceToDevice _ _) _ (some base) => ∀ q ∈ base, D.base q
  | .pp op _ _ _ _ => ∀ p p' q, D.poly p → D.poly p' → D.modulus q → D.poly (op.sr F p p' q)
  | .ps op _ _ scalar _ => ∀ p q, D.poly p → D.modulus q → D.poly (op.srs F p scalar q)
  | .transform op _ _ _ => ∀ p q, D.poly p → D.modulus q → D.poly (op.sr F p q)
  | .automorph _ _ index => ∀ p, D.poly p → D.poly (F.srAutomorphEval p index)
  | .ppMrp op _ _ _ (some base) => (∀ q ∈ base, D.base q) ∧
    ∀ m m', D.mrp base m → D.mrp base m' → D.mrp base (op.mr F m m')
  | .psMrp op _ _ (some scalars) (some base) => (∀ q ∈ base, D.base q) ∧
    ∀ m, D.mrp base m → D.mrp base (op.mrs F m (World.buildMrs scalars base))
  | .transformMrp op _ _ (some base) => (∀ q ∈ base, D.base q) ∧
    ∀ m, D.mrp base m → D.mrp base (op.mr F m)
  | .indexMrp op _ _ index (some base) => (∀ q ∈ base, D.base q) ∧
    ∀ m, D.mrp base m → D.mrp base (op.mr F m index)
  | .basisConvert _ _ (some p) => ∀ srcBase dstBase, p.validate = .ok (srcBase, dstBase) →
    (∀ q ∈ srcBase, D.base q) ∧ (∀ q ∈ dstBase, D.base q) ∧
      ∀ m variant shape, D.mrp srcBase m → D.mrp dstBase (F.fastBaseConvert m dstBase variant shape)
  | .modDown _ _ (some p) => ∀ srcBase rescaleBase, p.validate = .ok (srcBase, rescaleBase) →
    (∀ q ∈ srcBase, D.base q) ∧ ∀ m variant shape, D.mrp srcBase m →
      (∀ q ∈ F.base (F.rescaleFbc m rescaleBase variant shape), D.base q) ∧
        D.mrp (F.base (F.rescaleFbc m rescaleBase variant shape))
          (F.rescaleFbc m rescaleBase variant shape)
  | .modUp _ _ (some p) => ∀ srcBase digitBases lens pBase,
    p.validate = .ok (srcBase, digitBases, lens, pBase) →
    (∀ q ∈ srcBase, D.base q) ∧ ∀ digitBase ∈ sliceDigits digitBases lens,
      ∀ m variant shape, D.mrp srcBase m →
        let digit := F.fastBaseConvert (F.mrSubset m digitBase) (F.base m ++ pBase) variant shape
        (∀ q ∈ F.base digit, D.base q) ∧ D.mrp (F.base digit) digit
  | _ => True

/-- Every call respects the domain of everything. -/
theorem Call.respects_all (F : Fhetch P M) (c : Call) : c.Respects F Domain.all := by
  have hbase : ∀ base : List UInt64, ∀ q ∈ base, (Domain.all : Domain P M).base q :=
    fun _ _ _ => trivial
  unfold Call.Respects
  split
  · exact hbase _
  · exact fun _ _ _ _ _ _ => trivial
  · exact fun _ _ _ _ => trivial
  · exact fun _ _ _ _ => trivial
  · exact fun _ _ => trivial
  · exact ⟨hbase _, fun _ _ _ _ => trivial⟩
  · exact ⟨hbase _, fun _ _ => trivial⟩
  · exact ⟨hbase _, fun _ _ => trivial⟩
  · exact ⟨hbase _, fun _ _ => trivial⟩
  · exact fun _ _ _ => ⟨hbase _, hbase _, fun _ _ _ _ => trivial⟩
  · exact fun _ _ _ => ⟨hbase _, fun _ _ _ _ => ⟨hbase _, trivial⟩⟩
  · exact fun _ _ _ _ _ => ⟨hbase _, fun _ _ _ _ _ _ => ⟨hbase _, trivial⟩⟩
  · trivial

namespace World

/-! ## Properties that methods keep -/

/-- A property that the methods of an open session keep, on values of the domain. -/
structure KeptInside (F : Fhetch P M) (D : Domain P M) (I : World P M → Prop) : Prop where
  known : D.Known F I
  allocator : ∀ w s, I w → I { w with allocator := s }
  epoch : ∀ w x, EpochAction.Plain D x → I w → I { w with epoch := w.epoch.act x }
  tagInput : ∀ addr values n, Expected.Triple
    (fun w => I w ∧ w.config.ringDim = n ∧ values.length = n.toNat) (tagInput F addr values n)
    (fun poly w => D.poly poly ∧ I w) (fun _ => I)
  /-- Name the input group of a leading address, and tag it. -/
  nameInput : ∀ leading base mrp, 1 < base.length → D.mrp base mrp → Expected.Keeps I
    (onEpoch (EpochState.mrpGroupNameLocked false leading) >>=
      fun name => tagMrpInputIfNewLocked name mrp)
  bindModulus : ∀ polys q, (∀ poly ∈ polys, D.poly poly) → (q ≠ kCopyModulus → D.modulus q) →
    Expected.Keeps I (bindModulus polys q : Method P M Unit)

/-- A session leads from the property `I` to `J`, which the methods after it keep. -/
structure Sessioned (F : Fhetch P M) (D : Domain P M) (env : CompilerReplies P)
    (I J : World P M → Prop) : Prop where
  before : ∀ w s, I w → I { w with allocator := s }
  session : Expected.Triple I (epochSession env : Method P M Unit) (fun _ => J) (fun _ => J)
  inside : KeptInside F D J

/-- A property that every primitive method keeps. -/
structure Kept (F : Fhetch P M) (I : World P M → Prop) : Prop extends KeptInside F .all I where
  config : ∀ w c, I w → I { w with config := c }
  session : ∀ env, Expected.Keeps I (epochSession env : Method P M Unit)
  finalize : ∀ env runReplay w, w.epoch.Valid → I w → I (finalizeLocked F env runReplay w).2
  reset : ∀ w, I w → I (resetAll w)

/-- What is kept everywhere is kept in a session. -/
theorem Kept.sessioned {F : Fhetch P M} {I : World P M → Prop} (h : Kept F I)
    (env : CompilerReplies P) : Sessioned F .all env I I where
  before := h.allocator
  session := h.session env
  inside := h.toKeptInside

/-- Where nothing is known of the values, an input is only bound. -/
theorem tagInput_all {F : Fhetch P M} {I : World P M → Prop} {addr : DevAddr} {values : List UInt64}
    {n : UInt64} (h : Expected.Keeps I (tagInput F addr values n)) : Expected.Triple
      (fun w => I w ∧ w.config.ringDim = n ∧ values.length = n.toNat) (tagInput F addr values n)
      (fun poly w => (Domain.all : Domain P M).poly poly ∧ I w) (fun _ => I) :=
  h.mono (fun _ hw => hw.1) (fun _ _ hw => ⟨trivial, hw⟩) fun _ _ hw => hw

namespace KeptInside

variable {F : Fhetch P M} {D : Domain P M} {I : World P M → Prop} (h : KeptInside F D I)

include h

/-- What works on the allocator keeps what the epoch's actions are asked to keep. -/
theorem onAllocator {α : Type} (x : DeviceAllocator.Method α) :
    Expected.Keeps I (onAllocator x : Method P M α) :=
  Expected.Keeps.iff_state.mpr fun w hw => h.allocator w (x w.allocator).2 hw

/-- A change of the epoch by a plain action keeps it. -/
theorem modifyEpoch {f : EpochState P → EpochState P} (x : EpochState P → EpochAction P)
    (hx : ∀ s, (x s).Plain D) (hf : ∀ s, f s = s.act (x s)) :
    Expected.Keeps I (modifyEpoch f : Method P M Unit) := by
  refine Expected.Keeps.iff_state.mpr fun w hw => ?_
  change I { w with epoch := f w.epoch }
  rw [hf]
  exact h.epoch w _ (hx _) hw

/-- So does what works on the epoch by a plain action. -/
theorem onEpoch {α : Type} {f : Expected HazeInternalError (EpochState P) α}
    (x : EpochAction P) (hx : x.Plain D) (hf : ∀ s, (f s).2 = s.act x) :
    Expected.Keeps I (onEpoch f : Method P M α) := by
  refine Expected.Keeps.iff_state.mpr fun w hw => ?_
  change I { w with epoch := (f w.epoch).2 }
  rw [hf]
  exact h.epoch w x hx hw

/-- A modulus by its index is that of the configuration. -/
theorem resolveModulus (modIdx : ℤ) : Expected.Triple I (resolveModulus modIdx : Method P M UInt64)
    (fun q w => D.modulus q ∧ I w) (fun _ => I) := by
  refine .get_bind fun w hw => ?_
  dsimp only
  split_ifs with hq
  · exact .fail fun v hv => hv ▸ hw
  · exact .pure fun v hv => ⟨h.known.configured w modIdx hw hq, hv ▸ hw⟩

/-! ## Sources -/

/-- Words that leave the allocator are those of a polynomial. -/
theorem extractSource (addr : DevAddr) (n : UInt64) : Expected.Triple
    (fun w => I w ∧ w.config.ringDim = n) (extractSource addr n : Method P M (List UInt64))
    (fun values w => I w ∧ w.config.ringDim = n ∧ values.length = n.toNat) (fun _ => I) := by
  intro w hw
  have hkeep : ∀ s, I { w with allocator := s } := fun s => h.allocator w s hw.1
  unfold World.extractSource
  rw [Expected.attempt_bind_run, World.onAllocator, Expected.zoom_run,
    DeviceAllocator.extractPolynomialComponents]
  rcases hc : DeviceAllocator.components addr n w.allocator with e | values
  · cases e <;> exact hkeep _
  · exact ⟨hkeep _, hw.2, (components_ok hc).2.2.2⟩

/-- A lookup returns a polynomial of the domain. -/
theorem lookup (addr : DevAddr) : Expected.Triple I (lookupOrCreateLocked F addr)
    (fun poly w => D.poly poly ∧ I w) (fun _ => I) := by
  refine .get_bind fun w hw => ?_
  rcases hb : AList.lookup addr w.epoch.polyMap with _ | poly
  · have hextract := h.extractSource addr w.config.ringDim
    refine .bind (hextract.mono (fun v hv => ?_) (fun _ _ hv => hv) fun _ _ hv => hv) fun values =>
      h.tagInput addr values _
    subst hv
    exact ⟨hw, rfl⟩
  · exact .pure fun v hv => hv ▸ ⟨h.known.bound w addr poly hw hb, hw⟩

/-- So does the lookup of a residue, under its modulus. -/
theorem lookupResidue (residue : DevAddr × UInt64) : Expected.Triple I (lookupResidue F residue)
    (fun pair w => (D.poly pair.1 ∧ pair.2 = residue.2) ∧ I w) (fun _ => I) :=
  .bind (h.lookup residue.1) fun _ => .pure fun _ hw => ⟨⟨hw.1, rfl⟩, hw.2⟩

/-- The residues of a source make a multi-residue polynomial over the base. -/
theorem buildMrp (polys : List DevAddr) {base : List UInt64} (hbase : ∀ q ∈ base, D.base q) :
    Expected.Triple I (buildMrpLocked F polys base) (fun mrp w => D.mrp base mrp ∧ I w)
      (fun _ => I) := by
  refine .bind (.mapEach (S := fun pair => D.poly pair.1) fun residue _ => h.lookupResidue residue)
    fun pairs => .get_bind fun w hw => ?_
  have hmoduli : pairs.map Prod.snd = base := by
    rw [hw.1.2, List.map_snd_zip (length_takePtrs ..).ge]
  have hmrp : D.mrp base (F.fromPairs pairs) := by
    have hknown := h.known.fromPairs pairs fun r hr =>
      ⟨hw.1.1 r hr, hbase r.2 (hmoduli ▸ List.mem_map_of_mem hr)⟩
    rwa [hmoduli] at hknown
  have hstart : ∀ v : World P M, v = w → I v := fun v hv => hv ▸ hw.2
  split_ifs with hnamed
  · rw [← Expected.bind_assoc]
    refine .bind ((h.nameInput _ base _ hnamed.1 hmrp).mono hstart (fun _ _ hv => hv) fun _ _ hv => hv)
      fun _ => .pure fun v hv => ⟨hmrp, hv⟩
  · exact .pure fun v hv => ⟨hmrp, hstart v hv⟩

/-! ## Destinations -/

/-- Storing a polynomial of the domain keeps it. -/
theorem store (addr : DevAddr) {poly : P} {q : UInt64} (hpoly : D.poly poly)
    (hq : q ≠ kCopyModulus → D.modulus q) : Expected.Keeps I
    (World.modifyEpoch (EpochState.storeComputeResultLocked addr poly q) : Method P M Unit) :=
  h.modifyEpoch (fun _ => .store addr poly q) (fun _ => ⟨hpoly, hq⟩) fun _ => rfl

/-- So does registering a group under moduli of the domain. -/
theorem registerGroup (addrs : List DevAddr) {base : List UInt64}
    (hbase : ∀ q ∈ base, D.modulus q) :
    Expected.Keeps I (registerGroup addrs base : Method P M Unit) := by
  unfold World.registerGroup
  split_ifs
  · exact .bind (h.onEpoch (.nameGroup true _) trivial fun _ => rfl) fun name =>
      h.onEpoch (.register addrs base name) hbase fun _ => rfl
  · exact .pure ()

/-- So does storing residues of the domain. -/
theorem storeMrp (dst : List DevAddr) {mrp : M} {base : List UInt64} (hmrp : D.mrp base mrp)
    (hbase : ∀ q ∈ base, D.base q) : Expected.Keeps I (storeMrpLocked F dst mrp base) := by
  have hmoduli : ∀ q ∈ base, D.modulus q := fun q hq => h.known.base q (hbase q hq)
  refine .bind (.forEach fun residue hresidue => ?_) fun _ => h.registerGroup _ hmoduli
  have hq : residue.2 ∈ base := (List.of_mem_zip hresidue).2
  exact h.store residue.1 (h.known.residue base mrp hmrp _ hq) fun _ => hmoduli _ hq

/-- So does storing digits. -/
theorem storeDigits (dst : List DevAddr) {lift : List UInt64 → M} {d : ℕ}
    {digitBases : List (List UInt64)}
    (hlift : ∀ digitBase ∈ digitBases, (∀ q ∈ F.base (lift digitBase), D.base q) ∧
      D.mrp (F.base (lift digitBase)) (lift digitBase)) :
    Expected.Keeps I (storeDigits F dst lift d digitBases) := by
  induction digitBases generalizing d with
  | nil => exact .pure ()
  | cons digitBase digitBases ih =>
    obtain ⟨hbase, hmrp⟩ := hlift digitBase (List.mem_cons_self ..)
    exact .bind (h.storeMrp _ hmrp hbase) fun _ =>
      ih fun b hb => hlift b (List.mem_cons_of_mem _ hb)

/-- The modulus recorded for an address is in the domain, unless it is the copy sentinel. -/
theorem recordedModulus {w : World P M} (addr : DevAddr) (hw : I w)
    (hq : w.epoch.recordedModulusLocked addr ≠ kCopyModulus) :
    D.modulus (w.epoch.recordedModulusLocked addr) := by
  unfold EpochState.recordedModulusLocked at hq ⊢
  rcases hl : AList.lookup addr w.epoch.addrModulus with _ | m
  · rw [hl] at hq
    exact absurd rfl hq
  · exact h.known.recorded w addr m hw hl

/-- So does copying a result. -/
theorem copyResult (dst src : DevAddr) {q : UInt64} (hq : q ≠ kCopyModulus → D.modulus q) :
    Expected.Keeps I (copyResultLocked F dst src q) := by
  refine Expected.Triple.bind (h.lookup src) fun poly => .get_bind fun w hw => ?_
  have hcopy := h.known.copy poly hw.1
  have hmodulus : (if q = kCopyModulus then w.epoch.recordedModulusLocked src else q) ≠
      kCopyModulus →
      D.modulus (if q = kCopyModulus then w.epoch.recordedModulusLocked src else q) := by
    split_ifs
    · exact h.recordedModulus src hw.2
    · exact hq
  dsimp only
  generalize (if q = kCopyModulus then w.epoch.recordedModulusLocked src else q) = m at hmodulus ⊢
  have hbind := h.bindModulus [poly, F.srAddps poly 0 kCopyModulus] m (fun p hp => by
    rcases List.mem_pair.mp hp with rfl | rfl
    · exact hw.1
    · exact hcopy) hmodulus
  refine Expected.Triple.bind
    (hbind.mono (fun v hv => hv ▸ hw.2) (fun _ _ hv => hv) fun _ _ hv => hv) fun _ => ?_
  split_ifs with hm
  · exact Expected.Keeps.bind (h.modifyEpoch (fun _ => .recordModulus src _)
      (fun _ => hmodulus hm) fun _ => rfl) fun _ => h.store _ hcopy hmodulus
  · exact h.store _ hcopy hmodulus

/-- So does tagging an upload. -/
theorem tagH2dInputLocked (addr : DevAddr) : Expected.Keeps I (tagH2dInputLocked F addr) := by
  refine Expected.Triple.get_bind fun w hw => ?_
  split_ifs
  · exact .fail fun v hv => hv ▸ hw
  have hread : Expected.Triple (fun v => v = w)
      (World.onAllocator (DeviceAllocator.readPolynomialComponents addr w.config.ringDim) :
        Method P M (List UInt64))
      (fun values v => I v ∧ v.config.ringDim = w.config.ringDim ∧
        values.length = w.config.ringDim.toNat) (fun _ => I) := by
    rintro v rfl
    rw [World.onAllocator, Expected.zoom_run, DeviceAllocator.readPolynomialComponents]
    rcases hc : DeviceAllocator.components addr v.config.ringDim v.allocator with e | values
    · rw [Expected.query_run, hc]
      exact hw
    · rw [Expected.query_run, hc]
      exact ⟨hw, rfl, (components_ok hc).2.2.2⟩
  refine .bind hread fun values => .bind (h.tagInput addr values _) fun poly => ?_
  exact (h.modifyEpoch (fun _ => .dropTag addr) (fun _ => trivial) fun _ => rfl).mono
    (fun _ hv => hv.2) (fun _ _ hv => hv) fun _ _ hv => hv

/-- So does invalidating a pointer. -/
theorem invalidateNonNull (ptr : DevAddr) :
    Expected.Keeps I (invalidateNonNull ptr : Method P M Unit) := by
  unfold Haze.invalidateNonNull
  split_ifs
  · exact h.modifyEpoch (fun _ => .invalidate ptr) (fun _ => trivial) fun _ => rfl
  · exact .pure ()

end KeptInside

/-! ## Operations -/

namespace Sessioned

variable {F : Fhetch P M} {D : Domain P M} {env : CompilerReplies P} {I J : World P M → Prop}
  (h : Sessioned F D env I J)

include h

/-- A method on the allocator before the session. -/
theorem onAllocator {α : Type} (x : DeviceAllocator.Method α) :
    Expected.Keeps I (onAllocator x : Method P M α) :=
  Expected.Keeps.iff_state.mpr fun w hw => h.before w (x w.allocator).2 hw

/-- A session and what follows it. -/
theorem bind {x : Method P M Unit} (hx : Expected.Keeps J x) :
    Expected.Triple I (epochSession env >>= fun _ => x) (fun _ => J) (fun _ => J) :=
  .bind h.session fun _ => hx

/-- A session after uploads. -/
theorem uploads {x y : Method P M Unit} (hx : Expected.Keeps I x) (hy : Expected.Keeps J y) :
    Expected.Triple I (x >>= fun _ => epochSession env >>= fun _ => y) (fun _ => J)
      (fun _ w => I w ∨ J w) :=
  .bind (hx.mono (fun _ hw => hw) (fun _ _ hw => hw) fun _ _ hw => .inl hw) fun _ =>
    (h.bind hy).mono (fun _ hw => hw) (fun _ _ hw => hw) fun _ _ hw => .inr hw

/-- A session after a check of the parameters. -/
theorem validated {T : Type} {v : Except HazeInternalError T} {f : T → Method P M Unit}
    (hf : ∀ t, v = .ok t → Expected.Keeps J (f t)) :
    Expected.Triple I (Expected.query (fun _ => v) >>= fun t => epochSession env >>= fun _ => f t)
      (fun _ => J) (fun _ w => I w ∨ J w) :=
  .check (fun t ht => (h.bind (hf t ht)).mono (fun _ hw => hw) (fun _ _ hw => hw)
    fun _ _ hw => .inr hw) fun _ _ _ hw => .inl hw

/-- An upload of residues leads into the session, unless it fails before. -/
theorem copyH2dMrp (dst : List DevAddr) (src : List (Option (List UInt8))) (count : UInt64)
    (len : ℕ) : Expected.Triple I (copyH2dMrp F env dst src count len) (fun _ => J)
      (fun _ w => I w ∨ J w) :=
  h.uploads (.forEach fun _ _ => h.onAllocator _) (.forEach fun addr _ =>
    h.inside.tagH2dInputLocked addr)

/-- A copy of residues leads into the session and keeps it. -/
theorem copyDeviceToDeviceMrp (dst src : List DevAddr) {base : List UInt64}
    (hbase : ∀ q ∈ base, D.base q) :
    Expected.Triple I (copyDeviceToDeviceMrp F env dst src base) (fun _ => J) (fun _ => J) :=
  h.bind (.bind (.forEach fun _ hresidue => h.inside.copyResult _ _ fun _ =>
    h.inside.known.base _ (hbase _ (List.of_mem_zip hresidue).2)) fun _ =>
      h.inside.registerGroup _ fun q hq => h.inside.known.base q (hbase q hq))

/-- So does an operation on two residues. -/
theorem binaryPpOp {opFn : P → P → UInt64 → P} (dst src1 src2 : DevAddr) (modIdx : ℤ)
    (hop : ∀ p p' q, D.poly p → D.poly p' → D.modulus q → D.poly (opFn p p' q)) :
    Expected.Triple I (binaryPpOp F env opFn dst src1 src2 modIdx) (fun _ => J) (fun _ => J) := by
  refine h.bind (Expected.Triple.bind (h.inside.resolveModulus modIdx) fun q w hw => ?_)
  refine Expected.Triple.bind (h.inside.lookup src1) (fun p w hp => ?_) w hw.2
  refine Expected.Triple.bind (h.inside.lookup src2) (fun p' w hp' => ?_) w hp.2
  exact h.inside.store dst (hop p p' q hp.1 hp'.1 hw.1) (fun _ => hw.1) w hp'.2

/-- So does an operation on one. -/
theorem unaryPqOp {opFn : P → UInt64 → P} (dst src : DevAddr) (modIdx : ℤ)
    (hop : ∀ p q, D.poly p → D.modulus q → D.poly (opFn p q)) :
    Expected.Triple I (unaryPqOp F env opFn dst src modIdx) (fun _ => J) (fun _ => J) := by
  refine h.bind (Expected.Triple.bind (h.inside.resolveModulus modIdx) fun q w hw => ?_)
  refine Expected.Triple.bind (h.inside.lookup src) (fun p w hp => ?_) w hw.2
  exact h.inside.store dst (hop p q hp.1 hw.1) (fun _ => hw.1) w hp.2

/-- So does an operation with an index. -/
theorem unaryPiOp {opFn : P → UInt64 → P} (dst src : DevAddr) (index : UInt64)
    (hop : ∀ p, D.poly p → D.poly (opFn p index)) :
    Expected.Triple I (unaryPiOp F env opFn dst src index) (fun _ => J) (fun _ => J) := by
  refine h.bind (Expected.Triple.bind (h.inside.lookup src) fun p => .get_bind fun w hw => ?_)
  have hresult := hop p hw.1
  have hrecorded := h.inside.recordedModulus src hw.2
  have hbind := h.inside.bindModulus [p, opFn p index] _ (fun p' hp' => by
    rcases List.mem_pair.mp hp' with rfl | rfl
    · exact hw.1
    · exact hresult) hrecorded
  exact .bind (hbind.mono (fun v hv => hv ▸ hw.2) (fun _ _ hv => hv) fun _ _ hv => hv) fun _ =>
    h.inside.store dst hresult hrecorded

/-- So does an operation on two lists of residues. -/
theorem binaryPpOpMrp {opFn : M → M → M} (dst src1 src2 : List DevAddr) {base : List UInt64}
    (hbase : ∀ q ∈ base, D.base q)
    (hop : ∀ m m', D.mrp base m → D.mrp base m' → D.mrp base (opFn m m')) :
    Expected.Triple I (binaryPpOpMrp F env opFn dst src1 src2 base) (fun _ => J) (fun _ => J) := by
  refine h.bind (Expected.Triple.bind (h.inside.buildMrp src1 hbase) fun m w hm => ?_)
  refine Expected.Triple.bind (h.inside.buildMrp src2 hbase) (fun m' w hm' => ?_) w hm.2
  exact h.inside.storeMrp dst (hop m m' hm.1 hm'.1) hbase w hm'.2

/-- So does an operation on one list. -/
theorem unaryPOpMrp {opFn : M → M} (dst src : List DevAddr) {base : List UInt64}
    (hbase : ∀ q ∈ base, D.base q) (hop : ∀ m, D.mrp base m → D.mrp base (opFn m)) :
    Expected.Triple I (unaryPOpMrp F env opFn dst src base) (fun _ => J) (fun _ => J) := by
  refine h.bind (Expected.Triple.bind (h.inside.buildMrp src hbase) fun m w hm => ?_)
  exact h.inside.storeMrp dst (hop m hm.1) hbase w hm.2

/-- So does an operation with scalars. -/
theorem binaryPsOpMrp {opFn : M → List (UInt64 × UInt64) → M} (dst src : List DevAddr)
    {scalars base : List UInt64} (hbase : ∀ q ∈ base, D.base q)
    (hop : ∀ m, D.mrp base m → D.mrp base (opFn m (buildMrs scalars base))) :
    Expected.Triple I (binaryPsOpMrp F env opFn dst src scalars base) (fun _ => J) (fun _ => J) :=
  h.unaryPOpMrp dst src hbase hop

/-- So does a basis conversion. -/
theorem basisConvert (dst src : List DevAddr) (p : BasisConvertParams)
    (hop : ∀ srcBase dstBase, p.validate = .ok (srcBase, dstBase) →
      (∀ q ∈ srcBase, D.base q) ∧ (∀ q ∈ dstBase, D.base q) ∧ ∀ m variant shape,
        D.mrp srcBase m → D.mrp dstBase (F.fastBaseConvert m dstBase variant shape)) :
    Expected.Triple I (basisConvert F env dst src p) (fun _ => J) (fun _ w => I w ∨ J w) := by
  refine h.validated fun ⟨srcBase, dstBase⟩ hp => ?_
  obtain ⟨hsrc, hdst, hconvert⟩ := hop srcBase dstBase hp
  refine Expected.Triple.bind (h.inside.buildMrp src hsrc) fun m => .get_bind fun w hw => ?_
  exact (h.inside.storeMrp dst (hconvert m _ _ hw.1) hdst).mono (fun v hv => hv ▸ hw.2)
    (fun _ _ hv => hv) fun _ _ hv => hv

/-- So does a rescaling. -/
theorem modDown (dst src : List DevAddr) (p : ModDownParams)
    (hop : ∀ srcBase rescaleBase, p.validate = .ok (srcBase, rescaleBase) →
      (∀ q ∈ srcBase, D.base q) ∧ ∀ m variant shape, D.mrp srcBase m →
        (∀ q ∈ F.base (F.rescaleFbc m rescaleBase variant shape), D.base q) ∧
          D.mrp (F.base (F.rescaleFbc m rescaleBase variant shape))
            (F.rescaleFbc m rescaleBase variant shape)) :
    Expected.Triple I (modDown F env dst src p) (fun _ => J) (fun _ w => I w ∨ J w) := by
  refine h.validated fun ⟨srcBase, rescaleBase⟩ hp => ?_
  obtain ⟨hsrc, hrescale⟩ := hop srcBase rescaleBase hp
  refine Expected.Triple.bind (h.inside.buildMrp src hsrc) fun m => .get_bind fun w hw => ?_
  obtain ⟨hbase, hmrp⟩ := hrescale m (fbcVariant w.config) (fbcCenterShape w.config) hw.1
  exact (h.inside.storeMrp dst hmrp hbase).mono (fun v hv => hv ▸ hw.2)
    (fun _ _ hv => hv) fun _ _ hv => hv

/-- So does a lifting. -/
theorem modUp (dst src : List DevAddr) (p : ModUpParams)
    (hop : ∀ srcBase digitBases lens pBase, p.validate = .ok (srcBase, digitBases, lens, pBase) →
      (∀ q ∈ srcBase, D.base q) ∧ ∀ digitBase ∈ sliceDigits digitBases lens,
        ∀ m variant shape, D.mrp srcBase m →
          let digit := F.fastBaseConvert (F.mrSubset m digitBase) (F.base m ++ pBase) variant shape
          (∀ q ∈ F.base digit, D.base q) ∧ D.mrp (F.base digit) digit) :
    Expected.Triple I (modUp F env dst src p) (fun _ => J) (fun _ w => I w ∨ J w) := by
  refine h.validated fun ⟨srcBase, digitBases, lens, pBase⟩ hp => ?_
  obtain ⟨hsrc, hdigits⟩ := hop srcBase digitBases lens pBase hp
  refine Expected.Triple.bind (h.inside.buildMrp src hsrc) fun m => .get_bind fun w hw => ?_
  have hstore := h.inside.storeDigits (d := 0) dst fun digitBase hdigit =>
    hdigits digitBase hdigit m (fbcVariant w.config) (fbcCenterShape w.config) hw.1
  exact hstore.mono (fun v hv => hv ▸ hw.2) (fun _ _ hv => hv) fun _ _ hv => hv

end Sessioned

namespace Kept

variable {F : Fhetch P M} {I : World P M → Prop} (h : Kept F I)

include h

/-- A flush keeps what is kept everywhere. -/
theorem flush (env : CompilerReplies P) {w : World P M} (hv : w.epoch.Valid) (hw : I w) :
    I (flush F env w).2 := by
  unfold World.flush
  rw [Expected.get_bind_run]
  split_ifs
  · exact hw
  · exact h.finalize env true w hv hw

end Kept

end World

/-! ## Calls -/

/-- A call leads from states of `I` to states of `K`. -/
def Shim.Leads (I K : World P M → Prop) (shim : Shim P M) : Prop := ∀ w, I w → K (shim w).2

namespace Shim.Leads

variable {I K : World P M → Prop}

/-- Arguments that are rejected leave the state as it is. -/
theorem invalidValue (hK : ∀ w, I w → K w) : Shim.Leads I K (Shim.invalidValue : Shim P M) := hK

/-- An entry that replies with its method's result leads where the method leads. -/
theorem replyWith {α : Type} {x : Method P M α}
    (hx : Expected.Triple I x (fun _ => K) (fun _ => K)) (onOk : α → Reply) :
    Shim.Leads I K (Shim.replyWith onOk x) := by
  intro w hw
  rw [Shim.replyWith_state]
  exact hx.state hw

/-- An entry with a guard leads there or stays. -/
theorem guarded {shim : Shim P M} (hK : ∀ w, I w → K w) (rejected : Bool)
    (h : Shim.Leads I K shim) : Shim.Leads I K (Shim.guarded rejected shim) := by
  unfold Shim.guarded
  split_ifs
  · exact invalidValue hK
  · exact h

/-- So does an entry with arrays. -/
theorem withArrays {x : List DevAddr → List DevAddr → List UInt64 → Method P M Unit}
    (hK : ∀ w, I w → K w) {base : List UInt64}
    (h : ∀ dst src, Expected.Triple I (x dst src base) (fun _ => K) (fun _ => K))
    (dst src : Option (List DevAddr)) :
    Shim.Leads I K (Haze.withArrays dst src (some base) x) := by
  rcases dst with _ | dst
  · exact invalidValue hK
  rcases src with _ | src
  · exact invalidValue hK
  · exact guarded hK _ (replyWith (h dst src) _)

/-- A base that is null is rejected. -/
theorem nullBase {x : List DevAddr → List DevAddr → List UInt64 → Method P M Unit}
    (hK : ∀ w, I w → K w) (dst src : Option (List DevAddr)) :
    Shim.Leads I K (Haze.withArrays dst src none x) := by
  rcases dst with _ | dst
  · exact invalidValue hK
  rcases src with _ | src <;> exact invalidValue hK

/-- So does an entry with a parameter block. -/
theorem dispatch {T : Type} {x : List DevAddr → List DevAddr → T → Method P M Unit}
    (hK : ∀ w, I w → K w)
    (dst src : Option (List DevAddr)) (params : Option T)
    (h : ∀ dst src p, params = some p →
      Expected.Triple I (x dst src p) (fun _ => K) (fun _ => K)) :
    Shim.Leads I K (Haze.dispatch x dst src params) := by
  rcases dst with _ | dst
  · exact invalidValue hK
  rcases src with _ | src
  · exact invalidValue hK
  rcases hp : params with _ | p
  · exact invalidValue hK
  · exact replyWith (h dst src p hp) _

end Shim.Leads

namespace World.Sessioned

variable {F : Fhetch P M} {D : Domain P M} {env : CompilerReplies P} {I J : World P M → Prop}
  (h : Sessioned F D env I J)

include h

/-- A call that records and stays in the domain leads from `I` to `J`, or stays in `I` when it is
rejected. -/
theorem run {c : Call} (hc : c.Records) (hr : c.Respects F D) :
    Shim.Leads I (fun w => I w ∨ J w) (c.run F env) := by
  -- Before the session a call keeps the one invariant, inside it the other.
  have hrejected : ∀ w, I w → I w ∨ J w := fun _ => .inl
  have hopened : ∀ {x : Method P M Unit}, Expected.Triple I x (fun _ => J) (fun _ => J) →
      Expected.Triple I x (fun _ w => I w ∨ J w) (fun _ w => I w ∨ J w) := fun hx =>
    hx.mono (fun _ hw => hw) (fun _ _ => .inr) (fun _ _ => .inr)
  have hchecked : ∀ {x : Method P M Unit},
      Expected.Triple I x (fun _ => J) (fun _ w => I w ∨ J w) →
      Expected.Triple I x (fun _ w => I w ∨ J w) (fun _ w => I w ∨ J w) := fun hx =>
    hx.mono (fun _ hw => hw) (fun _ _ => .inr) (fun _ _ hw => hw)
  -- The calls that record, each with what its contract gives.
  cases c with
  | memcpy transfer count =>
    cases transfer with
    | hostToDevice dst src =>
      exact .guarded hrejected _ (.replyWith (hchecked (h.uploads (h.onAllocator _)
        (h.inside.tagH2dInputLocked dst))) _)
    | deviceToDevice dst src =>
      exact .guarded hrejected _ (.replyWith (hopened (h.bind
        (h.inside.copyResult dst src (fun hq => absurd rfl hq)))) _)
    | _ => exact hc.elim
  | memcpyMrp transfer count base =>
    cases transfer with
    | hostToDevice dst src =>
      rcases dst with _ | dst
      · exact .invalidValue hrejected
      rcases src with _ | src
      · exact .invalidValue hrejected
      rcases base with _ | base
      · exact .invalidValue hrejected
      · exact .guarded hrejected _ (.replyWith (hchecked (h.copyH2dMrp dst src count _)) _)
    | deviceToDevice dst src =>
      rcases dst with _ | dst
      · exact .invalidValue hrejected
      rcases src with _ | src
      · exact .invalidValue hrejected
      rcases base with _ | base
      · exact .invalidValue hrejected
      · exact .guarded hrejected _ (.replyWith (hopened (h.copyDeviceToDeviceMrp dst src hr)) _)
    | _ => exact hc.elim
  | pp op dst src1 src2 modIdx =>
    cases op <;> exact .guarded hrejected _ (.replyWith (hopened
      (h.binaryPpOp dst src1 src2 modIdx hr)) _)
  | ps op dst src scalar modIdx =>
    cases op <;> exact .guarded hrejected _ (.replyWith (hopened
      (h.unaryPqOp dst src modIdx hr)) _)
  | transform op dst src modIdx =>
    cases op <;> exact .guarded hrejected _ (.replyWith (hopened
      (h.unaryPqOp dst src modIdx hr)) _)
  | automorph dst src index =>
    exact .guarded hrejected _ (.replyWith (hopened (h.unaryPiOp dst src index hr)) _)
  | ppMrp op dst src1 src2 base =>
    -- The second source is checked before the other arrays.
    rcases src2 with _ | src2
    · cases op <;> exact .invalidValue hrejected
    rcases base with _ | base
    · cases op <;> exact .nullBase hrejected dst src1
    · cases op <;> exact .withArrays hrejected
        (fun dst src => hopened (h.binaryPpOpMrp dst src src2 hr.1 hr.2)) dst src1
  | psMrp op dst src scalars base =>
    rcases scalars with _ | scalars
    · cases op <;> exact .invalidValue hrejected
    rcases base with _ | base
    · cases op <;> exact .nullBase hrejected dst src
    · cases op <;> exact .withArrays hrejected
        (fun dst src => hopened (h.binaryPsOpMrp dst src hr.1 hr.2)) dst src
  | transformMrp op dst src base =>
    rcases base with _ | base
    · cases op <;> exact .nullBase hrejected dst src
    · cases op <;> exact .withArrays hrejected
        (fun dst src => hopened (h.unaryPOpMrp dst src hr.1 hr.2)) dst src
  | indexMrp op dst src index base =>
    rcases base with _ | base
    · cases op <;> exact .nullBase hrejected dst src
    · cases op <;> exact .withArrays hrejected
        (fun dst src => hopened (h.unaryPOpMrp dst src hr.1 hr.2)) dst src
  -- The bases are validated before the session is opened.
  | basisConvert dst src params =>
    exact .dispatch hrejected dst src params fun dst src p hp => hchecked
      (h.basisConvert dst src p (by subst hp; exact hr))
  | modDown dst src params =>
    exact .dispatch hrejected dst src params fun dst src p hp => hchecked
      (h.modDown dst src p (by subst hp; exact hr))
  | modUp dst src params =>
    exact .dispatch hrejected dst src params fun dst src p hp => hchecked
      (h.modUp dst src p (by subst hp; exact hr))
  | _ => exact hc.elim

end World.Sessioned

namespace World.Kept

variable {F : Fhetch P M} {I : World P M → Prop} (h : Kept F I)

include h

/-- Setting the dimension keeps what is kept everywhere. -/
theorem setRingDimension (n : UInt64) : Shim.Leads I I (hazeSetRingDimension n : Shim P M) := by
  refine .replyWith (Expected.Keeps.iff_state.mpr fun w hw => ?_) _
  unfold World.setRingDimension
  split_ifs
  · exact hw
  · exact hw
  · have hc := h.config w { w.config with ringDim := n } hw
    exact h.allocator _ (w.allocator.setPolynomialSize (n * 8)) hc

/-- So does a configuration call. -/
theorem configCall (call : ConfigCall) : Shim.Leads I I (call.run : Shim P M) := by
  have hset : ∀ x : Config.Method Unit,
      Shim.Leads I I (Shim.setInternalResult (onConfig x) : Shim P M) := fun x =>
    .replyWith (Expected.Keeps.iff_state.mpr fun w hw => h.config w (x w.config).2 hw) _
  cases call <;> exact hset _

/-- Every call keeps what the primitive methods keep. -/
theorem run (env : CompilerReplies P) (c : Call) {w : World P M} (hv : w.epoch.Valid) (hw : I w) :
    I (c.run F env w).2 := by
  -- A call that records has been treated by its session.
  by_cases hc : c.Records
  · exact ((h.sessioned env).run hc (c.respects_all F) w hw).elim id id
  have hrejected : ∀ w, I w → I w := fun _ hw => hw
  cases c with
  | malloc ptr size => exact Shim.Leads.guarded hrejected _ (.replyWith (h.onAllocator _) _) w hw
  | free ptr =>
    exact Shim.Leads.replyWith (.bind (h.invalidateNonNull ptr) fun _ => h.onAllocator _) _ w hw
  | mallocMrp ptrs count size =>
    exact Shim.Leads.guarded hrejected _ (.replyWith (h.onAllocator _) _) w hw
  | freeMrp ptrs count =>
    rcases ptrs with _ | ptrs
    · exact hw
    · exact Shim.Leads.guarded hrejected _ (.replyWith (.bind (.forEach fun a _ =>
        h.invalidateNonNull a) fun _ => h.onAllocator _) _) w hw
  | memcpy transfer count =>
    cases transfer with
    | deviceToHost dst src =>
      exact Shim.Leads.guarded hrejected _ (.replyWith (h.onAllocator _) _) w hw
    | unknownKind => exact hw
    | _ => exact absurd trivial hc
  | memcpyMrp transfer count base =>
    cases transfer with
    | deviceToHost dst src =>
      rcases dst with _ | dst
      · exact hw
      rcases src with _ | src
      · exact hw
      rcases base with _ | base
      · exact hw
      · exact Shim.Leads.guarded hrejected _ (.replyWith
          (Expected.Keeps.mapEach fun _ _ => h.onAllocator _) _) w hw
    | unknownKind => exact hw
    | _ => exact absurd trivial hc
  | memset devPtr value count =>
    exact Shim.Leads.guarded hrejected _ (.replyWith (.bind (h.onAllocator _) fun _ =>
      h.modifyEpoch (fun _ => .invalidate devPtr) (fun _ => trivial) fun _ => rfl) _) w hw
  | tagOutput ptr =>
    exact Shim.Leads.guarded hrejected _ (.replyWith
      (h.onEpoch (.tagOutput ptr) trivial fun _ => rfl) _) w hw
  | flush =>
    change I (Shim.replyWith _ (World.flush F env) w).2
    -- A flush and a write go through the finalization.
    rw [Shim.replyWith_state]
    exact h.flush env hv hw
  | writeProgram =>
    change I (Shim.replyWith _ (finalizeLocked F env false) w).2
    rw [Shim.replyWith_state]
    exact h.finalize env false w hv hw
  | deviceReset => exact h.reset w hw
  | setRingDimension n => exact h.setRingDimension n w hw
  | config call => exact h.configCall call w hw
  | _ => exact absurd trivial hc

/-- Every critical section keeps what the primitive methods keep. -/
theorem section_run (x : CriticalSection P) {w : World P M} (hv : w.epoch.Valid) (hw : I w) :
    I (x.run F w) := by
  cases x with
  | call i => exact h.run i.env i.call hv hw
  | tagH2dInput env addrs =>
    exact (Expected.Keeps.bind (h.session env) fun _ =>
      .forEach fun addr _ => h.tagH2dInputLocked addr).state hw
  | invalidate ptr => exact (h.invalidateNonNull ptr).state hw
  | allocator s => exact h.allocator w s hw
  | config c => exact h.config w c hw

/-- What the primitive methods keep holds after every sequence of critical sections. -/
theorem sections (hinit : I .init) (xs : List (CriticalSection P)) :
    I (xs.foldl (CriticalSection.run F) World.init) := by
  have hall : ∀ w : World P M, w.epoch.Valid → I w → I (xs.foldl (CriticalSection.run F) w) := by
    induction xs with
    | nil => exact fun w _ hw => hw
    | cons x xs ih =>
      exact fun w hv hw => ih _ (CriticalSection.run_valid hv x) (h.section_run x hv hw)
  exact hall _ EpochState.valid_init hinit

end World.Kept

end Haze
