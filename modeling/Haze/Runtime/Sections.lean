import Haze.Lib.Resumption
import Haze.Runtime.Parameters

/-!
# The calls cut into their critical sections

A lookup and the tagging of an upload read the ring dimension under the lock of the configuration,
and then the words under the lock of the allocator. The setter changes the ring dimension and the
size of an allocation in one section, and a reset of the device in two. Here every public call is
written down with these as sections of its own (`Call.code`), in the order in which the source
enters them; what stands between them keeps both values and is one section, and so is a call that
has none of them.

Run without interruption, the sections of a call are the call (`Call.code_exec`).
-/

namespace Haze

variable {P M : Type}

/-- A copy from the host is refused, or writes the words of its destination. -/
theorem DeviceAllocator.copyH2d_cases (dst : DevAddr) (src : Option (List UInt8)) (count : UInt64)
    (s : DeviceAllocator) : (copyH2d dst src count s).2 = s ∨
      ∃ bytes, (copyH2d dst src count s).2 = s.writeShadow dst bytes := by
  rcases src with _ | bytes
  · exact .inl rfl
  change (((Expected.query (checkRange dst count)) >>= fun _ =>
    Expected.modify (writeShadow dst (bytes.takeD count.toNat 0))) s).2 = s ∨ _
  rcases hrange : s.checkRange dst count with e | ⟨⟩
  · rw [Expected.query_bind_error hrange]
    exact .inl rfl
  · refine .inr ⟨bytes.takeD count.toNat 0, ?_⟩
    change (((Expected.query (checkRange dst count)) >>= fun _ =>
      Expected.modify (writeShadow dst (bytes.takeD count.toNat 0))) s).2 = _
    rw [Expected.query_bind_ok hrange]
    rfl

/-- Writing bytes leaves no address without words that had some. -/
theorem DeviceAllocator.writeShadow_ne_none {s : DeviceAllocator} {a : DevAddr}
    (h : s.shadow a ≠ none) (dst : DevAddr) (bytes : List UInt8) :
    (s.writeShadow dst bytes).shadow a ≠ none := by
  change AList.lookup a (AList.insert dst _ s.shadowData) ≠ none
  by_cases ha : a = dst
  · rw [ha, AList.lookup_insert]
    exact Option.some_ne_none _
  · rw [AList.lookup_insert_ne ha]
    exact h

namespace World

/-! ## What a section keeps -/

/-- The ring dimension and the size of an allocation are the same. -/
def SamePair (w w' : World P M) : Prop :=
  w'.config.ringDim = w.config.ringDim ∧ w'.allocator.polyBytes = w.allocator.polyBytes

/-- No address is bound anew, and none loses its words. -/
def SameBindings (w w' : World P M) : Prop :=
  w'.epoch.polyMap = w.epoch.polyMap ∧ ∀ a, w.shadow a ≠ none → w'.shadow a ≠ none

instance : Std.Refl (SamePair (P := P) (M := M)) := ⟨fun _ => ⟨rfl, rfl⟩⟩

instance : IsTrans (World P M) SamePair :=
  ⟨fun _ _ _ h h' => ⟨h'.1.trans h.1, h'.2.trans h.2⟩⟩

instance : Std.Refl (SameBindings (P := P) (M := M)) := ⟨fun _ => ⟨rfl, fun _ h => h⟩⟩

instance : IsTrans (World P M) SameBindings :=
  ⟨fun _ _ _ h h' => ⟨h'.1.trans h.1, fun a ha => h'.2 a (h.2 a ha)⟩⟩

/-- A method that keeps the ring dimension and the size of an allocation. -/
abbrev KeepsPair {α : Type} (x : Method P M α) : Prop := Expected.Moves SamePair x

/-- A method that neither binds an address nor takes the words of one. -/
abbrev KeepsBindings {α : Type} (x : Method P M α) : Prop := Expected.Moves SameBindings x

namespace KeepsPair

variable {α : Type}

/-- A method of the epoch. -/
theorem onEpoch (x : Expected HazeInternalError (EpochState P) α) :
    KeepsPair (World.onEpoch x : Method P M α) :=
  fun _ => ⟨rfl, rfl⟩

/-- Calls to the compiler. -/
theorem call (cs : List (CompilerCall P M)) : KeepsPair (World.call cs) := fun _ => ⟨rfl, rfl⟩

/-- Opening a session. -/
theorem session (env : CompilerReplies P) : KeepsPair (epochSession env : Method P M Unit) := by
  intro w
  unfold epochSession ensureRecordingLocked ensureInitialized
  rw [Expected.modify_run]
  split_ifs <;> exact ⟨rfl, rfl⟩

/-- Copying bytes from the host writes words only. -/
theorem copyH2d (dst : DevAddr) (src : Option (List UInt8)) (count : UInt64) :
    KeepsPair (onAllocator (DeviceAllocator.copyH2d dst src count) : Method P M Unit) := by
  intro w
  refine ⟨rfl, ?_⟩
  change (DeviceAllocator.copyH2d dst src count w.allocator).2.polyBytes = _
  rcases DeviceAllocator.copyH2d_cases dst src count w.allocator with he | ⟨bytes, he⟩
  · rw [he]
  · rw [he]
    rfl

end KeepsPair

namespace KeepsBindings

/-- Opening a session changes the recording at most. -/
theorem session (env : CompilerReplies P) : KeepsBindings (epochSession env : Method P M Unit) := by
  intro w
  unfold epochSession ensureRecordingLocked ensureInitialized
  rw [Expected.modify_run]
  split_ifs <;> exact ⟨rfl, fun _ h => h⟩

/-- Copying bytes from the host leaves words at the address, and those of the others. -/
theorem copyH2d (dst : DevAddr) (src : Option (List UInt8)) (count : UInt64) :
    KeepsBindings (onAllocator (DeviceAllocator.copyH2d dst src count) : Method P M Unit) := by
  intro w
  refine ⟨rfl, fun a ha => ?_⟩
  change (DeviceAllocator.copyH2d dst src count w.allocator).2.shadow a ≠ none
  rcases DeviceAllocator.copyH2d_cases dst src count w.allocator with he | ⟨bytes, he⟩
  · rw [he]
    exact ha
  · rw [he]
    exact DeviceAllocator.writeShadow_ne_none ha dst bytes

end KeepsBindings

/-! ## What follows the sources of a call -/

section

variable (F : Fhetch P M)

/-- A copy of a resolved source. -/
def recordCopy (dst src : DevAddr) (modulus : UInt64) (poly : P) : Method P M Unit := do
  let w ← Expected.get
  let modulus := if modulus = kCopyModulus then w.epoch.recordedModulusLocked src else modulus
  let copy := F.srAddps poly 0 kCopyModulus
  bindModulus [poly, copy] modulus
  if modulus ≠ kCopyModulus then modifyEpoch (EpochState.recordModulus src modulus) else pure ()
  modifyEpoch (EpochState.storeComputeResultLocked dst copy modulus)

/-- A multi-residue polynomial of resolved residues. -/
def assembleMrp (addrs : List DevAddr) (base : List UInt64) (pairs : List (P × UInt64)) :
    Method P M M := do
  let mrp := F.fromPairs pairs
  let w ← Expected.get
  if 1 < base.length ∧ addrs.headD .null ∈ w.epoch.inputAddrs then do
    let name ← onEpoch (EpochState.mrpGroupNameLocked false (addrs.headD .null))
    tagMrpInputIfNewLocked name mrp
    pure mrp
  else pure mrp

/-- The result of an operation with an index, under the modulus that is recorded for the source. -/
def storeIndexed (opFn : P → UInt64 → P) (dst src : DevAddr) (index : UInt64) (p : P) :
    Method P M Unit := do
  let w ← Expected.get
  let q := w.epoch.recordedModulusLocked src
  bindModulus [p, opFn p index] q
  modifyEpoch (EpochState.storeComputeResultLocked dst (opFn p index) q)

/-- The result of a basis conversion. -/
def storeConverted (dst : List DevAddr) (dstBase : List UInt64) (mrp : M) : Method P M Unit := do
  let w ← Expected.get
  storeMrpLocked F dst
    (F.fastBaseConvert mrp dstBase (fbcVariant w.config) (fbcCenterShape w.config)) dstBase

/-- The result of a rescaling. -/
def storeRescaled (dst : List DevAddr) (rescaleBase : List UInt64) (mrp : M) : Method P M Unit := do
  let w ← Expected.get
  let result := F.rescaleFbc mrp rescaleBase (fbcVariant w.config) (fbcCenterShape w.config)
  storeMrpLocked F dst result (F.base result)

/-- The digits of a decomposition. -/
def storeLifted (dst : List DevAddr) (digits : List (List UInt64)) (pBase : List UInt64) (mrp : M) :
    Method P M Unit := do
  let w ← Expected.get
  storeDigits F dst
    (fun digitBase => F.fastBaseConvert (F.mrSubset mrp digitBase) (F.base mrp ++ pBase)
      (fbcVariant w.config) (fbcCenterShape w.config))
    0 digits

end

namespace KeepsPair

variable {F : Fhetch P M}

/-- Binding moduli keeps the pair. -/
theorem bindModulus (polys : List P) (q : UInt64) :
    KeepsPair (World.bindModulus polys q : Method P M Unit) := by
  unfold World.bindModulus
  split_ifs
  · exact call _
  · exact .pure ()

/-- Recording a copy keeps it. -/
theorem recordCopy (dst src : DevAddr) (modulus : UInt64) (poly : P) :
    KeepsPair (World.recordCopy F dst src modulus poly) := by
  refine .get_bind fun w => ?_
  dsimp only
  generalize (if modulus = kCopyModulus then w.epoch.recordedModulusLocked src else modulus) = q
  refine .bind (bindModulus _ _) fun _ => ?_
  split_ifs
  · exact .bind (onEpoch _) fun _ => onEpoch _
  · exact .bind (.pure ()) fun _ => onEpoch _

/-- Assembling a multi-residue polynomial keeps it. -/
theorem assembleMrp (addrs : List DevAddr) (base : List UInt64) (pairs : List (P × UInt64)) :
    KeepsPair (World.assembleMrp F addrs base pairs) := by
  refine .get_bind fun w => ?_
  split_ifs
  · refine .bind (onEpoch _) fun name => .bind (.get_bind fun v => ?_) fun _ => .pure _
    split_ifs
    · exact .pure ()
    · exact .bind (onEpoch _) fun _ => call _
  · exact .pure _

/-- Storing a rotation keeps it. -/
theorem storeIndexed (opFn : P → UInt64 → P) (dst src : DevAddr) (index : UInt64) (p : P) :
    KeepsPair (World.storeIndexed opFn dst src index p : Method P M Unit) :=
  .get_bind fun _ => .bind (bindModulus _ _) fun _ => onEpoch _

/-- Registering a group keeps it. -/
theorem registerGroup (addrs : List DevAddr) (base : List UInt64) :
    KeepsPair (World.registerGroup addrs base : Method P M Unit) := by
  unfold World.registerGroup
  split_ifs
  · exact .bind (onEpoch _) fun _ => onEpoch _
  · exact .pure ()

/-- Storing a multi-residue polynomial. -/
theorem storeMrp (dst : List DevAddr) (mrp : M) (base : List UInt64) :
    KeepsPair (storeMrpLocked F dst mrp base) :=
  .bind (.forEach fun _ => onEpoch _) fun _ => registerGroup _ _

/-- Storing what was converted keeps it. -/
theorem storeConverted (dst : List DevAddr) (dstBase : List UInt64) (mrp : M) :
    KeepsPair (World.storeConverted F dst dstBase mrp) :=
  .get_bind fun _ => storeMrp _ _ _

/-- Storing what was rescaled keeps it. -/
theorem storeRescaled (dst : List DevAddr) (rescaleBase : List UInt64) (mrp : M) :
    KeepsPair (World.storeRescaled F dst rescaleBase mrp) :=
  .get_bind fun _ => storeMrp _ _ _

/-- Storing digits keeps it. -/
theorem storeDigits (dst : List DevAddr) (lift : List UInt64 → M) (d : ℕ)
    (digits : List (List UInt64)) : KeepsPair (World.storeDigits F dst lift d digits) := by
  induction digits generalizing d with
  | nil => exact .pure ()
  | cons digit digits ih => exact .bind (storeMrp _ _ _) fun _ => ih (d + 1)

/-- Storing what was lifted keeps it. -/
theorem storeLifted (dst : List DevAddr) (digits : List (List UInt64)) (pBase : List UInt64)
    (mrp : M) : KeepsPair (World.storeLifted F dst digits pBase mrp) :=
  .get_bind fun _ => storeDigits _ _ _ _

end KeepsPair

/-- The tag of a multi-residue input binds nothing. -/
theorem KeepsBindings.assembleMrp (F : Fhetch P M) (addrs : List DevAddr) (base : List UInt64)
    (pairs : List (P × UInt64)) : KeepsBindings (World.assembleMrp F addrs base pairs) := by
  have hname : KeepsBindings (onEpoch (EpochState.mrpGroupNameLocked false (addrs.headD .null)) :
      Method P M ProbeName) := by
    intro w
    refine ⟨?_, fun _ h => h⟩
    change (EpochState.mrpGroupNameLocked false (addrs.headD .null) w.epoch).2.polyMap = _
    unfold EpochState.mrpGroupNameLocked
    rw [if_neg Bool.false_ne_true]
    rcases AList.lookup (addrs.headD .null) w.epoch.mrpInNames with _ | name <;> rfl
  refine .get_bind fun w => ?_
  split_ifs
  · refine .bind hname fun name => .bind (.get_bind fun v => ?_) fun _ => .pure _
    split_ifs
    · exact .pure ()
    · exact .bind (fun _ => ⟨rfl, fun _ h => h⟩) fun _ _ => ⟨rfl, fun _ h => h⟩
  · exact .pure _

end World

open World

/-! ## The methods that read the pair -/

/-- The methods that read the ring dimension and then the allocator. -/
inductive Observer where
  | lookupOrCreate
  | tagH2dInput
deriving DecidableEq

namespace Observer

/-- What the method returns. -/
def Result (P : Type) : Observer → Type
  | lookupOrCreate => P
  | tagH2dInput => Unit

/-- What the method comes to before it goes to the allocator: a lookup finds the polynomial that is
bound, and a tag fails when no dimension is set. -/
def start (addr : DevAddr) (w : World P M) :
    (k : Observer) → Option (Except HazeInternalError (k.Result P))
  | lookupOrCreate => (AList.lookup addr w.epoch.polyMap).map .ok
  | tagH2dInput => if w.config.ringDim = 0 then some (.error .notConfigured) else none

/-- The section of the allocator. -/
def take (addr : DevAddr) (ringDim : UInt64) : Observer → Method P M (List UInt64)
  | lookupOrCreate => extractSource addr ringDim
  | tagH2dInput => onAllocator (DeviceAllocator.readPolynomialComponents addr ringDim)

/-- The rest of the method. -/
def bind (F : Fhetch P M) (addr : DevAddr) (values : List UInt64) (ringDim : UInt64) :
    (k : Observer) → Method P M (k.Result P)
  | lookupOrCreate => tagInput F addr values ringDim
  | tagH2dInput => do
    let _ ← tagInput F addr values ringDim
    modifyEpoch (EpochState.dropTag addr)

/-- The whole method. -/
def run (F : Fhetch P M) (addr : DevAddr) : (k : Observer) → Method P M (k.Result P)
  | lookupOrCreate => lookupOrCreateLocked F addr
  | tagH2dInput => tagH2dInputLocked F addr

/-- A method that does not go to the allocator leaves the state as it is. -/
theorem run_of_start {F : Fhetch P M} {k : Observer} {addr : DevAddr} {w : World P M}
    {r : Except HazeInternalError (k.Result P)} (h : k.start addr w = some r) :
    k.run F addr w = (r, w) := by
  cases k with
  | lookupOrCreate =>
    obtain ⟨poly, hpoly, rfl⟩ := Option.map_eq_some_iff.mp h
    change lookupOrCreateLocked F addr w = (.ok poly, w)
    unfold lookupOrCreateLocked
    rw [Expected.get_bind_run, hpoly]
    rfl
  | tagH2dInput =>
    obtain ⟨hdim, hr⟩ := Option.ite_none_right_eq_some.mp h
    cases hr
    change tagH2dInputLocked F addr w = (.error .notConfigured, w)
    unfold tagH2dInputLocked
    rw [Expected.get_bind_run, if_pos hdim]
    rfl

/-- A method that goes to the allocator does so under the dimension that it has read. -/
theorem run_of_reads {F : Fhetch P M} {k : Observer} {addr : DevAddr} {w : World P M}
    (h : k.start addr w = none) : k.run F addr w =
      (k.take addr w.config.ringDim >>= fun values => k.bind F addr values w.config.ringDim) w := by
  cases k with
  | lookupOrCreate =>
    change lookupOrCreateLocked F addr w = _
    unfold lookupOrCreateLocked
    rw [Expected.get_bind_run, Option.map_eq_none_iff.mp h]
    rfl
  | tagH2dInput =>
    have hdim : w.config.ringDim ≠ 0 := fun hzero => nomatch (if_pos hzero).symm.trans h
    change tagH2dInputLocked F addr w = _
    unfold tagH2dInputLocked
    rw [Expected.get_bind_run, if_neg hdim]
    rfl

/-- The section of the allocator changes at most the words. -/
theorem take_frame (k : Observer) (addr : DevAddr) (n : UInt64) (w : World P M) :
    ∃ shadow, (k.take addr n w).2 =
      { w with allocator := { w.allocator with shadowData := shadow } } := by
  cases k with
  | lookupOrCreate =>
    change ∃ shadow, (extractSource addr n w).2 = _
    unfold extractSource
    rw [Expected.attempt_bind_run, onAllocator, Expected.zoom_run,
      DeviceAllocator.extractPolynomialComponents]
    rcases DeviceAllocator.components addr n w.allocator with e | values
    · cases e <;> exact ⟨_, rfl⟩
    · exact ⟨_, rfl⟩
  | tagH2dInput => exact ⟨_, rfl⟩

/-- A refusal before the words are looked for changes nothing. -/
theorem take_refused (k : Observer) {addr : DevAddr} {n : UInt64} {w : World P M}
    {e : HazeInternalError} (h : DeviceAllocator.components addr n w.allocator = .error e)
    (he : e ≠ .shadowSizeMismatch) : ∃ e', k.take addr n w = (.error e', w) := by
  cases k with
  | lookupOrCreate =>
    change ∃ e', extractSource addr n w = (.error e', w)
    unfold extractSource
    rw [Expected.attempt_bind_run, onAllocator, Expected.zoom_run,
      DeviceAllocator.extractPolynomialComponents, h]
    cases e <;> first | exact absurd rfl he | exact ⟨_, rfl⟩
  | tagH2dInput =>
    refine ⟨e, ?_⟩
    change onAllocator (DeviceAllocator.readPolynomialComponents addr n) w = _
    rw [onAllocator, Expected.zoom_run, DeviceAllocator.readPolynomialComponents,
      Expected.query_run, h]

/-- The allocator refuses a dimension whose size is more than that of an allocation. -/
theorem components_small (addr : DevAddr) {n : UInt64} {s : DeviceAllocator}
    (h : n = 0 ∨ s.polyBytes < n * 8) :
    ∃ e, DeviceAllocator.components addr n s = .error e ∧ e ≠ .shadowSizeMismatch := by
  unfold DeviceAllocator.components
  by_cases hn : n = 0
  · exact ⟨_, if_pos hn, by decide⟩
  rw [if_neg hn]
  by_cases ha : addr ∈ s.allocSet
  · rw [if_neg (not_not.mpr ha), if_pos (h.resolve_left hn)]
    exact ⟨_, rfl, by decide⟩
  · exact ⟨_, if_pos ha, by decide⟩

/-- The rest of the method is in the epoch. -/
theorem bind_frame (F : Fhetch P M) (k : Observer) (addr : DevAddr) (values : List UInt64)
    (n : UInt64) (w : World P M) :
    (k.bind F addr values n w).2.config = w.config ∧
      (k.bind F addr values n w).2.allocator = w.allocator := by
  cases k <;> exact ⟨rfl, rfl⟩

end Observer

/-! ## Sections -/

/-- A section that is not one of a lookup or a tag. -/
inductive Update (P M : Type) where
  /-- A section that keeps the ring dimension and the size of an allocation. Unless it is marked, it
  neither binds an address nor takes the words of one. -/
  | other (binds : Bool) (f : World P M → World P M) (pair : ∀ w, World.SamePair w (f w))
      (bindings : binds = false → ∀ w, World.SameBindings w (f w))
  | setRingDimension (n : UInt64)
  | resetAllocator
  | resetConfig

namespace Update

/-- What the section does to the state. -/
def run : Update P M → World P M → World P M
  | other _ f _ _ => f
  | setRingDimension n => fun w => (World.setRingDimension n w).2
  | resetAllocator => fun w => { w with allocator := .init }
  | resetConfig => fun w => { w with config := .init }

/-- Whether the section may bind an address or take the words of one. -/
def binds : Update P M → Bool
  | other b _ _ _ => b
  | _ => true

end Update

/-- A section of a call. -/
inductive Section (P M : Type) where
  | observe (k : Observer) (addr : DevAddr)
  | update (u : Update P M)

namespace Section

/-- A lookup or a tag has its own result. Any other section has the state that it starts in, from
which what the call returns of it is read. -/
def Result : Section P M → Type
  | observe k _ => k.Result P
  | update _ => World P M

/-- The sections of a lookup or a tag in one. -/
def run (F : Fhetch P M) : (a : Section P M) → Method P M a.Result
  | observe k addr => k.run F addr
  | update u => fun w => (.ok w, u.run w)

end Section

/-- The sections of a method. -/
abbrev Code (P M R : Type) : Type := Resumption (Section P M) Section.Result HazeInternalError R

namespace Code

variable {α : Type}

/-- A method in one section. -/
def ofMethod (x : Method P M α) (hpair : KeepsPair x) : Code P M α :=
  .enter (.update (.other true (fun w => (x w).2) hpair nofun)) fun w => .done (x w).1

/-- A method in one section that neither binds an address nor takes the words of one. -/
def quiet (x : Method P M α) (hpair : KeepsPair x) (hbindings : KeepsBindings x) : Code P M α :=
  .enter (.update (.other false (fun w => (x w).2) hpair fun _ => hbindings)) fun w => .done (x w).1

/-- A call in one section. -/
def ofShim (shim : Shim P M) (hpair : ∀ w, SamePair w (shim w).2) : Code P M HazeError :=
  .enter (.update (.other true (fun w => (shim w).2) hpair nofun)) fun w =>
    .done (.ok (shim w).1.code)

section

variable {F : Fhetch P M}

/-- A method as one section runs as it is. -/
@[simp] theorem run_ofMethod (x : Method P M α) (hpair : KeepsPair x) :
    (ofMethod x hpair).run (Section.run F) = x := rfl

/-- So does one that binds nothing. -/
@[simp] theorem run_quiet (x : Method P M α) (hpair : KeepsPair x) (hbindings : KeepsBindings x) :
    (quiet x hpair hbindings).run (Section.run F) = x := rfl

end

/-! ## The methods of the core -/

/-- A lookup. -/
def lookup (addr : DevAddr) : Code P M P := .single (Section.observe .lookupOrCreate addr)

/-- The tag of an upload. -/
def tag (addr : DevAddr) : Code P M Unit := .single (Section.observe .tagH2dInput addr)

/-- Opening a session. -/
def session (env : CompilerReplies P) : Code P M Unit :=
  quiet (epochSession env) (.session env) (.session env)

/-- A modulus by its index. -/
def modulus (modIdx : ℤ) : Code P M UInt64 :=
  quiet (resolveModulus modIdx) (.of_unchanged (resolveModulus_unchanged modIdx))
    (.of_unchanged (resolveModulus_unchanged modIdx))

/-- The bytes of one residue. -/
def upload (count : UInt64) (residue : DevAddr × Option (List UInt8)) : Code P M Unit :=
  quiet (onAllocator (DeviceAllocator.copyH2d residue.1 residue.2 count)) (.copyH2d _ _ _)
    (.copyH2d _ _ _)

/-- A new binding of a destination. -/
def store (dst : DevAddr) (poly : P) (q : UInt64) : Code P M Unit :=
  ofMethod (modifyEpoch (EpochState.storeComputeResultLocked dst poly q)) (.onEpoch _)

section

variable (F : Fhetch P M) (env : CompilerReplies P)

def copyResult (dst src : DevAddr) (q : UInt64) : Code P M Unit := do
  let poly ← lookup src
  ofMethod (recordCopy F dst src q poly) (.recordCopy _ _ _ _)

def copyDeviceToDevice (dst src : DevAddr) : Code P M Unit := do
  session env
  copyResult F dst src kCopyModulus

def tagH2dInput (addr : DevAddr) : Code P M Unit := do
  session env
  tag addr

def buildMrp (polys : List DevAddr) (base : List UInt64) : Code P M M := do
  let addrs := takePtrs base.length polys
  let pairs ← Resumption.mapEach (fun residue => do
    let poly ← lookup residue.1
    pure (poly, residue.2)) (addrs.zip base)
  quiet (assembleMrp F addrs base pairs) (.assembleMrp _ _ _) (.assembleMrp _ _ _ _)

def storeMrp (dst : List DevAddr) (mrp : M) (base : List UInt64) : Code P M Unit :=
  ofMethod (storeMrpLocked F dst mrp base) (.storeMrp _ _ _)

def copyH2dMrp (dst : List DevAddr) (src : List (Option (List UInt8))) (count : UInt64)
    (len : ℕ) : Code P M Unit := do
  let addrs := takePtrs len dst
  Resumption.forEach (upload count) (addrs.zip (src.takeD len none))
  session env
  Resumption.forEach tag addrs

def copyDeviceToDeviceMrp (dst src : List DevAddr) (base : List UInt64) : Code P M Unit := do
  session env
  let addrs := takePtrs base.length dst
  Resumption.forEach (fun residue => copyResult F residue.1.1 residue.1.2 residue.2)
    ((addrs.zip (takePtrs base.length src)).zip base)
  ofMethod (registerGroup addrs base) (.registerGroup _ _)

def binaryPpOp (opFn : P → P → UInt64 → P) (dst src1 src2 : DevAddr) (modIdx : ℤ) :
    Code P M Unit := do
  session env
  let q ← modulus modIdx
  let p1 ← lookup src1
  let p2 ← lookup src2
  store dst (opFn p1 p2 q) q

def unaryPqOp (opFn : P → UInt64 → P) (dst src : DevAddr) (modIdx : ℤ) : Code P M Unit := do
  session env
  let q ← modulus modIdx
  let p ← lookup src
  store dst (opFn p q) q

def unaryPiOp (opFn : P → UInt64 → P) (dst src : DevAddr) (index : UInt64) : Code P M Unit := do
  session env
  let p ← lookup src
  ofMethod (storeIndexed opFn dst src index p) (.storeIndexed _ _ _ _ _)

def binaryPpOpMrp (opFn : M → M → M) (dst src1 src2 : List DevAddr) (base : List UInt64) :
    Code P M Unit := do
  session env
  let m1 ← buildMrp F src1 base
  let m2 ← buildMrp F src2 base
  storeMrp F dst (opFn m1 m2) base

def unaryPOpMrp (opFn : M → M) (dst src : List DevAddr) (base : List UInt64) : Code P M Unit := do
  session env
  let m ← buildMrp F src base
  storeMrp F dst (opFn m) base

def basisConvert (dst src : List DevAddr) (p : BasisConvertParams) : Code P M Unit := do
  let (srcBase, dstBase) ← .done p.validate
  session env
  let srcMrp ← buildMrp F src srcBase
  ofMethod (storeConverted F dst dstBase srcMrp) (.storeConverted _ _ _)

def modDown (dst src : List DevAddr) (p : ModDownParams) : Code P M Unit := do
  let (srcBase, rescaleBase) ← .done p.validate
  session env
  let srcMrp ← buildMrp F src srcBase
  ofMethod (storeRescaled F dst rescaleBase srcMrp) (.storeRescaled _ _ _)

def modUp (dst src : List DevAddr) (p : ModUpParams) : Code P M Unit := do
  let (srcBase, digitBases, digitBaseLens, pBase) ← .done p.validate
  session env
  let srcMrp ← buildMrp F src srcBase
  ofMethod (storeLifted F dst (sliceDigits digitBases digitBaseLens) pBase srcMrp)
    (.storeLifted _ _ _ _)

end

/-! ## Their runs -/

section

variable {F : Fhetch P M} {env : CompilerReplies P}

/-- The lookup's sections are the lookup. -/
@[simp] theorem run_lookup (addr : DevAddr) :
    (lookup addr : Code P M P).run (Section.run F) = lookupOrCreateLocked F addr :=
  Resumption.run_single _

/-- Those of the tag of an upload are the tag. -/
@[simp] theorem run_tag (addr : DevAddr) :
    (tag addr : Code P M Unit).run (Section.run F) = tagH2dInputLocked F addr :=
  Resumption.run_single _

/-- Opening a session is one section. -/
@[simp] theorem run_session :
    (session env : Code P M Unit).run (Section.run F) = epochSession env := rfl

/-- So is finding a modulus. -/
@[simp] theorem run_modulus (modIdx : ℤ) :
    (modulus modIdx : Code P M UInt64).run (Section.run F) = resolveModulus modIdx := rfl

/-- So is storing a result. -/
@[simp] theorem run_store (dst : DevAddr) (poly : P) (q : UInt64) :
    (store dst poly q : Code P M Unit).run (Section.run F) =
      modifyEpoch (EpochState.storeComputeResultLocked dst poly q) := rfl

/-- The sections of a copy of one residue are the copy. -/
@[simp] theorem run_copyResult (dst src : DevAddr) (q : UInt64) :
    (copyResult F dst src q).run (Section.run F) = copyResultLocked F dst src q := by
  unfold copyResult
  rw [Resumption.run_bind, run_lookup]
  rfl

/-- Those of a copy on the device are the copy. -/
@[simp] theorem run_copyDeviceToDevice (dst src : DevAddr) :
    (copyDeviceToDevice F env dst src).run (Section.run F) =
      World.copyDeviceToDevice F env dst src := by
  unfold copyDeviceToDevice
  simp only [Resumption.run_bind, run_session, run_copyResult]
  rfl

/-- Those of the tag of one upload, with its session, are the tag. -/
@[simp] theorem run_tagH2dInput (addr : DevAddr) :
    (tagH2dInput env addr : Code P M Unit).run (Section.run F) = World.tagH2dInput F env addr := by
  unfold tagH2dInput
  simp only [Resumption.run_bind, run_session, run_tag]
  rfl

/-- Those of building a multi-residue polynomial build it. -/
@[simp] theorem run_buildMrp (polys : List DevAddr) (base : List UInt64) :
    (buildMrp F polys base).run (Section.run F) = buildMrpLocked F polys base := by
  unfold buildMrp
  simp only [Resumption.run_bind, Resumption.run_mapEach, run_lookup, Resumption.run_pure]
  rfl

/-- Storing residues is one section. -/
@[simp] theorem run_storeMrp (dst : List DevAddr) (mrp : M) (base : List UInt64) :
    (storeMrp F dst mrp base).run (Section.run F) = storeMrpLocked F dst mrp base := rfl

/-- The sections of an upload of residues are the upload. -/
@[simp] theorem run_copyH2dMrp (dst : List DevAddr) (src : List (Option (List UInt8)))
    (count : UInt64) (len : ℕ) :
    (copyH2dMrp env dst src count len : Code P M Unit).run (Section.run F) =
      World.copyH2dMrp F env dst src count len := by
  unfold copyH2dMrp
  simp only [Resumption.run_bind, Resumption.run_forEach, run_session, run_tag]
  rfl

/-- Those of a copy of residues are the copy. -/
@[simp] theorem run_copyDeviceToDeviceMrp (dst src : List DevAddr) (base : List UInt64) :
    (copyDeviceToDeviceMrp F env dst src base).run (Section.run F) =
      World.copyDeviceToDeviceMrp F env dst src base := by
  unfold copyDeviceToDeviceMrp
  simp only [Resumption.run_bind, Resumption.run_forEach, run_session, run_copyResult]
  rfl

/-- Those of an operation on two residues are the operation. -/
@[simp] theorem run_binaryPpOp (opFn : P → P → UInt64 → P) (dst src1 src2 : DevAddr)
    (modIdx : ℤ) : (binaryPpOp env opFn dst src1 src2 modIdx : Code P M Unit).run (Section.run F) =
      World.binaryPpOp F env opFn dst src1 src2 modIdx := by
  unfold binaryPpOp
  simp only [Resumption.run_bind, run_session, run_modulus, run_lookup, run_store]
  rfl

/-- Those of an operation on one residue are the operation. -/
@[simp] theorem run_unaryPqOp (opFn : P → UInt64 → P) (dst src : DevAddr) (modIdx : ℤ) :
    (unaryPqOp env opFn dst src modIdx : Code P M Unit).run (Section.run F) =
      World.unaryPqOp F env opFn dst src modIdx := by
  unfold unaryPqOp
  simp only [Resumption.run_bind, run_session, run_modulus, run_lookup, run_store]
  rfl

/-- Those of an operation with an index are the operation. -/
@[simp] theorem run_unaryPiOp (opFn : P → UInt64 → P) (dst src : DevAddr) (index : UInt64) :
    (unaryPiOp env opFn dst src index : Code P M Unit).run (Section.run F) =
      World.unaryPiOp F env opFn dst src index := by
  unfold unaryPiOp
  simp only [Resumption.run_bind, run_session, run_lookup, run_ofMethod]
  rfl

/-- Those of an operation on two lists are the operation. -/
@[simp] theorem run_binaryPpOpMrp (opFn : M → M → M) (dst src1 src2 : List DevAddr)
    (base : List UInt64) : (binaryPpOpMrp F env opFn dst src1 src2 base).run (Section.run F) =
      World.binaryPpOpMrp F env opFn dst src1 src2 base := by
  unfold binaryPpOpMrp
  simp only [Resumption.run_bind, run_session, run_buildMrp, run_storeMrp]
  rfl

/-- Those of an operation on one list are the operation. -/
@[simp] theorem run_unaryPOpMrp (opFn : M → M) (dst src : List DevAddr) (base : List UInt64) :
    (unaryPOpMrp F env opFn dst src base).run (Section.run F) =
      World.unaryPOpMrp F env opFn dst src base := by
  unfold unaryPOpMrp
  simp only [Resumption.run_bind, run_session, run_buildMrp, run_storeMrp]
  rfl

/-- Those of a conversion are the conversion. -/
@[simp] theorem run_basisConvert (dst src : List DevAddr) (p : BasisConvertParams) :
    (basisConvert F env dst src p).run (Section.run F) = World.basisConvert F env dst src p := by
  unfold basisConvert
  simp only [Resumption.run_bind, Resumption.run_done, run_session, run_buildMrp, run_ofMethod]
  rfl

/-- Those of a rescaling are the rescaling. -/
@[simp] theorem run_modDown (dst src : List DevAddr) (p : ModDownParams) :
    (modDown F env dst src p).run (Section.run F) = World.modDown F env dst src p := by
  unfold modDown
  simp only [Resumption.run_bind, Resumption.run_done, run_session, run_buildMrp, run_ofMethod]
  rfl

/-- Those of a lifting are the lifting. -/
@[simp] theorem run_modUp (dst src : List DevAddr) (p : ModUpParams) :
    (modUp F env dst src p).run (Section.run F) = World.modUp F env dst src p := by
  unfold modUp
  simp only [Resumption.run_bind, Resumption.run_done, run_session, run_buildMrp, run_ofMethod]
  rfl

end

/-! ## The shims -/

/-- Reject the arguments, or go on. -/
def guarded (rejected : Bool) (code : Code P M HazeError) : Code P M HazeError :=
  if rejected then pure .invalidValue else code

/-- A method whose success is returned. -/
def returnsSuccess (x : Code P M Unit) : Code P M HazeError := do
  x
  pure .success

/-- The pointers of an operation with one source array and a base. -/
def withArrays (dst src : Option (List DevAddr)) (base : Option (List UInt64))
    (x : List DevAddr → List DevAddr → List UInt64 → Code P M Unit) : Code P M HazeError :=
  match dst, src, base with
  | some dst, some src, some base => guarded base.isEmpty (returnsSuccess (x dst src base))
  | _, _, _ => pure .invalidValue

/-- The pointers of a basis conversion. -/
def dispatch {T : Type} (x : List DevAddr → List DevAddr → T → Code P M Unit)
    (dst src : Option (List DevAddr)) (params : Option T) : Code P M HazeError :=
  match dst, src, params with
  | some dst, some src, some params => returnsSuccess (x dst src params)
  | _, _, _ => pure .invalidValue

end Code

/-- The public code that a call returns. -/
def publicCode : Except HazeInternalError HazeError → HazeError
  | .ok code => code
  | .error e => toPublicError e

/-- The code that the sections return when they are not interrupted, and the state after them. -/
def Code.exec (F : Fhetch P M) (code : Code P M HazeError) (w : World P M) :
    HazeError × World P M :=
  (publicCode (code.run (Section.run F) w).1, (code.run (Section.run F) w).2)

/-! ## The calls -/

/-- A call that neither sets the ring dimension nor resets keeps it, and the size of an
allocation. -/
theorem Call.samePair (F : Fhetch P M) (env : CompilerReplies P) {c : Call}
    (hset : ∀ n, c ≠ .setRingDimension n) (hreset : c ≠ .deviceReset) (w : World P M) :
    SamePair w (c.run F env w).2 := by
  by_cases hc : c.Configures
  · cases c with
    | setRingDimension n => exact absurd rfl (hset n)
    | config call =>
      refine (config_steps (F := F) env call w).preserves (I := SamePair w) ?_ (refl_of SamePair w)
      rintro v x ⟨⟨c, rfl⟩, hallowed⟩ hv
      exact ⟨(show c.ringDim = v.config.ringDim from hallowed).trans hv.1, hv.2⟩
    | _ => cases hc
  · obtain ⟨hconfig, hbytes⟩ := config_after (F := F) (i := ⟨env, c⟩) hc hreset w
    exact ⟨congrArg Config.ringDim hconfig, hbytes⟩

section

variable (F : Fhetch P M) (env : CompilerReplies P)

/-- A call that has no lookup, tag, setting of the ring dimension or reset, in one section. -/
def Code.ofCall (c : Call) (hset : ∀ n, c ≠ .setRingDimension n) (hreset : c ≠ .deviceReset) :
    Code P M HazeError :=
  .ofShim (c.run F env) (c.samePair F env hset hreset)

/-- The sections of a copy. -/
def Code.memcpy (count : UInt64) : Transfer → Code P M HazeError
  | .hostToDevice dst src => guarded (dst == .null || src == none) <| returnsSuccess do
    upload count (dst, src)
    tagH2dInput env dst
  | .deviceToDevice dst src => guarded (dst == .null || src == .null) <|
    returnsSuccess (copyDeviceToDevice F env dst src)
  | .deviceToHost dst src => ofCall F env (.memcpy (.deviceToHost dst src) count) nofun nofun
  | .unknownKind => ofCall F env (.memcpy .unknownKind count) nofun nofun

/-- The sections of a copy of residues. -/
def Code.memcpyMrp (transfer : TransferMrp) (count : UInt64) (base : Option (List UInt64)) :
    Code P M HazeError :=
  match transfer, base with
  | .hostToDevice (some dst) (some src), some base => guarded base.isEmpty <|
    returnsSuccess (copyH2dMrp env dst src count base.length)
  | .deviceToDevice (some dst) (some src), some base => guarded base.isEmpty <|
    returnsSuccess (copyDeviceToDeviceMrp F env dst src base)
  | transfer, base => ofCall F env (.memcpyMrp transfer count base) nofun nofun

/-- The sections of a reset of the device. -/
def Code.deviceReset : Code P M HazeError := do
  let _ ← .single (Section.update (.other true
    (fun w => { clearStateLocked w with initialized := false }) (fun _ => ⟨rfl, rfl⟩) nofun))
  let _ ← .single (Section.update .resetAllocator)
  let _ ← .single (Section.update .resetConfig)
  let _ ← .single (Section.update (.other true
    (fun w => { w with hookHadError := false, compiler := w.compiler ++ [.reset] })
    (fun _ => ⟨rfl, rfl⟩) nofun))
  pure .success

/-- The section of a setting of the ring dimension. -/
def Code.setRingDimension (n : UInt64) : Code P M HazeError :=
  .enter (.update (.setRingDimension n)) fun w =>
    .done ((World.setRingDimension n w).1.map fun _ => .success)

/-- The sections of a call. -/
def Call.code : Call → Code P M HazeError
  | .memcpy transfer count => Code.memcpy F env count transfer
  | .memcpyMrp transfer count base => Code.memcpyMrp F env transfer count base
  | .pp op dst src1 src2 modIdx =>
    Code.guarded (dst == .null || src1 == .null || src2 == .null) <|
      Code.returnsSuccess (Code.binaryPpOp env (op.sr F) dst src1 src2 modIdx)
  | .ps op dst src scalar modIdx => Code.guarded (dst == .null || src == .null) <|
    Code.returnsSuccess (Code.unaryPqOp env (fun p q => op.srs F p scalar q) dst src modIdx)
  | .transform op dst src modIdx => Code.guarded (dst == .null || src == .null) <|
    Code.returnsSuccess (Code.unaryPqOp env (op.sr F) dst src modIdx)
  | .automorph dst src index => Code.guarded (dst == .null || src == .null) <|
    Code.returnsSuccess (Code.unaryPiOp env F.srAutomorphEval dst src index)
  | .ppMrp op dst src1 src2 base =>
    match src2 with
    | none => pure .invalidValue
    | some src2 => Code.withArrays dst src1 base fun dst src1 base =>
      Code.binaryPpOpMrp F env (op.mr F) dst src1 src2 base
  | .psMrp op dst src scalars base =>
    match scalars with
    | none => pure .invalidValue
    | some scalars => Code.withArrays dst src base fun dst src base =>
      Code.unaryPOpMrp F env (fun m => op.mrs F m (buildMrs scalars base)) dst src base
  | .transformMrp op dst src base => Code.withArrays dst src base (Code.unaryPOpMrp F env (op.mr F))
  | .indexMrp op dst src index base =>
    Code.withArrays dst src base (Code.unaryPOpMrp F env fun m => op.mr F m index)
  | .basisConvert dst src params => Code.dispatch (Code.basisConvert F env) dst src params
  | .modDown dst src params => Code.dispatch (Code.modDown F env) dst src params
  | .modUp dst src params => Code.dispatch (Code.modUp F env) dst src params
  | .deviceReset => Code.deviceReset
  | .setRingDimension n => Code.setRingDimension n
  | .malloc ptr size => Code.ofCall F env (.malloc ptr size) nofun nofun
  | .free ptr => Code.ofCall F env (.free ptr) nofun nofun
  | .mallocMrp ptrs count size => Code.ofCall F env (.mallocMrp ptrs count size) nofun nofun
  | .freeMrp ptrs count => Code.ofCall F env (.freeMrp ptrs count) nofun nofun
  | .memset devPtr value count => Code.ofCall F env (.memset devPtr value count) nofun nofun
  | .tagOutput ptr => Code.ofCall F env (.tagOutput ptr) nofun nofun
  | .flush => Code.ofCall F env .flush nofun nofun
  | .writeProgram => Code.ofCall F env .writeProgram nofun nofun
  | .config call => Code.ofCall F env (.config call) nofun nofun

end

/-! ## A call without interruption -/

/-- The sections return the code of the shim, and leave its state. -/
def Code.Agrees (F : Fhetch P M) (code : Code P M HazeError) (shim : Shim P M) : Prop :=
  ∀ w, code.exec F w = ((shim w).1.code, (shim w).2)

namespace Code.Agrees

variable {F : Fhetch P M}

/-- Rejected arguments. -/
theorem invalidValue : Agrees F (pure .invalidValue) Shim.invalidValue := fun _ => rfl

/-- A guard agrees with a guard. -/
theorem guarded {code : Code P M HazeError} {shim : Shim P M} (h : Agrees F code shim)
    (rejected : Bool) : Agrees F (Code.guarded rejected code) (Shim.guarded rejected shim) := by
  unfold Code.guarded Shim.guarded
  split_ifs
  · exact invalidValue
  · exact h

/-- A method whose sections are run to it, under a reply of success. -/
theorem returnsSuccess {x : Code P M Unit} {y : Method P M Unit} (h : x.run (Section.run F) = y)
    {onOk : Unit → Reply} (hok : (onOk ()).code = .success) :
    Agrees F (Code.returnsSuccess x) (Shim.replyWith onOk y) := by
  intro w
  unfold Code.exec Code.returnsSuccess Shim.replyWith
  rw [Resumption.run_bind, h]
  rcases hy : y w with ⟨e | ⟨⟩, w'⟩
  · rw [Expected.bind_run_error hy]
    rfl
  · rw [Expected.bind_run_ok hy]
    exact congrArg (·, w') hok.symm

/-- Entries with arrays agree when their methods do. -/
theorem withArrays {x : List DevAddr → List DevAddr → List UInt64 → Code P M Unit}
    {y : List DevAddr → List DevAddr → List UInt64 → Method P M Unit}
    (h : ∀ d s b, (x d s b).run (Section.run F) = y d s b) (dst src : Option (List DevAddr))
    (base : Option (List UInt64)) :
    Agrees F (Code.withArrays dst src base x) (Haze.withArrays dst src base y) := by
  rcases dst with _ | d
  · exact invalidValue
  rcases src with _ | s
  · exact invalidValue
  rcases base with _ | b
  · exact invalidValue
  · exact .guarded (returnsSuccess (h d s b) rfl) _

/-- Entries with a parameter block agree when their methods do. -/
theorem dispatch {T : Type} {x : List DevAddr → List DevAddr → T → Code P M Unit}
    {y : List DevAddr → List DevAddr → T → Method P M Unit}
    (h : ∀ d s p, (x d s p).run (Section.run F) = y d s p) (dst src : Option (List DevAddr))
    (params : Option T) :
    Agrees F (Code.dispatch x dst src params) (Haze.dispatch y dst src params) := by
  rcases dst with _ | d
  · exact invalidValue
  rcases src with _ | s
  · exact invalidValue
  rcases params with _ | p
  · exact invalidValue
  · exact returnsSuccess (h d s p) rfl

/-- A call in one section is that section. -/
theorem ofCall {env : CompilerReplies P} {c : Call} (hset : ∀ n, c ≠ .setRingDimension n)
    (hreset : c ≠ .deviceReset) : Agrees F (Code.ofCall F env c hset hreset) (c.run F env) :=
  fun _ => rfl

/-- The sections of `hazeMemcpy` agree with it. -/
theorem memcpy (env : CompilerReplies P) (transfer : Transfer) (count : UInt64) :
    Agrees F (Code.memcpy F env count transfer) (hazeMemcpy F env transfer count) := by
  cases transfer with
  | hostToDevice dst src =>
    refine .guarded (returnsSuccess ?_ rfl) _
    rw [Resumption.run_bind, run_tagH2dInput]
    rfl
  | deviceToDevice dst src => exact .guarded (returnsSuccess (run_copyDeviceToDevice ..) rfl) _
  | deviceToHost dst src => exact fun _ => rfl
  | unknownKind => exact fun _ => rfl

/-- Those of `hazeMemcpyMrp` agree with it. -/
theorem memcpyMrp (env : CompilerReplies P) (transfer : TransferMrp) (count : UInt64)
    (base : Option (List UInt64)) :
    Agrees F (Code.memcpyMrp F env transfer count base)
      (hazeMemcpyMrp F env transfer count base) := by
  unfold Code.memcpyMrp
  split
  · exact .guarded (returnsSuccess (run_copyH2dMrp ..) rfl) _
  · exact .guarded (returnsSuccess (run_copyDeviceToDeviceMrp ..) rfl) _
  · exact ofCall _ _

/-- The setter in its section. -/
theorem setRingDimension (n : UInt64) :
    Agrees F (Code.setRingDimension n) (hazeSetRingDimension n) := by
  intro w
  change (publicCode ((World.setRingDimension n w).1.map fun _ => .success),
    (World.setRingDimension n w).2) = _
  unfold hazeSetRingDimension Shim.setInternalResult Shim.replyWith
  rcases World.setRingDimension n w with ⟨e | ⟨⟩, w'⟩ <;> rfl

end Code.Agrees

/-- The sections of a call that is not interrupted are the call. -/
theorem Call.code_exec (F : Fhetch P M) (env : CompilerReplies P) (c : Call) :
    Code.Agrees F (c.code F env) (c.run F env) := by
  -- Each call is the composition of its parts, section by section.
  cases c with
  | memcpy transfer count => exact .memcpy env transfer count
  | memcpyMrp transfer count base => exact .memcpyMrp env transfer count base
  | pp op dst src1 src2 modIdx =>
    cases op <;> exact .guarded (.returnsSuccess (Code.run_binaryPpOp ..) rfl) _
  | ps op dst src scalar modIdx =>
    cases op <;> exact .guarded (.returnsSuccess (Code.run_unaryPqOp ..) rfl) _
  | transform op dst src modIdx =>
    cases op <;> exact .guarded (.returnsSuccess (Code.run_unaryPqOp ..) rfl) _
  | automorph dst src index => exact .guarded (.returnsSuccess (Code.run_unaryPiOp ..) rfl) _
  | ppMrp op dst src1 src2 base =>
    rcases src2 with _ | src2
    · cases op <;> exact .invalidValue
    · cases op <;> exact .withArrays (fun _ _ _ => Code.run_binaryPpOpMrp ..) _ _ _
  | psMrp op dst src scalars base =>
    rcases scalars with _ | scalars
    · cases op <;> exact .invalidValue
    · cases op <;> exact .withArrays (fun _ _ _ => Code.run_unaryPOpMrp ..) _ _ _
  | transformMrp op dst src base =>
    cases op <;> exact .withArrays (fun _ _ _ => Code.run_unaryPOpMrp ..) _ _ _
  | indexMrp op dst src index base =>
    cases op <;> exact .withArrays (fun _ _ _ => Code.run_unaryPOpMrp ..) _ _ _
  | basisConvert dst src params => exact .dispatch (fun _ _ _ => Code.run_basisConvert ..) _ _ _
  | modDown dst src params => exact .dispatch (fun _ _ _ => Code.run_modDown ..) _ _ _
  | modUp dst src params => exact .dispatch (fun _ _ _ => Code.run_modUp ..) _ _ _
  | setRingDimension n => exact .setRingDimension n
  | _ => exact fun _ => rfl

end Haze
