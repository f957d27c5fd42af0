import Haze.Core.Runtime

/-!
# Compute operations

The templates of `core/compute.hpp`, the multi-residue glue of `core/mrp_polymap.cpp` and the basis
conversions of `core/basis_convert.cpp`. Each opens a session, resolves its sources, applies one
operation of the library and binds its destinations.

An array of pointers is a list; what a list does not reach reads as the null pointer.
-/

namespace Haze

variable {P M : Type}

namespace World

/-- The first `len` entries of an array of pointers. -/
def takePtrs (len : ℕ) (ptrs : List DevAddr) : List DevAddr := ptrs.takeD len .null

section

variable (F : Fhetch P M) (env : CompilerReplies P)

/-! ## Multi-residue polynomials -/

/-- Resolve one residue. -/
def lookupResidue (residue : DevAddr × UInt64) : Method P M (P × UInt64) := do
  let poly ← lookupOrCreateLocked F residue.1
  pure (poly, residue.2)

/-- Assemble a multi-residue polynomial from the bindings of its residues. A group of several
residues that is led by an input is tagged as a multi-residue input. -/
def buildMrpLocked (polys : List DevAddr) (base : List UInt64) : Method P M M := do
  let addrs := takePtrs base.length polys
  let pairs ← Expected.mapEach (lookupResidue F) (addrs.zip base)
  let mrp := F.fromPairs pairs
  let w ← Expected.get
  if 1 < base.length ∧ addrs.headD .null ∈ w.epoch.inputAddrs then do
    let name ← onEpoch (EpochState.mrpGroupNameLocked false (addrs.headD .null))
    tagMrpInputIfNewLocked name mrp
    pure mrp
  else pure mrp

/-- Name and register the group of several destinations. -/
def registerGroup (addrs : List DevAddr) (base : List UInt64) : Method P M Unit :=
  if 1 < base.length then do
    let name ← onEpoch (EpochState.mrpGroupNameLocked true (addrs.headD .null))
    onEpoch (EpochState.registerMrpOutputGroupLocked addrs base name)
  else pure ()

/-- Bind one destination to its residue. -/
def storeResidue (mrp : M) (residue : DevAddr × UInt64) : Method P M Unit :=
  modifyEpoch (EpochState.storeComputeResultLocked residue.1 (F.residue mrp residue.2) residue.2)

/-- Bind the destinations to the residues of a multi-residue polynomial, in order. -/
def storeMrpLocked (dstPolys : List DevAddr) (mrp : M) (base : List UInt64) : Method P M Unit := do
  let addrs := takePtrs base.length dstPolys
  Expected.forEach (storeResidue F mrp) (addrs.zip base)
  registerGroup addrs base

/-- Copy every residue from the host, then tag every residue as an input. -/
def copyH2dMrp (dst : List DevAddr) (src : List (Option (List UInt8))) (count : UInt64)
    (len : ℕ) : Method P M Unit := do
  let addrs := takePtrs len dst
  Expected.forEach (fun residue => onAllocator (DeviceAllocator.copyH2d residue.1 residue.2 count))
    (addrs.zip (src.takeD len none))
  epochSession env
  Expected.forEach (tagH2dInputLocked F) addrs

/-- Copy every residue to the host. -/
def copyToHostMrp (dst : List Bool) (src : List DevAddr) (count : UInt64) (len : ℕ) :
    Method P M (List (List UInt8)) :=
  Expected.mapEach
    (fun residue => onAllocator (Expected.query (DeviceAllocator.copyToHost residue.1 residue.2 count)))
    ((dst.takeD len false).zip (takePtrs len src))

/-- Record a copy of one residue under its modulus. -/
def copyResidue (residue : (DevAddr × DevAddr) × UInt64) : Method P M Unit :=
  copyResultLocked F residue.1.1 residue.1.2 residue.2

/-- Record a copy of every residue, then register the destinations as a group. -/
def copyDeviceToDeviceMrp (dst src : List DevAddr) (base : List UInt64) : Method P M Unit := do
  epochSession env
  let addrs := takePtrs base.length dst
  Expected.forEach (copyResidue F) ((addrs.zip (takePtrs base.length src)).zip base)
  registerGroup addrs base

/-! ## The compute templates -/

/-- A modulus by its index; an index without one is rejected. -/
def resolveModulus (modIdx : ℤ) : Method P M UInt64 := do
  let w ← Expected.get
  let q := w.config.modulus modIdx
  if q = 0 then Expected.fail .invalidArgument else pure q

/-- Two polynomials and a modulus. -/
def binaryPpOp (opFn : P → P → UInt64 → P) (dst src1 src2 : DevAddr) (modIdx : ℤ) :
    Method P M Unit := do
  epochSession env
  let q ← resolveModulus modIdx
  let p1 ← lookupOrCreateLocked F src1
  let p2 ← lookupOrCreateLocked F src2
  modifyEpoch (EpochState.storeComputeResultLocked dst (opFn p1 p2 q) q)

/-- One polynomial and a modulus, as of `binary_ps_op` with its scalar and of `unary_pq_op`. -/
def unaryPqOp (opFn : P → UInt64 → P) (dst src : DevAddr) (modIdx : ℤ) : Method P M Unit := do
  epochSession env
  let q ← resolveModulus modIdx
  let p ← lookupOrCreateLocked F src
  modifyEpoch (EpochState.storeComputeResultLocked dst (opFn p q) q)

/-- A polynomial, a scalar and a modulus. -/
def binaryPsOp (opFn : P → UInt64 → UInt64 → P) (dst src : DevAddr) (scalar : UInt64)
    (modIdx : ℤ) : Method P M Unit :=
  unaryPqOp F env (fun p q => opFn p scalar q) dst src modIdx

/-- A polynomial and an index. The result keeps the modulus that is recorded for the source. -/
def unaryPiOp (opFn : P → UInt64 → P) (dst src : DevAddr) (index : UInt64) : Method P M Unit := do
  epochSession env
  let p ← lookupOrCreateLocked F src
  let w ← Expected.get
  let q := w.epoch.recordedModulusLocked src
  bindModulus [p, opFn p index] q
  modifyEpoch (EpochState.storeComputeResultLocked dst (opFn p index) q)

/-- Two multi-residue polynomials. -/
def binaryPpOpMrp (opFn : M → M → M) (dst src1 src2 : List DevAddr) (base : List UInt64) :
    Method P M Unit := do
  epochSession env
  let m1 ← buildMrpLocked F src1 base
  let m2 ← buildMrpLocked F src2 base
  storeMrpLocked F dst (opFn m1 m2) base

/-- One multi-residue polynomial. -/
def unaryPOpMrp (opFn : M → M) (dst src : List DevAddr) (base : List UInt64) :
    Method P M Unit := do
  epochSession env
  let m ← buildMrpLocked F src base
  storeMrpLocked F dst (opFn m) base

/-- The scalars of a multi-residue operation with their moduli. -/
def buildMrs (scalars base : List UInt64) : List (UInt64 × UInt64) :=
  (scalars.takeD base.length 0).zip base

/-- A multi-residue polynomial and a scalar for each residue. -/
def binaryPsOpMrp (opFn : M → List (UInt64 × UInt64) → M) (dst src : List DevAddr)
    (scalars base : List UInt64) : Method P M Unit :=
  unaryPOpMrp F env (fun m => opFn m (buildMrs scalars base)) dst src base

/-- A multi-residue polynomial and an index. -/
def unaryPiOpMrp (opFn : M → UInt64 → M) (dst src : List DevAddr) (index : UInt64)
    (base : List UInt64) : Method P M Unit :=
  unaryPOpMrp F env (fun m => opFn m index) dst src base

/-! ## Basis conversion -/

/-- The variant of fast base conversion that the configuration selects. -/
def fbcVariant (c : Config) : FbcVariant := if c.reducedNoise then .reducedNoise else .standard

/-- The centering that the configuration selects. -/
def fbcCenterShape (c : Config) : FbcCenterShape := if c.montgomery then .fourOp else .threeOp

end

end World

/-- The parameters of `hazeBasisConvert`. The length of a base is that of its list; `none` is a null
pointer. -/
structure BasisConvertParams where
  srcBase : Option (List UInt64)
  dstBase : Option (List UInt64)

/-- The parameters of `hazeModDown`. -/
structure ModDownParams where
  srcBase : Option (List UInt64)
  rescaleBase : Option (List UInt64)

/-- The parameters of `hazeModUp`. The digits' bases are one flat array, with the length of each
digit and the length that the caller states for all of them. -/
structure ModUpParams where
  srcBase : Option (List UInt64)
  digitBases : Option (List UInt64)
  digitBasesTotalLen : UInt64
  digitBaseLens : Option (List UInt64)
  pBase : Option (List UInt64)

/-- A base that is neither null nor empty. -/
def nonemptyBase (base : Option (List UInt64)) : Except HazeInternalError (List UInt64) :=
  match base with
  | some (q :: qs) => .ok (q :: qs)
  | _ => .error .invalidArgument

/-- The bases of a basis conversion. -/
def BasisConvertParams.validate (p : BasisConvertParams) :
    Except HazeInternalError (List UInt64 × List UInt64) := do
  let srcBase ← nonemptyBase p.srcBase
  let dstBase ← nonemptyBase p.dstBase
  pure (srcBase, dstBase)

/-- The bases of a rescaling: the dropped moduli are fewer than the source's and among them. -/
def ModDownParams.validate (p : ModDownParams) :
    Except HazeInternalError (List UInt64 × List UInt64) := do
  let srcBase ← nonemptyBase p.srcBase
  let rescaleBase ← nonemptyBase p.rescaleBase
  if rescaleBase.length ≥ srcBase.length then .error .invalidArgument
  else if rescaleBase.any (fun q => q ∉ srcBase) then .error .invalidArgument
  else pure (srcBase, rescaleBase)

/-- The bases of a digit decomposition: the digits' lengths sum, as words, to the stated length. -/
def ModUpParams.validate (p : ModUpParams) :
    Except HazeInternalError (List UInt64 × List UInt64 × List UInt64 × List UInt64) := do
  let srcBase ← nonemptyBase p.srcBase
  let digitBases ← match p.digitBases with
    | some digitBases => pure digitBases
    | none => .error .invalidArgument
  let digitBaseLens ← nonemptyBase p.digitBaseLens
  let pBase ← nonemptyBase p.pBase
  if digitBaseLens.foldl (· + ·) 0 ≠ p.digitBasesTotalLen then .error .invalidArgument
  else pure (srcBase, digitBases, digitBaseLens, pBase)

/-- Cut the flat array into the digits' bases. -/
def sliceDigits (digitBases : List UInt64) : List UInt64 → List (List UInt64)
  | [] => []
  | len :: lens => digitBases.take len.toNat :: sliceDigits (digitBases.drop len.toNat) lens

namespace World

section

variable (F : Fhetch P M) (env : CompilerReplies P)

/-- Convert a multi-residue polynomial to another base. -/
def basisConvert (dst src : List DevAddr) (p : BasisConvertParams) : Method P M Unit := do
  let (srcBase, dstBase) ← Expected.query fun _ => p.validate
  epochSession env
  let srcMrp ← buildMrpLocked F src srcBase
  let w ← Expected.get
  storeMrpLocked F dst
    (F.fastBaseConvert srcMrp dstBase (fbcVariant w.config) (fbcCenterShape w.config)) dstBase

/-- Rescale a multi-residue polynomial; the destinations follow the base of the result. -/
def modDown (dst src : List DevAddr) (p : ModDownParams) : Method P M Unit := do
  let (srcBase, rescaleBase) ← Expected.query fun _ => p.validate
  epochSession env
  let srcMrp ← buildMrpLocked F src srcBase
  let w ← Expected.get
  let result := F.rescaleFbc srcMrp rescaleBase (fbcVariant w.config) (fbcCenterShape w.config)
  storeMrpLocked F dst result (F.base result)

/-- Store the lifted digits one after the other. Digit `d` starts at `d` times its own length. -/
def storeDigits (dst : List DevAddr) (lift : List UInt64 → M) :
    ℕ → List (List UInt64) → Method P M Unit
  | _, [] => pure ()
  | d, digitBase :: digitBases => do
    let digit := lift digitBase
    storeMrpLocked F (dst.drop (d * (F.base digit).length)) digit (F.base digit)
    storeDigits dst lift (d + 1) digitBases

/-- Decompose a multi-residue polynomial into digits, each lifted to the source's base and
`pBase`. -/
def modUp (dst src : List DevAddr) (p : ModUpParams) : Method P M Unit := do
  let (srcBase, digitBases, digitBaseLens, pBase) ← Expected.query fun _ => p.validate
  epochSession env
  let srcMrp ← buildMrpLocked F src srcBase
  let w ← Expected.get
  storeDigits F dst
    (fun digitBase => F.fastBaseConvert (F.mrSubset srcMrp digitBase) (F.base srcMrp ++ pBase)
      (fbcVariant w.config) (fbcCenterShape w.config))
    0 (sliceDigits digitBases digitBaseLens)

end

end World

end Haze
