import Haze.Core.Compute

/-!
# The C interface

The shims of `api/`: each checks its pointers, runs one method of the core and translates the
result to a public code. `Call` is one call with its arguments and `Call.run` its effect, so that a
program of the library's user is a list of calls, each with what the compiler answers during it.

A host buffer is the list of its bytes, and `none` is a null pointer; where the shim only tests an
out pointer, the argument is whether it is not null. The asynchronous entries forward to the
synchronous ones. The entries that reach none of the modelled state are those of `Haze.Entries`.
-/

namespace Haze

variable {P M : Type}

/-- What a call hands back. -/
structure Reply where
  /-- The returned code. -/
  code : HazeError
  /-- The code that the call leaves in the thread's last error, if it writes that. -/
  lastError : Option HazeError
  /-- The device pointers that are written to the caller. -/
  ptrs : List DevAddr := []
  /-- The bytes that are copied to each host buffer. -/
  bytes : List (List UInt8) := []
deriving DecidableEq, Repr

namespace Reply

/-- Return a code and leave it in the last error. -/
def setError (code : HazeError) : Reply := { code := code, lastError := some code }

/-- Return success without touching the last error. -/
def success : Reply := { code := .success, lastError := none }

end Reply

/-- A call's effect on the state, and its reply. -/
abbrev Shim (P M : Type) : Type := World P M → Reply × World P M

namespace Shim

/-- Reject the arguments. -/
def invalidValue : Shim P M := fun w => (.setError .invalidValue, w)

/-- Run a method and reply to its value with `onOk`, or with the public code of its error. -/
def replyWith {α : Type} (onOk : α → Reply) (x : Method P M α) : Shim P M := fun w =>
  match x w with
  | (.ok a, w') => (onOk a, w')
  | (.error e, w') => (.setError (toPublicError e), w')

/-- Run a method without a value. -/
def setInternalResult (x : Method P M Unit) : Shim P M := replyWith (fun _ => .setError .success) x

/-- Reject the arguments, or go on. -/
def guarded (rejected : Bool) (shim : Shim P M) : Shim P M := if rejected then invalidValue else shim

end Shim

open Shim World

/-! ## Memory -/

/-- Allocate one polynomial. -/
def hazeMalloc (ptr : Bool) (size : UInt64) : Shim P M :=
  guarded (!ptr) <| replyWith (fun addr => { Reply.success with ptrs := [addr] })
    (onAllocator (DeviceAllocator.allocate size))

/-- Drop what the epoch has of an address that is not null. -/
def invalidateNonNull (ptr : DevAddr) : Method P M Unit :=
  if ptr ≠ .null then modifyEpoch (EpochState.invalidate ptr) else pure ()

/-- Free one address. -/
def hazeFree (ptr : DevAddr) : Shim P M := setInternalResult do
  invalidateNonNull ptr
  onAllocator (DeviceAllocator.free ptr)

/-- Allocate the residues of a group. -/
def hazeMallocMrp (ptrs : Bool) (count size : UInt64) : Shim P M :=
  guarded (!ptrs || count > kMaxCiphertextModuli) <|
    replyWith (fun addrs => { Reply.success with ptrs := addrs })
      (onAllocator (DeviceAllocator.allocateMany count.toNat size))

/-- Free the residues of a group. -/
def hazeFreeMrp (ptrs : Option (List DevAddr)) (count : UInt64) : Shim P M :=
  match ptrs with
  | none => invalidValue
  | some ptrs => guarded (count > kMaxCiphertextModuli) <| setInternalResult do
    let addrs := takePtrs count.toNat ptrs
    Expected.forEach invalidateNonNull addrs
    onAllocator (DeviceAllocator.freeMany addrs)

/-- The pointers of a copy, by its direction. -/
inductive Transfer where
  | hostToDevice (dst : DevAddr) (src : Option (List UInt8))
  | deviceToHost (dst : Bool) (src : DevAddr)
  | deviceToDevice (dst src : DevAddr)
  /-- A direction that is none of the three. -/
  | unknownKind
deriving DecidableEq, Repr

/-- The pointer arrays of a copy of residues, by its direction. -/
inductive TransferMrp where
  | hostToDevice (dst : Option (List DevAddr)) (src : Option (List (Option (List UInt8))))
  | deviceToHost (dst : Option (List Bool)) (src : Option (List DevAddr))
  | deviceToDevice (dst src : Option (List DevAddr))
  | unknownKind
deriving DecidableEq, Repr

section

variable (F : Fhetch P M) (env : CompilerReplies P)

/-- Copy `count` bytes. -/
def hazeMemcpy (transfer : Transfer) (count : UInt64) : Shim P M :=
  match transfer with
  | .hostToDevice dst src => guarded (dst == .null || src == none) <| setInternalResult do
    onAllocator (DeviceAllocator.copyH2d dst src count)
    tagH2dInput F env dst
  | .deviceToHost dst src => guarded (!dst || src == .null) <|
    replyWith (fun bytes => { Reply.setError .success with bytes := [bytes] })
      (onAllocator (Expected.query (DeviceAllocator.copyToHost dst src count)))
  | .deviceToDevice dst src => guarded (dst == .null || src == .null) <|
    setInternalResult (copyDeviceToDevice F env dst src)
  | .unknownKind => invalidValue

/-- Copy `count` bytes of every residue. -/
def hazeMemcpyMrp (transfer : TransferMrp) (count : UInt64) (base : Option (List UInt64)) :
    Shim P M :=
  match transfer, base with
  | .hostToDevice (some dst) (some src), some base => guarded base.isEmpty <|
    setInternalResult (copyH2dMrp F env dst src count base.length)
  | .deviceToHost (some dst) (some src), some base => guarded base.isEmpty <|
    replyWith (fun bytes => { Reply.setError .success with bytes := bytes })
      (copyToHostMrp dst src count base.length)
  | .deviceToDevice (some dst) (some src), some base => guarded base.isEmpty <|
    setInternalResult (copyDeviceToDeviceMrp F env dst src base)
  | _, _ => invalidValue

/-- Set `count` bytes. -/
def hazeMemset (devPtr : DevAddr) (value : ℤ) (count : UInt64) : Shim P M :=
  guarded (devPtr == .null) <| replyWith (fun _ => Reply.success) do
    onAllocator (DeviceAllocator.memset devPtr value count)
    modifyEpoch (EpochState.invalidate devPtr)

/-! ## Compute on one residue -/

/-- The shim of an operation on two polynomials. -/
def hazeBinaryPp (opFn : P → P → UInt64 → P) (dst src1 src2 : DevAddr) (modIdx : ℤ) : Shim P M :=
  guarded (dst == .null || src1 == .null || src2 == .null) <|
    setInternalResult (binaryPpOp F env opFn dst src1 src2 modIdx)

def hazeAdd : DevAddr → DevAddr → DevAddr → ℤ → Shim P M := hazeBinaryPp F env F.srAddp
def hazeSub : DevAddr → DevAddr → DevAddr → ℤ → Shim P M := hazeBinaryPp F env F.srSubp
def hazeMul : DevAddr → DevAddr → DevAddr → ℤ → Shim P M := hazeBinaryPp F env F.srMulp

/-- The shim of an operation on a polynomial and a scalar. -/
def hazeBinaryPs (opFn : P → UInt64 → UInt64 → P) (dst src : DevAddr) (scalar : UInt64)
    (modIdx : ℤ) : Shim P M :=
  guarded (dst == .null || src == .null) <|
    setInternalResult (binaryPsOp F env opFn dst src scalar modIdx)

def hazeAddScalar : DevAddr → DevAddr → UInt64 → ℤ → Shim P M := hazeBinaryPs F env F.srAddps
def hazeSubScalar : DevAddr → DevAddr → UInt64 → ℤ → Shim P M := hazeBinaryPs F env F.srSubps
def hazeMulScalar : DevAddr → DevAddr → UInt64 → ℤ → Shim P M := hazeBinaryPs F env F.srMulps

/-- The shim of an operation on a polynomial. -/
def hazeUnaryPq (opFn : P → UInt64 → P) (dst src : DevAddr) (modIdx : ℤ) : Shim P M :=
  guarded (dst == .null || src == .null) <|
    setInternalResult (unaryPqOp F env opFn dst src modIdx)

def hazeNTT : DevAddr → DevAddr → ℤ → Shim P M := hazeUnaryPq F env F.srNtt
def hazeINTT : DevAddr → DevAddr → ℤ → Shim P M := hazeUnaryPq F env F.srIntt

/-- The automorphism, which carries no modulus. -/
def hazeAutomorph (dst src : DevAddr) (index : UInt64) : Shim P M :=
  guarded (dst == .null || src == .null) <|
    setInternalResult (unaryPiOp F env F.srAutomorphEval dst src index)

/-! ## Compute on several residues -/

/-- The pointers of an operation with one source array and a base: all given, the base not empty. -/
def withArrays (dst src : Option (List DevAddr)) (base : Option (List UInt64))
    (x : List DevAddr → List DevAddr → List UInt64 → Method P M Unit) : Shim P M :=
  match dst, src, base with
  | some dst, some src, some base => guarded base.isEmpty <| setInternalResult (x dst src base)
  | _, _, _ => invalidValue

/-- The shim of an operation on two multi-residue polynomials. -/
def hazeBinaryPpMrp (opFn : M → M → M) (dst src1 src2 : Option (List DevAddr))
    (base : Option (List UInt64)) : Shim P M :=
  match src2 with
  | none => invalidValue
  | some src2 => withArrays dst src1 base fun dst src1 base =>
    binaryPpOpMrp F env opFn dst src1 src2 base

def hazeAddMrp := hazeBinaryPpMrp F env F.mrAddp
def hazeSubMrp := hazeBinaryPpMrp F env F.mrSubp
def hazeMulMrp := hazeBinaryPpMrp F env F.mrMulp

/-- The shim of an operation on a multi-residue polynomial and scalars. -/
def hazeBinaryPsMrp (opFn : M → List (UInt64 × UInt64) → M) (dst src : Option (List DevAddr))
    (scalars base : Option (List UInt64)) : Shim P M :=
  match scalars with
  | none => invalidValue
  | some scalars => withArrays dst src base fun dst src base =>
    binaryPsOpMrp F env opFn dst src scalars base

def hazeAddScalarMrp := hazeBinaryPsMrp F env F.mrAddps
def hazeSubScalarMrp := hazeBinaryPsMrp F env F.mrSubps
def hazeMulScalarMrp := hazeBinaryPsMrp F env F.mrMulps

/-- The shim of an operation on a multi-residue polynomial. -/
def hazeUnaryPMrp (opFn : M → M) (dst src : Option (List DevAddr)) (base : Option (List UInt64)) :
    Shim P M :=
  withArrays dst src base fun dst src base => unaryPOpMrp F env opFn dst src base

def hazeNTTMrp := hazeUnaryPMrp F env F.mrNtt
def hazeINTTMrp := hazeUnaryPMrp F env F.mrIntt

/-- The shim of an operation on a multi-residue polynomial and an index. -/
def hazeUnaryPiMrp (opFn : M → UInt64 → M) (dst src : Option (List DevAddr)) (index : UInt64)
    (base : Option (List UInt64)) : Shim P M :=
  withArrays dst src base fun dst src base => unaryPiOpMrp F env opFn dst src index base

def hazeAutomorphMrp := hazeUnaryPiMrp F env F.mrAutomorphEval
def hazeRotAutomorphCoeffMrp := hazeUnaryPiMrp F env F.mrRotAutomorphCoeff

/-- The pointer checks of a basis conversion. Its success is returned directly. -/
def dispatch {T : Type} (x : List DevAddr → List DevAddr → T → Method P M Unit)
    (dst src : Option (List DevAddr)) (params : Option T) : Shim P M :=
  match dst, src, params with
  | some dst, some src, some params => replyWith (fun _ => Reply.success) (x dst src params)
  | _, _, _ => invalidValue

def hazeBasisConvert := dispatch (basisConvert F env)
def hazeModDown := dispatch (modDown F env)
def hazeModUp := dispatch (modUp F env)

/-! ## The lifecycle -/

/-- Declare an output. -/
def hazeTagOutput (ptr : DevAddr) : Shim P M :=
  guarded (ptr == .null) <| setInternalResult (onEpoch (EpochState.tagOutputLocked ptr))

/-- Replay the epoch. -/
def hazeFlush : Shim P M := setInternalResult (flush F env)

/-- Write the epoch's program. -/
def hazeWriteProgram : Shim P M := setInternalResult (writeProgram F env)

/-- Reset everything, the epoch first. -/
def resetAll (w : World P M) : World P M :=
  { config := .init
    allocator := .init
    epoch := (clearStateLocked w).epoch
    initialized := false
    hookHadError := false
    compiler := (clearStateLocked w).compiler ++ [.reset] }

/-- Reset the device and the thread's last error. -/
def hazeDeviceReset : Shim P M := fun w =>
  ({ Reply.success with lastError := some .success }, resetAll w)

/-! ## The configuration -/

def hazeSetRingDimension (n : UInt64) : Shim P M := setInternalResult (setRingDimension n)

def hazeSetCiphertextModulus (index : ℤ) (modulus : UInt64) : Shim P M :=
  setInternalResult (onConfig (Config.setModulus index modulus))

def hazeSetTwiddleFactors (index : ℤ) (generator : UInt64) : Shim P M :=
  setInternalResult (onConfig (Config.setTwiddleGenerator index generator))

def hazeConfigureDevice : Shim P M := setInternalResult (onConfig Config.configureDevice)

def hazeSetProgramInfo (name version description : Option String) : Shim P M :=
  setInternalResult (onConfig (Config.setProgramInfo name version description))

def hazeSetTarget (target : Option String) : Shim P M :=
  setInternalResult (onConfig (Config.setTarget target))

def hazeSetProgramDirectory (dir : Option String) : Shim P M :=
  setInternalResult (onConfig (Config.setProgramDirectory dir))

def hazeSetMontgomery (enable : ℤ) : Shim P M :=
  setInternalResult (onConfig (Expected.modify fun c => { c with montgomery := enable != 0 }))

def hazeSetBitReversal (enable : ℤ) : Shim P M :=
  setInternalResult (onConfig (Expected.modify fun c => { c with bitReversal := enable != 0 }))

def hazeSetReducedNoise (enable : ℤ) : Shim P M :=
  setInternalResult (onConfig (Expected.modify fun c => { c with reducedNoise := enable != 0 }))

end

/-! ## Programs -/

/-- An operation on two operands. -/
inductive PpOp where
  | add
  | sub
  | mul
deriving DecidableEq, Repr

/-- The two transforms. -/
inductive TransformOp where
  | ntt
  | intt
deriving DecidableEq, Repr

/-- The two operations with an index on several residues. -/
inductive IndexOp where
  | automorph
  | rotAutomorphCoeff
deriving DecidableEq, Repr

/-- The library's operation on two polynomials. -/
def PpOp.sr (F : Fhetch P M) : PpOp → P → P → UInt64 → P
  | .add => F.srAddp
  | .sub => F.srSubp
  | .mul => F.srMulp

/-- The library's operation on two multi-residue polynomials. -/
def PpOp.mr (F : Fhetch P M) : PpOp → M → M → M
  | .add => F.mrAddp
  | .sub => F.mrSubp
  | .mul => F.mrMulp

/-- The library's operation on a polynomial and a scalar. -/
def PpOp.srs (F : Fhetch P M) : PpOp → P → UInt64 → UInt64 → P
  | .add => F.srAddps
  | .sub => F.srSubps
  | .mul => F.srMulps

/-- The library's operation on a multi-residue polynomial and scalars. -/
def PpOp.mrs (F : Fhetch P M) : PpOp → M → List (UInt64 × UInt64) → M
  | .add => F.mrAddps
  | .sub => F.mrSubps
  | .mul => F.mrMulps

/-- The library's transform of a polynomial. -/
def TransformOp.sr (F : Fhetch P M) : TransformOp → P → UInt64 → P
  | .ntt => F.srNtt
  | .intt => F.srIntt

/-- The library's transform of a multi-residue polynomial. -/
def TransformOp.mr (F : Fhetch P M) : TransformOp → M → M
  | .ntt => F.mrNtt
  | .intt => F.mrIntt

/-- The library's operation with an index on a multi-residue polynomial. -/
def IndexOp.mr (F : Fhetch P M) : IndexOp → M → UInt64 → M
  | .automorph => F.mrAutomorphEval
  | .rotAutomorphCoeff => F.mrRotAutomorphCoeff

/-- A call that only changes the configuration. -/
inductive ConfigCall where
  | setCiphertextModulus (index : ℤ) (modulus : UInt64)
  | setTwiddleFactors (index : ℤ) (generator : UInt64)
  | configureDevice
  | setProgramInfo (name version description : Option String)
  | setTarget (target : Option String)
  | setProgramDirectory (dir : Option String)
  | setMontgomery (enable : ℤ)
  | setBitReversal (enable : ℤ)
  | setReducedNoise (enable : ℤ)

/-- A call with its arguments. -/
inductive Call where
  | malloc (ptr : Bool) (size : UInt64)
  | free (ptr : DevAddr)
  | mallocMrp (ptrs : Bool) (count size : UInt64)
  | freeMrp (ptrs : Option (List DevAddr)) (count : UInt64)
  | memcpy (transfer : Transfer) (count : UInt64)
  | memcpyMrp (transfer : TransferMrp) (count : UInt64) (base : Option (List UInt64))
  | memset (devPtr : DevAddr) (value : ℤ) (count : UInt64)
  | pp (op : PpOp) (dst src1 src2 : DevAddr) (modIdx : ℤ)
  | ps (op : PpOp) (dst src : DevAddr) (scalar : UInt64) (modIdx : ℤ)
  | transform (op : TransformOp) (dst src : DevAddr) (modIdx : ℤ)
  | automorph (dst src : DevAddr) (index : UInt64)
  | ppMrp (op : PpOp) (dst src1 src2 : Option (List DevAddr)) (base : Option (List UInt64))
  | psMrp (op : PpOp) (dst src : Option (List DevAddr)) (scalars base : Option (List UInt64))
  | transformMrp (op : TransformOp) (dst src : Option (List DevAddr)) (base : Option (List UInt64))
  | indexMrp (op : IndexOp) (dst src : Option (List DevAddr)) (index : UInt64)
      (base : Option (List UInt64))
  | basisConvert (dst src : Option (List DevAddr)) (params : Option BasisConvertParams)
  | modDown (dst src : Option (List DevAddr)) (params : Option ModDownParams)
  | modUp (dst src : Option (List DevAddr)) (params : Option ModUpParams)
  | tagOutput (ptr : DevAddr)
  | flush
  | writeProgram
  | deviceReset
  | setRingDimension (n : UInt64)
  | config (call : ConfigCall)

/-- The effect of a call on the configuration. -/
def ConfigCall.run : ConfigCall → Shim P M
  | .setCiphertextModulus index modulus => hazeSetCiphertextModulus index modulus
  | .setTwiddleFactors index generator => hazeSetTwiddleFactors index generator
  | .configureDevice => hazeConfigureDevice
  | .setProgramInfo name version description => hazeSetProgramInfo name version description
  | .setTarget target => hazeSetTarget target
  | .setProgramDirectory dir => hazeSetProgramDirectory dir
  | .setMontgomery enable => hazeSetMontgomery enable
  | .setBitReversal enable => hazeSetBitReversal enable
  | .setReducedNoise enable => hazeSetReducedNoise enable

section

variable (F : Fhetch P M) (env : CompilerReplies P)

/-- The effect of a call. -/
def Call.run : Call → Shim P M
  | .malloc ptr size => hazeMalloc ptr size
  | .free ptr => hazeFree ptr
  | .mallocMrp ptrs count size => hazeMallocMrp ptrs count size
  | .freeMrp ptrs count => hazeFreeMrp ptrs count
  | .memcpy transfer count => hazeMemcpy F env transfer count
  | .memcpyMrp transfer count base => hazeMemcpyMrp F env transfer count base
  | .memset devPtr value count => hazeMemset devPtr value count
  | .pp .add dst src1 src2 modIdx => hazeAdd F env dst src1 src2 modIdx
  | .pp .sub dst src1 src2 modIdx => hazeSub F env dst src1 src2 modIdx
  | .pp .mul dst src1 src2 modIdx => hazeMul F env dst src1 src2 modIdx
  | .ps .add dst src scalar modIdx => hazeAddScalar F env dst src scalar modIdx
  | .ps .sub dst src scalar modIdx => hazeSubScalar F env dst src scalar modIdx
  | .ps .mul dst src scalar modIdx => hazeMulScalar F env dst src scalar modIdx
  | .transform .ntt dst src modIdx => hazeNTT F env dst src modIdx
  | .transform .intt dst src modIdx => hazeINTT F env dst src modIdx
  | .automorph dst src index => hazeAutomorph F env dst src index
  | .ppMrp .add dst src1 src2 base => hazeAddMrp F env dst src1 src2 base
  | .ppMrp .sub dst src1 src2 base => hazeSubMrp F env dst src1 src2 base
  | .ppMrp .mul dst src1 src2 base => hazeMulMrp F env dst src1 src2 base
  | .psMrp .add dst src scalars base => hazeAddScalarMrp F env dst src scalars base
  | .psMrp .sub dst src scalars base => hazeSubScalarMrp F env dst src scalars base
  | .psMrp .mul dst src scalars base => hazeMulScalarMrp F env dst src scalars base
  | .transformMrp .ntt dst src base => hazeNTTMrp F env dst src base
  | .transformMrp .intt dst src base => hazeINTTMrp F env dst src base
  | .indexMrp .automorph dst src index base => hazeAutomorphMrp F env dst src index base
  | .indexMrp .rotAutomorphCoeff dst src index base =>
    hazeRotAutomorphCoeffMrp F env dst src index base
  | .basisConvert dst src params => hazeBasisConvert F env dst src params
  | .modDown dst src params => hazeModDown F env dst src params
  | .modUp dst src params => hazeModUp F env dst src params
  | .tagOutput ptr => hazeTagOutput ptr
  | .flush => hazeFlush F env
  | .writeProgram => hazeWriteProgram F env
  | .deviceReset => hazeDeviceReset
  | .setRingDimension n => hazeSetRingDimension n
  | .config call => call.run

end

/-- A call together with what the compiler answers while it runs. -/
structure Invocation (P : Type) where
  env : CompilerReplies P
  call : Call

/-- The reply to an invocation and the state after it. -/
def Invocation.run (F : Fhetch P M) (i : Invocation P) : Shim P M := i.call.run F i.env

/-- The state after one invocation. -/
def World.after (F : Fhetch P M) (w : World P M) (i : Invocation P) : World P M := (i.run F w).2

/-- The state after a program. -/
def World.runAll (F : Fhetch P M) (w : World P M) (is : List (Invocation P)) : World P M :=
  is.foldl (World.after F) w

/-- The replies of a program, in order. -/
def World.replies (F : Fhetch P M) : World P M → List (Invocation P) → List Reply
  | _, [] => []
  | w, i :: is => (i.run F w).1 :: World.replies F (w.after F i) is

/-- A state that some program reaches from the process start. -/
def World.Reachable (F : Fhetch P M) (w : World P M) : Prop :=
  ∃ is : List (Invocation P), World.runAll F .init is = w

end Haze
