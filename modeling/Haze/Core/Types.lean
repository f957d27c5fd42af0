import Mathlib.Data.Int.Notation
import Mathlib.Data.Nat.Notation

/-!
# Device addresses, probe names and error codes

The types that the rest of the runtime is written in: `DevAddr` from `common/handle.hpp`,
`HazeInternalError` and its public image `HazeError` from `common/errors.hpp` and `haze_types.h`,
and the names under which polynomials are passed to the compiler library.
-/

namespace Haze

/-- A device address, a `uintptr_t`. -/
structure DevAddr where
  /-- The address as an unsigned word. -/
  uintptr : UInt64
deriving DecidableEq, Repr

/-- The null pointer of the C interface. -/
def DevAddr.null : DevAddr := ⟨0⟩

instance : Inhabited DevAddr := ⟨DevAddr.null⟩

/-- The base of the virtual device memory. -/
def kHbmBase : UInt64 := 0x4000000000

/-- The most residues that one batched allocation or free may have. -/
def kMaxCiphertextModuli : UInt64 := 64

/-- The modulus of a copy, and the mark of a modulus that is not known. -/
def kCopyModulus : UInt64 := 0xFFFFFFFFFFFFFFFF

/-- The target that replays in process. -/
def kLocalTarget : String := "local"

/-- The names under which polynomials are tagged. Each constructor is one of the fixed texts of the
source and carries the counter that the source appends to it. -/
inductive ProbeName where
  /-- `"haze_in_" + n`, an input polynomial. -/
  | hazeIn (n : ℕ)
  /-- `"haze_out_" + n`, an output polynomial. -/
  | hazeOut (n : ℕ)
  /-- `"haze_mrp_in_" + n`, a multi-residue input. -/
  | hazeMrpIn (n : ℕ)
  /-- `"haze_mrp_out_" + n`, a multi-residue output. -/
  | hazeMrpOut (n : ℕ)
deriving DecidableEq, Repr

/-- The errors that the runtime passes around internally. -/
inductive HazeInternalError where
  | invalidArgument
  | notConfigured
  | unknownAddress
  | noData
  | allocTooSmall
  | backendInitFailed
  | backendReplayFailed
  | backendShapeMismatch
  | mrpGroupAddrModuliMismatch
  | missingPolyMapBinding
  | shadowSizeMismatch
  | backendOutputMissing
  | backendOutputDecodeFailed
  | bridgeHookFailed
  | poolMapDesync
  | sourceUnavailable
  | outputNotFlushed
  | unsupportedDataFormat
deriving DecidableEq, Repr

/-- The codes that the C interface returns (`hazeError_t`). -/
inductive HazeError where
  | success
  | invalidValue
  | outOfMemory
  | notSupported
  | configErr
  | unknownAddress
  | noData
  | allocTooSmall
  | sourceUnavailable
  | notFlushed
  | internal
deriving DecidableEq, Repr

/-- The code that an internal error becomes at the C interface. -/
def toPublicError : HazeInternalError → HazeError
  | .invalidArgument => .invalidValue
  | .notConfigured => .configErr
  | .unknownAddress => .unknownAddress
  | .noData => .noData
  | .allocTooSmall => .allocTooSmall
  | .sourceUnavailable => .sourceUnavailable
  | .outputNotFlushed => .notFlushed
  | .unsupportedDataFormat => .notSupported
  | .backendInitFailed => .internal
  | .backendReplayFailed => .internal
  | .backendShapeMismatch => .internal
  | .mrpGroupAddrModuliMismatch => .internal
  | .missingPolyMapBinding => .internal
  | .shadowSizeMismatch => .internal
  | .backendOutputMissing => .internal
  | .backendOutputDecodeFailed => .internal
  | .bridgeHookFailed => .internal
  | .poolMapDesync => .internal

/-- No internal error is reported as success. -/
theorem toPublicError_ne_success (e : HazeInternalError) : toPublicError e ≠ .success := by
  cases e <;> exact fun h => HazeError.noConfusion h

end Haze
