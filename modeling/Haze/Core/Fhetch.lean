import Haze.Core.Types
import Haze.Lib.UnorderedMap

/-!
# The compiler library

The `fhetch` polynomials and the `niobium` compiler are a library that the runtime links to. Their
operations are parameters: `Fhetch` has the operations on polynomials and multi-residue
polynomials, `CompilerCall` the calls that change the compiler's state, and `CompilerReplies` what
the compiler answers while one public call runs.
-/

namespace Haze

/-- The variant of fast base conversion. -/
inductive FbcVariant where
  | standard
  | reducedNoise
deriving DecidableEq, Repr

/-- The shape of the centering in fast base conversion. -/
inductive FbcCenterShape where
  | threeOp
  | fourOp
deriving DecidableEq, Repr

/-- The operations on polynomials of type `P` and multi-residue polynomials of type `M`. A
multi-residue scalar is the list of its scalars with their moduli. -/
structure Fhetch (P M : Type) where
  /-- A polynomial in evaluation format, from its components and the ring dimension. -/
  fromData : List UInt64 → UInt64 → P
  srAddp : P → P → UInt64 → P
  srSubp : P → P → UInt64 → P
  srMulp : P → P → UInt64 → P
  srAddps : P → UInt64 → UInt64 → P
  srSubps : P → UInt64 → UInt64 → P
  srMulps : P → UInt64 → UInt64 → P
  srNtt : P → UInt64 → P
  srIntt : P → UInt64 → P
  srAutomorphEval : P → UInt64 → P
  /-- A multi-residue polynomial from its residues and their moduli. -/
  fromPairs : List (P × UInt64) → M
  /-- The residue for a modulus. -/
  residue : M → UInt64 → P
  /-- The moduli of a multi-residue polynomial. -/
  base : M → List UInt64
  mrAddp : M → M → M
  mrSubp : M → M → M
  mrMulp : M → M → M
  mrAddps : M → List (UInt64 × UInt64) → M
  mrSubps : M → List (UInt64 × UInt64) → M
  mrMulps : M → List (UInt64 × UInt64) → M
  mrNtt : M → M
  mrIntt : M → M
  mrAutomorphEval : M → UInt64 → M
  mrRotAutomorphCoeff : M → UInt64 → M
  /-- The residues for some of the moduli. -/
  mrSubset : M → List UInt64 → M
  fastBaseConvert : M → List UInt64 → FbcVariant → FbcCenterShape → M
  rescaleFbc : M → List UInt64 → FbcVariant → FbcCenterShape → M

/-- A call to the compiler that changes its state. -/
inductive CompilerCall (P M : Type) where
  | init (argv : List String)
  | setProgramInfo (name version description : String)
  | setProgramDirectory (dir : String)
  | suppressProbes
  | startEpoch
  | start
  | tagInput (name : ProbeName) (poly : P)
  | tagInputMrp (name : ProbeName) (mrp : M)
  | bindModulus (poly : P) (modulus : UInt64)
  | tagOutput (name : ProbeName) (poly : P)
  | tagOutputMrp (name : ProbeName) (mrp : M)
  | stop
  | replay
  | clearCaptured
  | reset

/-- The outputs that the compiler holds captured after one more call. -/
def CompilerCall.capture {P M : Type} (outputs : List (ProbeName × P)) :
    CompilerCall P M → List (ProbeName × P)
  | .tagOutput name poly => outputs ++ [(name, poly)]
  | .clearCaptured => []
  | .reset => []
  | _ => outputs

/-- The outputs that were captured since the last time that the compiler dropped its captures. -/
def capturedOutputs {P M : Type} (calls : List (CompilerCall P M)) : List (ProbeName × P) :=
  calls.foldl CompilerCall.capture []

/-- What the compiler answers during one public call, and the orders in which the runtime meets the
elements of its own unordered containers. -/
structure CompilerReplies (P : Type) where
  /-- Whether initialization returns; otherwise it throws. -/
  initReturns : Bool
  /-- Whether `stop` reports success. -/
  stopSucceeds : Bool
  /-- Whether the post-recording hook, which runs inside `stop`, reports a failure. -/
  hookFails : Bool
  /-- Whether `replay` reports success. -/
  replaySucceeds : Bool
  /-- The polynomial that the replay of the captured outputs has under a name, if any. -/
  result : List (ProbeName × P) → ProbeName → Option P
  /-- The values read back from a saved polynomial, if it can be saved and read. -/
  savedValues : P → ProbeName → Option (List UInt64)
  /-- The order of the iterations over the pending outputs. -/
  outputOrder : IterationOrder (Sigma fun _ : DevAddr => ProbeName)
  /-- The order of the iteration over the pending groups. -/
  groupOrder : IterationOrder ProbeName

/-- The values of a replayed polynomial; no values are a failure. -/
def CompilerReplies.extractPolynomialValues {P : Type} (env : CompilerReplies P) (poly : P)
    (tag : ProbeName) : Option (List UInt64) :=
  match env.savedValues poly tag with
  | some (v :: vs) => some (v :: vs)
  | _ => none

end Haze
