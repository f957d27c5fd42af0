import Haze.Api

/-!
# The library at ring dimension one

At ring dimension one a polynomial is a single residue, a transform and an automorphism do nothing,
and the compiler replays a program by returning what was tagged. `scalarRing` and `scalarReplies`
are that instance of the library: the concrete programs of this development run on it.
-/

namespace Haze

/-- A residue-wise operation on two operands. -/
def scalarZip (f : UInt64 → UInt64 → UInt64 → UInt64) (m n : List (UInt64 × UInt64)) :
    List (UInt64 × UInt64) :=
  (m.zip n).map fun r => (f r.1.1 r.2.1 r.1.2, r.1.2)

def scalarAdd (x y q : UInt64) : UInt64 := .ofNat ((x.toNat + y.toNat) % q.toNat)
def scalarSub (x y q : UInt64) : UInt64 := .ofNat ((x.toNat + (q.toNat - y.toNat % q.toNat)) % q.toNat)
def scalarMul (x y q : UInt64) : UInt64 := .ofNat (x.toNat * y.toNat % q.toNat)

/-- Adding a scalar; under the copy sentinel the operation is a copy. -/
def scalarAddps (x s q : UInt64) : UInt64 := if q = kCopyModulus then x else scalarAdd x s q

/-- The residues for some moduli, in the order of the moduli. -/
def scalarSubset (m : List (UInt64 × UInt64)) (base : List UInt64) : List (UInt64 × UInt64) :=
  base.filterMap fun q => m.find? (·.2 = q)

/-- The library at ring dimension one. Base conversion is that of a one-residue polynomial. -/
def scalarRing : Fhetch UInt64 (List (UInt64 × UInt64)) where
  fromData xs _ := xs.headD 0
  srAddp := scalarAdd
  srSubp := scalarSub
  srMulp := scalarMul
  srAddps := scalarAddps
  srSubps := scalarSub
  srMulps := scalarMul
  srNtt x _ := x
  srIntt x _ := x
  srAutomorphEval x _ := x
  fromPairs ps := ps
  residue m q := ((m.find? (·.2 = q)).map (·.1)).getD 0
  base m := m.map (·.2)
  mrAddp := scalarZip scalarAdd
  mrSubp := scalarZip scalarSub
  mrMulp := scalarZip scalarMul
  mrAddps := scalarZip scalarAdd
  mrSubps := scalarZip scalarSub
  mrMulps := scalarZip scalarMul
  mrNtt m := m
  mrIntt m := m
  mrAutomorphEval m _ := m
  mrRotAutomorphCoeff m _ := m
  mrSubset := scalarSubset
  fastBaseConvert m base _ _ := base.map fun q => ((m.headD (0, 0)).1 % q, q)
  rescaleFbc m base _ _ := m.filter fun r => r.2 ∉ base

/-- A compiler whose every step succeeds. -/
def scalarReplies : CompilerReplies UInt64 where
  initReturns := true
  stopSucceeds := true
  hookFails := false
  replaySucceeds := true
  result outputs name := (outputs.find? (·.1 = name)).map (·.2)
  savedValues x _ := some [x]
  outputOrder := .inOrder
  groupOrder := .inOrder

/-- Calls during which every step of the compiler succeeds. -/
def scalarProgram (calls : List Call) : List (Invocation UInt64) := calls.map (⟨scalarReplies, ·⟩)

end Haze
