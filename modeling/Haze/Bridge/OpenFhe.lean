import Haze.Bridge.Slices
import Haze.Core.Types
import Mathlib.Data.Nat.Size

/-!
# The ciphertexts of OpenFHE

What `replay_bridge/src/openfhe_template.cpp` uses of OpenFHE. A ciphertext is a list of elements,
an element is one polynomial for each tower, and the parameters of a tower are its ring dimension
and its modulus. The library's operations are those of `OpenFhe`; each may throw, and what is known
of one that returns is in `OpenFhe.Lawful`.
-/

namespace Haze

namespace Bridge

/-- The parameters of a tower. -/
structure NativeParams where
  ringDim : ℕ
  modulus : UInt64
deriving DecidableEq, Repr

/-- One tower of an element: its parameters and its values. -/
structure NativePoly where
  params : NativeParams
  values : List UInt64
deriving DecidableEq, Repr

/-- An element of a ciphertext: its towers. -/
abbrev DCRTPoly : Type := List NativePoly

/-- The parameters that a context is generated from. -/
structure CCParams where
  ringDim : UInt32
  multiplicativeDepth : UInt32
  firstModSize : UInt32
  scalingModSize : UInt32
deriving DecidableEq, Repr

/-- A crypto context, with the parameters of the towers of its elements. A context whose element
parameters are missing has none. -/
structure CryptoContext where
  params : List NativeParams
deriving DecidableEq, Repr

/-- A ciphertext: its context and its elements. -/
structure Ciphertext where
  cc : CryptoContext
  elements : List DCRTPoly
deriving DecidableEq, Repr

/-- The towers of a ciphertext, element after element. -/
def Ciphertext.towers (ct : Ciphertext) : List NativePoly := ct.elements.flatten

/-- A tower of zeros. -/
def NativeParams.zeros (p : NativeParams) : NativePoly := ⟨p, List.replicate p.ringDim 0⟩

/-- The zero polynomial has the parameters that it is made for. -/
@[simp] theorem NativeParams.zeros_params (p : NativeParams) : p.zeros.params = p := rfl

/-- Its values are zero. -/
@[simp] theorem NativeParams.zeros_values (p : NativeParams) :
    p.zeros.values = List.replicate p.ringDim 0 := rfl

/-- The operations of the library. An operation that throws has the text of its exception. -/
structure OpenFhe where
  /-- Generate a context; a null pointer is `none`. -/
  genCryptoContext : CCParams → Except String (Option CryptoContext)
  /-- Drop a number of trailing towers. -/
  dropLastElements : DCRTPoly → ℕ → Except String DCRTPoly
  /-- A root of unity of a cyclotomic order modulo a modulus. -/
  rootOfUnity : UInt32 → UInt64 → Except String UInt64
  /-- Give a tower another modulus, with a root of unity for it. -/
  switchModulusAtIndex : DCRTPoly → ℕ → UInt64 → UInt64 → Except String DCRTPoly
  /-- Replace the values of a tower by a vector under the tower's modulus. -/
  setValues : NativePoly → List UInt64 → Except String NativePoly

/-- The tower under another modulus. -/
def NativePoly.rebase (np : NativePoly) (q : UInt64) : NativePoly :=
  { np with params := { np.params with modulus := q } }

/-- What an operation of the library does when it returns. -/
structure OpenFhe.Lawful (O : OpenFhe) : Prop where
  /-- Every tower of a context has the ring dimension that was asked for. -/
  params_ringDim : ∀ p cc, O.genCryptoContext p = .ok (some cc) →
    ∀ t ∈ cc.params, t.ringDim = p.ringDim.toNat
  dropLastElements : ∀ d n d', O.dropLastElements d n = .ok d' → d' = d.take (d.length - n)
  /-- A tower of zeros is a tower of zeros under every modulus. -/
  switchModulusAtIndex : ∀ d t q root d' np, O.switchModulusAtIndex d t q root = .ok d' →
    d[t]? = some np → np = np.params.zeros → d' = d.set t (np.rebase q)
  /-- The values are not reduced. -/
  setValues : ∀ np vs np', O.setValues np vs = .ok np' → vs.length = np.params.ringDim →
    np' = { np with values := vs }

/-! ## Building a context -/

/-- The failures of building a context. -/
inductive BridgeError where
  | invalidModulus
  | openFheUnavailable
deriving DecidableEq, Repr

/-- The value of an error in the source's enumeration. -/
def BridgeError.toNat : BridgeError → ℕ
  | .invalidModulus => 0
  | .openFheUnavailable => 1

/-- A context and the ring dimension that it was built for. -/
structure Context where
  ringDim : UInt64
  cc : CryptoContext
deriving DecidableEq, Repr

/-- The number of bits of a word (`std::bit_width`). -/
def bitWidth (q : UInt64) : UInt32 := .ofNat q.toNat.size

/-- The parameters for a chain with a tower for each modulus. The sizes only leave room for the
primes, which are replaced later. -/
def ccParams (ringDim : UInt64) (front : UInt64) (rest : List UInt64) : CCParams :=
  let maxBits := rest.foldl (fun bits q => max bits (bitWidth q)) (bitWidth front)
  { ringDim := ringDim.toUInt32
    multiplicativeDepth := .ofNat rest.length
    firstModSize := maxBits
    scalingModSize := maxBits - 1 }

/-- Build a context for a ring dimension and a chain of moduli. -/
def buildContext (O : OpenFhe) (ringDim : UInt64) (moduli : List UInt64) :
    Except String (Except BridgeError Context) :=
  match moduli with
  | [] => .ok (.error .invalidModulus)
  | front :: rest => do
    match ← O.genCryptoContext (ccParams ringDim front rest) with
    | none => pure (.error .openFheUnavailable)
    | some cc =>
      if cc.params = [] then pure (.error .openFheUnavailable) else pure (.ok ⟨ringDim, cc⟩)

/-- A library that drops towers, switches a tower to a modulus that it has a root for, and takes as
many values as a tower has. Nothing is asked of the contexts and the roots themselves. -/
structure OpenFhe.Serves (O : OpenFhe) (corder : UInt32) (supported : UInt64 → Prop) : Prop
    extends O.Lawful where
  /-- At least one tower stays. -/
  drops : ∀ d n, (∃ d', O.dropLastElements d n = .ok d') ↔ n < d.length
  switches : ∀ d t q root, t < d.length → supported q → O.rootOfUnity corder q = .ok root →
    ∃ d', O.switchModulusAtIndex d t q root = .ok d'
  sets : ∀ np vs, vs.length = np.params.ringDim → ∃ np', O.setValues np vs = .ok np'

/-- A library that succeeds where it can: on chains up to some depth of moduli that it supports, and
on as many values as a tower has. -/
structure OpenFhe.Reliable (O : OpenFhe) (ringDim : UInt64) (supported : UInt64 → Prop)
    (depth : ℕ) : Prop extends O.Lawful where
  /-- A context has a tower for each modulus. -/
  contexts : ∀ front rest, (∀ q ∈ front :: rest, supported q) → (front :: rest).length ≤ depth →
    ∃ cc, O.genCryptoContext (ccParams ringDim front rest) = .ok (some cc) ∧
      (front :: rest).length ≤ cc.params.length
  /-- At least one tower stays. -/
  drops : ∀ d n, (∃ d', O.dropLastElements d n = .ok d') ↔ n < d.length
  roots : ∀ q, supported q → ∃ root, O.rootOfUnity (2 * ringDim).toUInt32 q = .ok root
  switches : ∀ d t q root, t < d.length → supported q →
    O.rootOfUnity (2 * ringDim).toUInt32 q = .ok root →
      ∃ d', O.switchModulusAtIndex d t q root = .ok d'
  sets : ∀ np vs, vs.length = np.params.ringDim → ∃ np', O.setValues np vs = .ok np'

/-- Such a library serves the moduli that it supports. -/
theorem OpenFhe.Reliable.serves {O : OpenFhe} {ringDim : UInt64} {supported : UInt64 → Prop}
    {depth : ℕ} (h : O.Reliable ringDim supported depth) :
    O.Serves (2 * ringDim).toUInt32 supported where
  toLawful := h.toLawful
  drops := h.drops
  switches := h.switches
  sets := h.sets

/-- The towers of a context that was built have the ring dimension it was built for. -/
theorem buildContext_params {O : OpenFhe} (hO : O.Lawful) {ringDim : UInt64} {moduli : List UInt64}
    {ctx : Context} (h : buildContext O ringDim moduli = .ok (.ok ctx)) :
    ctx.ringDim = ringDim ∧ ctx.cc.params ≠ [] ∧
      ∀ t ∈ ctx.cc.params, t.ringDim = ringDim.toUInt32.toNat := by
  rcases moduli with _ | ⟨front, rest⟩
  · cases h
  dsimp only [buildContext] at h
  rcases hgen : O.genCryptoContext (ccParams ringDim front rest) with e | _ | cc
  · rw [hgen] at h
    cases h
  · rw [hgen] at h
    cases h
  rw [hgen] at h
  change (if cc.params = [] then _ else _) = _ at h
  split_ifs at h with hempty
  · cases h
  · cases h
    exact ⟨rfl, hempty, hO.params_ringDim _ cc hgen⟩

/-! ## A library -/

/-- A library whose contexts have the prime 17 in each tower. -/
def plainFhe : OpenFhe where
  genCryptoContext p := .ok (some
    ⟨List.replicate (p.multiplicativeDepth.toNat + 1) ⟨p.ringDim.toNat, 17⟩⟩)
  dropLastElements d n := if n < d.length then .ok (d.take (d.length - n)) else .error "too few towers"
  rootOfUnity corder q :=
    match (List.range q.toNat).find? fun r => r ^ (corder.toNat / 2) % q.toNat = q.toNat - 1 with
    | none => .error "no root of unity"
    | some root => .ok (.ofNat root)
  switchModulusAtIndex d t q _ :=
    match d[t]? with
    | none => .error "no such tower"
    | some np => .ok (d.set t (np.rebase q))
  setValues np vs :=
    if vs.length = np.params.ringDim then .ok { np with values := vs } else .error "another length"

/-- The plain library is lawful. -/
theorem plainFhe_lawful : plainFhe.Lawful where
  params_ringDim := by
    intro p cc h t ht
    cases h
    -- All the towers of a context are the same one.
    rw [List.eq_of_mem_replicate ht]
  dropLastElements := by
    intro d n d' h
    dsimp only [plainFhe] at h
    split_ifs at h
    cases h
    rfl
  switchModulusAtIndex := by
    intro d t q root d' np h hat hzeros
    dsimp only [plainFhe] at h
    rw [hat] at h
    cases h
    rfl
  setValues := by
    intro np vs np' h hlength
    dsimp only [plainFhe] at h
    rw [if_pos hlength] at h
    cases h
    rfl

/-- It serves every modulus. -/
theorem plainFhe_serves (corder : UInt32) : plainFhe.Serves corder fun _ => True where
  toLawful := plainFhe_lawful
  drops := by
    intro d n
    dsimp only [plainFhe]
    split_ifs with h
    · exact ⟨fun _ => h, fun _ => ⟨_, rfl⟩⟩
    · refine ⟨?_, fun hlt => absurd hlt h⟩
      rintro ⟨d', hd⟩
      cases hd
  switches := by
    intro d t q root ht _ _
    dsimp only [plainFhe]
    rw [List.getElem?_eq_getElem ht]
    exact ⟨_, rfl⟩
  sets := by
    intro np vs hlength
    exact ⟨_, if_pos hlength⟩

/-- It succeeds where it can. -/
theorem plainFhe_reliable : plainFhe.Reliable 4 (· = 17) 4 where
  toLawful := plainFhe_lawful
  contexts := by
    intro front rest _ hlength
    -- The depth asked for is one less than the number of moduli.
    refine ⟨_, rfl, ?_⟩
    rw [List.length_cons] at hlength
    rw [List.length_replicate, List.length_cons]
    change rest.length + 1 ≤ (UInt32.ofNat rest.length).toNat + 1
    rw [UInt32.toNat_ofNat', Nat.mod_eq_of_lt (by omega)]
  drops := (plainFhe_serves 0).drops
  roots := by
    intro q hq
    subst hq
    exact ⟨2, by decide⟩
  switches := fun d t q root ht _ => (plainFhe_serves _).switches d t q root ht trivial
  sets := (plainFhe_serves 0).sets

end Bridge

end Haze
