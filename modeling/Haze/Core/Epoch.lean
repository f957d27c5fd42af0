import Haze.Core.Types
import Haze.Lib.Expected
import Haze.Lib.UnorderedMap
import Mathlib.Data.Finset.Basic

/-!
# The epoch state

`EpochState` of `core/epoch.cpp`, and its methods that touch nothing else: the bindings of
addresses to polynomials, the output tags, and the registry of multi-residue groups. The methods
that also reach the allocator or the compiler are with the runtime's whole state.

Where the source iterates over the group names of one address, the order is that of the entries: an
address belongs to at most one group.
-/

namespace Haze

/-- A multi-residue group: its addresses in order, and the modulus of each. -/
structure MrpGroup where
  /-- The residues' addresses. -/
  addrs : List DevAddr
  /-- The residues' moduli. -/
  moduli : List UInt64
deriving DecidableEq, Repr

/-- The state of the active epoch. The four counters are `uint64_t` in the source and naturals here:
an epoch starts them at zero, and each name that it issues stays in its maps or in the open recording,
so that a wrap would take `2^64` entries in memory. -/
structure EpochState (P : Type) where
  /-- The polynomial bound to each address. -/
  polyMap : UMap DevAddr P
  /-- The tagged outputs and the name of each. -/
  pendingOutputs : UMap DevAddr ProbeName
  /-- The bound addresses whose polynomial is an input. -/
  inputAddrs : Finset DevAddr
  /-- The modulus last recorded for an address. -/
  addrModulus : UMap DevAddr UInt64
  /-- The registered groups by name. -/
  knownMrpGroups : UMap ProbeName MrpGroup
  /-- The name of the input group that an address leads. -/
  mrpInNames : UMap DevAddr ProbeName
  /-- The name of the output group that an address leads. -/
  mrpOutNames : UMap DevAddr ProbeName
  /-- How many input groups were named. -/
  mrpInNameCounter : ℕ
  /-- How many output groups were named. -/
  mrpOutNameCounter : ℕ
  /-- The names of the tagged groups. -/
  pendingMrpGroups : USet ProbeName
  /-- The names of the groups that an address is in. -/
  addrToMrpGroups : UMap DevAddr (USet ProbeName)
  /-- The names under which an input group was tagged. -/
  mrpInputTaggedNames : Finset ProbeName
  /-- How many inputs were tagged. -/
  inputCounter : ℕ
  /-- How many outputs were tagged. -/
  outputCounter : ℕ
  /-- Whether the compiler is recording. -/
  recording : Bool

namespace EpochState

variable {P : Type}

/-- The state at start and after `clear_state_locked`. -/
def init : EpochState P where
  polyMap := ∅
  pendingOutputs := ∅
  inputAddrs := ∅
  addrModulus := ∅
  knownMrpGroups := ∅
  mrpInNames := ∅
  mrpOutNames := ∅
  mrpInNameCounter := 0
  mrpOutNameCounter := 0
  pendingMrpGroups := ∅
  addrToMrpGroups := ∅
  mrpInputTaggedNames := ∅
  inputCounter := 0
  outputCounter := 0
  recording := false

/-! ## Bindings -/

/-- Bind an address to an input polynomial. -/
def bindInput (addr : DevAddr) (poly : P) (s : EpochState P) : EpochState P :=
  { s with
    inputCounter := s.inputCounter + 1
    polyMap := AList.insert addr poly s.polyMap
    inputAddrs := insert addr s.inputAddrs }

/-- Bind an address to a computed polynomial, and record its modulus unless that is the copy
sentinel. -/
def storeComputeResultLocked (addr : DevAddr) (poly : P) (modulus : UInt64) (s : EpochState P) :
    EpochState P :=
  { s with
    polyMap := AList.insert addr poly s.polyMap
    inputAddrs := s.inputAddrs.erase addr
    addrModulus := if modulus ≠ kCopyModulus then AList.insert addr modulus s.addrModulus
      else AList.erase addr s.addrModulus }

/-- The modulus recorded for an address, or the copy sentinel. -/
def recordedModulusLocked (addr : DevAddr) (s : EpochState P) : UInt64 :=
  (AList.lookup addr s.addrModulus).getD kCopyModulus

/-- Record the modulus of an address. -/
def recordModulus (addr : DevAddr) (modulus : UInt64) (s : EpochState P) : EpochState P :=
  { s with addrModulus := AList.insert addr modulus s.addrModulus }

/-- Drop the output tag of an address. -/
def dropTag (addr : DevAddr) (s : EpochState P) : EpochState P :=
  { s with pendingOutputs := AList.erase addr s.pendingOutputs }

/-! ## Groups -/

/-- Remove a group's name from the index entry of one address, and the entry with its last name. -/
def dropClaim (name : ProbeName) (index : UMap DevAddr (USet ProbeName)) (member : DevAddr) :
    UMap DevAddr (USet ProbeName) :=
  match AList.lookup member index with
  | none => index
  | some names =>
    if AList.erase name names = ∅ then AList.erase member index
    else AList.insert member (AList.erase name names) index

/-- Add a group's name to the index entry of one address. -/
def addClaim (name : ProbeName) (index : UMap DevAddr (USet ProbeName)) (member : DevAddr) :
    UMap DevAddr (USet ProbeName) :=
  AList.insert member (AList.insert name () ((AList.lookup member index).getD ∅)) index

/-- Drop one group from the registry. -/
def evictMrpGroupLocked (s : EpochState P) (name : ProbeName) : EpochState P :=
  match AList.lookup name s.knownMrpGroups with
  | none => s
  | some group =>
    { s with
      addrToMrpGroups := group.addrs.foldl (dropClaim name) s.addrToMrpGroups
      knownMrpGroups := AList.erase name s.knownMrpGroups
      pendingMrpGroups := AList.erase name s.pendingMrpGroups }

/-- Drop the groups that an address is in. -/
def evictGroupsOf (addr : DevAddr) (s : EpochState P) : EpochState P :=
  match AList.lookup addr s.addrToMrpGroups with
  | none => s
  | some names =>
    names.keys.foldl evictMrpGroupLocked
      { s with addrToMrpGroups := AList.erase addr s.addrToMrpGroups }

/-- Drop every trace of an address. -/
def invalidate (addr : DevAddr) (s : EpochState P) : EpochState P :=
  let s := s.evictGroupsOf addr
  { s with
    polyMap := AList.erase addr s.polyMap
    pendingOutputs := AList.erase addr s.pendingOutputs
    addrModulus := AList.erase addr s.addrModulus
    inputAddrs := s.inputAddrs.erase addr
    mrpInNames := AList.erase addr s.mrpInNames
    mrpOutNames := AList.erase addr s.mrpOutNames }

/-- Tag an address as an output unless it is tagged. -/
def tagIfUntagged (s : EpochState P) (addr : DevAddr) : EpochState P :=
  if addr ∈ s.pendingOutputs then s
  else { s with
    pendingOutputs := AList.insert addr (.hazeOut s.outputCounter) s.pendingOutputs
    outputCounter := s.outputCounter + 1 }

/-- Tag every residue of a group, and the group. -/
def tagGroup (s : EpochState P) (name : ProbeName) : EpochState P :=
  match AList.lookup name s.knownMrpGroups with
  | none => s
  | some group =>
    let s := group.addrs.foldl tagIfUntagged s
    { s with pendingMrpGroups := AList.insert name () s.pendingMrpGroups }

/-- Declare a bound address an output, with the whole group that it is in. -/
def tagOutputLocked (addr : DevAddr) : Expected HazeInternalError (EpochState P) Unit := fun s =>
  if addr ∉ s.polyMap then (.error .sourceUnavailable, s)
  else match AList.lookup addr s.addrToMrpGroups with
    | some names => (.ok (), names.keys.foldl tagGroup s)
    | none => (.ok (), s.tagIfUntagged addr)

/-- Drop every group but `name` that claims the address. -/
def evictConflicting (name : ProbeName) (s : EpochState P) (addr : DevAddr) : EpochState P :=
  match AList.lookup addr s.addrToMrpGroups with
  | none => s
  | some names => (names.keys.filter (· ≠ name)).foldl evictMrpGroupLocked s

/-- Enter a group under its name and claim its addresses for it. -/
def claimGroup (group : MrpGroup) (name : ProbeName) (s : EpochState P) : EpochState P :=
  { s with
    knownMrpGroups := AList.insert name group s.knownMrpGroups
    addrToMrpGroups := group.addrs.foldl (addClaim name) s.addrToMrpGroups }

/-- Withdraw the claims of the group's previous shape. -/
def withdrawClaims (group : MrpGroup) (name : ProbeName) (s : EpochState P) : EpochState P :=
  { s with addrToMrpGroups := group.addrs.foldl (dropClaim name) s.addrToMrpGroups }

/-- Register a group under a name; the latest registration wins. -/
def registerMrpOutputGroupLocked (addrs : List DevAddr) (moduli : List UInt64) (name : ProbeName) :
    Expected HazeInternalError (EpochState P) Unit := fun s =>
  if addrs.length ≠ moduli.length then (.error .mrpGroupAddrModuliMismatch, s)
  else
    let group : MrpGroup := ⟨addrs, moduli⟩
    match AList.lookup name s.knownMrpGroups with
    | some existing =>
      if existing = group then (.ok (), s)
      else
        let s := addrs.foldl (evictConflicting name) s
        let s := (s.withdrawClaims existing name).claimGroup group name
        (.ok (), if name ∈ s.pendingMrpGroups then addrs.foldl tagIfUntagged s else s)
    | none =>
      let s := addrs.foldl (evictConflicting name) s
      (.ok (), s.claimGroup group name)

/-- The name of the input or output group that an address leads, assigned at the first use. -/
def mrpGroupNameLocked (output : Bool) (leading : DevAddr) :
    Expected HazeInternalError (EpochState P) ProbeName := fun s =>
  if output then
    match AList.lookup leading s.mrpOutNames with
    | some name => (.ok name, s)
    | none =>
      (.ok (.hazeMrpOut s.mrpOutNameCounter),
        { s with
          mrpOutNames := AList.insert leading (.hazeMrpOut s.mrpOutNameCounter) s.mrpOutNames
          mrpOutNameCounter := s.mrpOutNameCounter + 1 })
  else
    match AList.lookup leading s.mrpInNames with
    | some name => (.ok name, s)
    | none =>
      (.ok (.hazeMrpIn s.mrpInNameCounter),
        { s with
          mrpInNames := AList.insert leading (.hazeMrpIn s.mrpInNameCounter) s.mrpInNames
          mrpInNameCounter := s.mrpInNameCounter + 1 })

end EpochState

end Haze
