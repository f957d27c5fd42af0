import Haze.Core.Types
import Haze.Lib.Expected
import Haze.Lib.Limbs
import Haze.Lib.UnorderedMap
import Mathlib.Data.Finset.Basic

/-!
# The device allocator

`DeviceAllocator` of `core/allocator.cpp`: a set of live addresses, a sparse map from addresses to
the words that they hold, a stack of freed addresses and a bump pointer. Sizes and addresses are
64-bit words and wrap as the source's do. A size check that fails, an address that is not live and
an address without words are the errors of the source.

The set of host pointers is left out: only the pointer-attribute query reads it.
-/

namespace Haze

/-- The allocator's state. -/
structure DeviceAllocator where
  /-- The live addresses. -/
  allocSet : Finset DevAddr
  /-- The words held by an address, for the addresses that hold any. -/
  shadowData : UMap DevAddr (List UInt64)
  /-- The freed addresses of the current size, the last one first. -/
  poolFree : List DevAddr
  /-- The size of every allocation in bytes; zero before a ring dimension is set. -/
  polyBytes : UInt64
  /-- The next address that was never handed out. -/
  nextAddr : UInt64
deriving DecidableEq

namespace DeviceAllocator

/-- A method of the allocator that may fail. -/
abbrev Method (α : Type) : Type := Expected HazeInternalError DeviceAllocator α

/-- The allocator at start and after `reset`. -/
def init : DeviceAllocator where
  allocSet := ∅
  shadowData := ∅
  poolFree := []
  polyBytes := 0
  nextAddr := kHbmBase

/-- The number of words of one allocation. -/
def wantElems (s : DeviceAllocator) : ℕ := (s.polyBytes / 8).toNat

/-- The words that an address holds, if any. -/
def shadow (s : DeviceAllocator) (addr : DevAddr) : Option (List UInt64) :=
  AList.lookup addr s.shadowData

/-- The words that an address holds, sized to the allocation: an entry that is missing or of
another size becomes zeros. -/
def sizedShadow (s : DeviceAllocator) (addr : DevAddr) : List UInt64 :=
  let shadow := (s.shadow addr).getD []
  if shadow.length ≠ s.wantElems then List.replicate s.wantElems 0 else shadow

/-! ## Allocating and freeing -/

/-- Forget the pooled addresses. -/
def clearPoolLocked (s : DeviceAllocator) : DeviceAllocator :=
  { s with
    allocSet := s.allocSet \ s.poolFree.toFinset
    shadowData := UMap.eraseAll s.poolFree s.shadowData
    poolFree := [] }

/-- Set the size of every allocation. A change of size drains the pool. -/
def setPolynomialSize (bytes : UInt64) (s : DeviceAllocator) : DeviceAllocator :=
  if s.polyBytes ≠ bytes then { s.clearPoolLocked with polyBytes := bytes } else s

/-- Only the configured size may be allocated. -/
def validatePolySizeLocked (bytes : UInt64) (s : DeviceAllocator) : Except HazeInternalError Unit :=
  if s.polyBytes = 0 then .error .notConfigured
  else if bytes ≠ s.polyBytes then .error .allocTooSmall
  else .ok ()

/-- Hand out the last pooled address, or bump the address counter when the pool is empty. -/
def allocateOneLocked : Method DevAddr := fun s =>
  match s.poolFree with
  | addr :: rest =>
    if addr ∈ s.allocSet then (.error .poolMapDesync, { s with poolFree := rest })
    else (.ok addr, { s with poolFree := rest, allocSet := insert addr s.allocSet })
  | [] =>
    (.ok ⟨s.nextAddr⟩,
      { s with
        nextAddr := s.nextAddr + s.polyBytes
        allocSet := insert ⟨s.nextAddr⟩ s.allocSet })

/-- Drop a live address and its words, and pool the address. -/
def freeOneLocked (addr : DevAddr) : Method Unit := fun s =>
  if addr ∈ s.allocSet then
    (.ok (),
      { s with
        allocSet := s.allocSet.erase addr
        shadowData := AList.erase addr s.shadowData
        poolFree := addr :: s.poolFree })
  else (.error .unknownAddress, s)

/-- Allocate one polynomial. -/
def allocate (bytes : UInt64) : Method DevAddr := do
  Expected.query (validatePolySizeLocked bytes)
  allocateOneLocked

/-- Reserve `n` more addresses behind those in `out`. A failure frees the ones in `out` again. -/
def reserve : ℕ → List DevAddr → Method (List DevAddr)
  | 0, out => pure out
  | n + 1, out => do
    match ← Expected.attempt allocateOneLocked with
    | .ok addr => reserve n (out ++ [addr])
    | .error e =>
      Expected.forEach (fun done => do
        let _ ← Expected.attempt (freeOneLocked done)
        pure ()) out
      Expected.fail e

/-- Allocate `count` polynomials, all or none. -/
def allocateMany (count : ℕ) (bytes : UInt64) : Method (List DevAddr) :=
  if count = 0 then pure []
  else do
    Expected.query (validatePolySizeLocked bytes)
    reserve count []

/-- Free one address; freeing the null pointer succeeds and does nothing. -/
def free (addr : DevAddr) : Method Unit :=
  if addr = .null then pure () else freeOneLocked addr

/-- The first error of a sequence of results. -/
def firstError (first next : Except HazeInternalError Unit) : Except HazeInternalError Unit :=
  match first with
  | .ok _ => next
  | .error e => .error e

/-- Free every address that is not null, and return the first error. -/
def freeEach : List DevAddr → Except HazeInternalError Unit → Method Unit
  | [], first => Expected.query fun _ => first
  | addr :: addrs, first =>
    if addr = .null then freeEach addrs first
    else do
      let freed ← Expected.attempt (freeOneLocked addr)
      freeEach addrs (firstError first freed)

/-- Free a list of addresses. -/
def freeMany (addrs : List DevAddr) : Method Unit := freeEach addrs (.ok ())

/-! ## Reading and writing words -/

/-- Overwrite the first bytes of a live address with `src`. -/
def writeShadow (dst : DevAddr) (src : List UInt8) (s : DeviceAllocator) : DeviceAllocator :=
  { s with shadowData := AList.insert dst (Limbs.overwrite src (s.sizedShadow dst)) s.shadowData }

/-- The checks that a bulk operation on the first `count` bytes of an address makes. -/
def checkRange (addr : DevAddr) (count : UInt64) (s : DeviceAllocator) :
    Except HazeInternalError Unit :=
  if addr ∉ s.allocSet then .error .unknownAddress
  else if count > s.polyBytes then .error .allocTooSmall
  else .ok ()

/-- Copy `count` bytes from the host. A source of `none` is the null pointer. -/
def copyH2d (dst : DevAddr) (src : Option (List UInt8)) (count : UInt64) : Method Unit :=
  match src with
  | none => Expected.fail .invalidArgument
  | some bytes => do
    Expected.query (checkRange dst count)
    Expected.modify (writeShadow dst (bytes.takeD count.toNat 0))

/-- Set the first `count` bytes to the low byte of `value`. -/
def memset (addr : DevAddr) (value : ℤ) (count : UInt64) : Method Unit := do
  Expected.query (checkRange addr count)
  Expected.modify (writeShadow addr (List.replicate count.toNat (UInt8.ofInt value)))

/-- The checks that the two component reads share, and the words that they return. -/
def components (addr : DevAddr) (ringDim : UInt64) (s : DeviceAllocator) :
    Except HazeInternalError (List UInt64) :=
  if ringDim = 0 then .error .notConfigured
  else if addr ∉ s.allocSet then .error .unknownAddress
  else if s.polyBytes < ringDim * 8 then .error .allocTooSmall
  else match s.shadow addr with
    | none => .error .noData
    | some values =>
      if values.length ≠ ringDim.toNat then .error .shadowSizeMismatch else .ok values

/-- Take the words of an address out of the allocator. The entry leaves the map before its size is
checked, so a size mismatch drops it too. -/
def extractPolynomialComponents (addr : DevAddr) (ringDim : UInt64) : Method (List UInt64) :=
  fun s =>
    match components addr ringDim s with
    | .ok values => (.ok values, { s with shadowData := AList.erase addr s.shadowData })
    | .error .shadowSizeMismatch =>
      (.error .shadowSizeMismatch, { s with shadowData := AList.erase addr s.shadowData })
    | .error e => (.error e, s)

/-- A copy of the words of an address. -/
def readPolynomialComponents (addr : DevAddr) (ringDim : UInt64) : Method (List UInt64) :=
  Expected.query (components addr ringDim)

/-- Copy the first `count` bytes of an address to the host; `dst` is whether the host pointer is
not null. What the source would read past the end of the words is zero here. -/
def copyToHost (dst : Bool) (src : DevAddr) (count : UInt64) (s : DeviceAllocator) :
    Except HazeInternalError (List UInt8) :=
  if !dst then .error .invalidArgument
  else match checkRange src count s with
    | .error e => .error e
    | .ok () => match s.shadow src with
      | none => .error .outputNotFlushed
      | some values => .ok ((Limbs.bytesOf values).takeD count.toNat 0)

/-- Replace the words of a live address, cut or padded with zeros to the allocation's size. -/
def updateShadow (addr : DevAddr) (values : List UInt64) : Method Unit := fun s =>
  if addr ∈ s.allocSet then
    (.ok (), { s with shadowData := AList.insert addr (values.takeD s.wantElems 0) s.shadowData })
  else (.error .unknownAddress, s)

end DeviceAllocator

end Haze
