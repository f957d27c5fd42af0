import Haze.Core.Types
import Haze.Lib.Expected

/-!
# The configuration

`Config` of `core/config.cpp`: the ring dimension, the modulus and twiddle tables, and what the
compiler is told when it is initialized. `set_ring_dimension` also changes the allocator and is
defined with the runtime's whole state.
-/

namespace Haze

/-- The configuration's state. A text that was never set is `none`. -/
structure Config where
  /-- The ring dimension; zero before it is set. -/
  ringDim : UInt64
  /-- The ciphertext moduli. -/
  moduli : List UInt64
  /-- The twiddle generators. -/
  twiddleGenerators : List UInt64
  /-- Whether `configure_device` froze the parameters. -/
  configured : Bool
  /-- The name, version and description of the program. -/
  programInfo : Option (String × String × String)
  /-- The replay target. -/
  targetSet : Option String
  /-- The output directory. -/
  programDir : Option String
  /-- Montgomery form. -/
  montgomery : Bool
  /-- Bit-reversed order. -/
  bitReversal : Bool
  /-- The centered variant of fast base conversion. -/
  reducedNoise : Bool
deriving DecidableEq

namespace Config

/-- A method of the configuration that may fail. -/
abbrev Method (α : Type) : Type := Expected HazeInternalError Config α

/-- The configuration at start and after `reset`. -/
def init : Config where
  ringDim := 0
  moduli := []
  twiddleGenerators := []
  configured := false
  programInfo := none
  targetSet := none
  programDir := none
  montgomery := false
  bitReversal := false
  reducedNoise := false

/-- The ring dimensions that are accepted: the powers of two. -/
def isSupportedRingDim (n : UInt64) : Bool := n != 0 && n &&& (n - 1) == 0

/-- The replay target, the local one unless another is set. -/
def target (c : Config) : String := c.targetSet.getD kLocalTarget

/-- The program's name, version and description. -/
def program (c : Config) : String × String × String :=
  c.programInfo.getD ("haze", "0.1", "HAZE runtime")

/-- The modulus at an index, and zero where there is none. -/
def modulus (idx : ℤ) (c : Config) : UInt64 := if idx < 0 then 0 else c.moduli.getD idx.toNat 0

/-- Set the modulus at an index. The table is filled without gaps, and is frozen once the device is
configured. -/
def setModulus (idx : ℤ) (modulus : UInt64) : Method Unit := fun c =>
  if idx < 0 then (.error .invalidArgument, c)
  else if modulus = 0 then (.error .invalidArgument, c)
  else if c.configured then
    if c.moduli[idx.toNat]? = some modulus then (.ok (), c) else (.error .notConfigured, c)
  else if c.moduli.length < idx.toNat then (.error .invalidArgument, c)
  else if c.moduli.length = idx.toNat then (.ok (), { c with moduli := c.moduli ++ [modulus] })
  else (.ok (), { c with moduli := c.moduli.set idx.toNat modulus })

/-- Set the twiddle generator at an index; a gap is filled with zeros. -/
def setTwiddleGenerator (idx : ℤ) (generator : UInt64) : Method Unit := fun c =>
  if idx < 0 then (.error .invalidArgument, c)
  else if c.configured then
    if c.twiddleGenerators[idx.toNat]? = some generator then (.ok (), c)
    else (.error .notConfigured, c)
  else
    let table := if c.twiddleGenerators.length ≤ idx.toNat
      then c.twiddleGenerators.takeD (idx.toNat + 1) 0 else c.twiddleGenerators
    (.ok (), { c with twiddleGenerators := table.set idx.toNat generator })

/-- Freeze the parameters. -/
def configureDevice : Method Unit := fun c =>
  if c.ringDim = 0 then (.error .notConfigured, c) else (.ok (), { c with configured := true })

/-- Set the program's name, version and description; `none` is a null pointer. -/
def setProgramInfo (name version description : Option String) : Method Unit := fun c =>
  match name, version, description with
  | some name, some version, some description =>
    (.ok (), { c with programInfo := some (name, version, description) })
  | _, _, _ => (.error .invalidArgument, c)

/-- Set the replay target. -/
def setTarget (target : Option String) : Method Unit := fun c =>
  match target with
  | some target => (.ok (), { c with targetSet := some target })
  | none => (.error .invalidArgument, c)

/-- Set the output directory. -/
def setProgramDirectory (dir : Option String) : Method Unit := fun c =>
  match dir with
  | some dir => (.ok (), { c with programDir := some dir })
  | none => (.error .invalidArgument, c)

/-- The local target runs traces in ordinary form only. -/
def unsupportedDataFormat (c : Config) : Bool :=
  (c.montgomery || c.bitReversal) && c.target == kLocalTarget

end Config

end Haze
