import Haze.Allocation.Arithmetic
import Haze.Allocation.Batches
import Haze.Allocation.Disjoint
import Haze.Allocation.HighWater
import Haze.Allocation.Operations
import Haze.Allocation.Reads
import Haze.Allocation.Sizes
import Haze.Bridge.Results
import Haze.Bridge.Install
import Haze.Bridge.Fitting
import Haze.Runtime.Liveness
import Haze.Runtime.Names
import Haze.Runtime.HookFailure
import Haze.Runtime.Recording
import Haze.Runtime.Registry
import Haze.Runtime.Residues
import Haze.Runtime.Parameters
import Haze.Runtime.LastError
import Haze.Runtime.Readback
import Haze.Runtime.Session
import Haze.Runtime.Locks
import Haze.Runtime.Dimension
import Haze.Runtime.Observers
import Haze.Runtime.Trace
import Haze.Runtime.Layout
import Haze.Runtime.Outputs
import Haze.Runtime.LastWrite
import Haze.Runtime.Survival
import Haze.Runtime.Transfers
import Haze.Runtime.Eager
import Haze.Runtime.Exports
import Haze.Runtime.Linearization
import Haze.Runtime.Finalizations
import Haze.Runtime.Documents
import Haze.Runtime.Pointers
import Haze.Bridge.Outputs
