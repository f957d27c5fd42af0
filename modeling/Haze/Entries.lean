import Haze.Api

/-!
# The other entries of the C interface

The entries that reach none of the state of `World`: host memory, pointer attributes, streams,
events, devices and graphs, and the one that reads the last error. Of each the reply is modelled. An
out pointer is whether it is not null, and `allocated` is whether the host has memory for what an
entry creates. The entries with flags or a priority forward to those without.
-/

namespace Haze

/-! ## Host memory -/

def hazeHostAlloc (ptr : Bool) (size : UInt64) (allocated : Bool) : Reply :=
  if !ptr || size == 0 then .setError .invalidValue
  else if !allocated then .setError .outOfMemory
  else .success

def hazeFreeHost : Reply := .success

def hazePointerGetAttributes (attrs : Bool) : Reply :=
  .setError (if attrs then .success else .invalidValue)

def hazeMemcpyPeerAsync : Reply := .setError .notSupported

/-! ## Streams and events -/

/-- Create a stream or an event. -/
def create (out allocated : Bool) : Reply :=
  if !out then .setError .invalidValue
  else if !allocated then .setError .outOfMemory
  else .success

def hazeStreamCreate (stream allocated : Bool) : Reply := create stream allocated
def hazeStreamDestroy : Reply := .success
def hazeStreamSynchronize : Reply := .success
def hazeStreamWaitEvent : Reply := .success
def hazeEventCreate (event allocated : Bool) : Reply := create event allocated
def hazeEventDestroy : Reply := .success
def hazeEventRecord : Reply := .success

/-! ## Devices -/

def hazeGetDeviceCount (count : Bool) : Reply :=
  if !count then .setError .invalidValue else .success

def hazeSetDevice (device : ℤ) : Reply :=
  .setError (if device ≠ 0 then .invalidValue else .success)

def hazeGetDevice (device : Bool) : Reply := if !device then .setError .invalidValue else .success

def hazeGetDeviceProperties (prop : Bool) (device : ℤ) : Reply :=
  .setError (if !prop then .invalidValue else if device ≠ 0 then .invalidValue else .success)

def hazeDeviceSynchronize : Reply := .success
def hazeDeviceEnablePeerAccess : Reply := .setError .notSupported
def hazeDeviceCanAccessPeer : Reply := .setError .notSupported
def hazeGetPerformanceCounters : Reply := .success

/-! ## Graphs -/

def hazeStreamBeginCapture : Reply := .setError .notSupported
def hazeStreamEndCapture : Reply := .setError .notSupported
def hazeGraphInstantiate : Reply := .setError .notSupported
def hazeGraphLaunch : Reply := .setError .notSupported
def hazeGraphExecUpdate : Reply := .setError .notSupported
def hazeGraphExecDestroy : Reply := .setError .notSupported
def hazeGraphDestroy : Reply := .setError .notSupported

/-! ## The last error -/

/-- Read the last error and reset it. -/
def hazeGetLastError (lastError : HazeError) : Reply :=
  { code := lastError, lastError := some .success }

/-- A call of one of these entries, the last one apart. -/
inductive OtherCall where
  | hostAlloc (ptr : Bool) (size : UInt64)
  | freeHost
  | pointerGetAttributes (attrs : Bool)
  | memcpyPeerAsync
  | streamCreate (stream : Bool)
  | streamDestroy
  | streamSynchronize
  | streamWaitEvent
  | eventCreate (event : Bool)
  | eventDestroy
  | eventRecord
  | getDeviceCount (count : Bool)
  | setDevice (device : ℤ)
  | getDevice (device : Bool)
  | getDeviceProperties (prop : Bool) (device : ℤ)
  | deviceSynchronize
  | deviceEnablePeerAccess
  | deviceCanAccessPeer
  | getPerformanceCounters
  | streamBeginCapture
  | streamEndCapture
  | graphInstantiate
  | graphLaunch
  | graphExecUpdate
  | graphExecDestroy
  | graphDestroy
deriving DecidableEq, Repr

/-- The reply to a call. -/
def OtherCall.reply (allocated : Bool) : OtherCall → Reply
  | .hostAlloc ptr size => hazeHostAlloc ptr size allocated
  | .freeHost => hazeFreeHost
  | .pointerGetAttributes attrs => hazePointerGetAttributes attrs
  | .memcpyPeerAsync => hazeMemcpyPeerAsync
  | .streamCreate stream => hazeStreamCreate stream allocated
  | .streamDestroy => hazeStreamDestroy
  | .streamSynchronize => hazeStreamSynchronize
  | .streamWaitEvent => hazeStreamWaitEvent
  | .eventCreate event => hazeEventCreate event allocated
  | .eventDestroy => hazeEventDestroy
  | .eventRecord => hazeEventRecord
  | .getDeviceCount count => hazeGetDeviceCount count
  | .setDevice device => hazeSetDevice device
  | .getDevice device => hazeGetDevice device
  | .getDeviceProperties prop device => hazeGetDeviceProperties prop device
  | .deviceSynchronize => hazeDeviceSynchronize
  | .deviceEnablePeerAccess => hazeDeviceEnablePeerAccess
  | .deviceCanAccessPeer => hazeDeviceCanAccessPeer
  | .getPerformanceCounters => hazeGetPerformanceCounters
  | .streamBeginCapture => hazeStreamBeginCapture
  | .streamEndCapture => hazeStreamEndCapture
  | .graphInstantiate => hazeGraphInstantiate
  | .graphLaunch => hazeGraphLaunch
  | .graphExecUpdate => hazeGraphExecUpdate
  | .graphExecDestroy => hazeGraphExecDestroy
  | .graphDestroy => hazeGraphDestroy

end Haze
