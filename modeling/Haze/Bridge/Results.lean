import Haze.Bridge.Faithful

/-!
# Reading the results

The `result` overloads of `replay_bridge/src/openfhe_template.cpp` read the ciphertext that the
replay driver serialized for a probe, as one polynomial, as a multi-residue polynomial or as an array
of these. The driver fills the template that the hook wrote for the output (`ProbeOf`).
`result_roundTrip` follows a captured output through both: the overloads return the values that the
driver filled in, under the captured moduli and in the captured geometry.
-/

namespace Haze

namespace Bridge

/-- The formats of a tower, in OpenFHE. -/
inductive OpenFheFormat where
  | evaluation
  | coefficient
deriving DecidableEq, Repr

/-- The formats of a polynomial, in the trace library. -/
inductive FhetchFormat where
  | coefficient
  | evaluation
deriving DecidableEq, Repr

/-- The format of a tower in the trace library. -/
def openfheToFhetchFormat (fmt : OpenFheFormat) : FhetchFormat :=
  if fmt = .coefficient then .coefficient else .evaluation

/-- A tower as it is read from a file, with its format. -/
structure ProbeTower extends NativePoly where
  format : OpenFheFormat
deriving DecidableEq, Repr

/-- A ciphertext as it is read from a file: the towers of its elements. -/
abbrev Probe : Type := List (List ProbeTower)

/-- The trace library's constructors of polynomials and of multi-residue polynomials. -/
structure FhetchData (P M : Type) where
  fromData : List UInt64 → ℕ → FhetchFormat → P
  fromPairs : List (P × UInt64) → M

section

variable {P M : Type} (F : FhetchData P M) (probes : String → Option Probe)

/-- The polynomial of a tower. -/
def ProbeTower.poly (np : ProbeTower) : P :=
  F.fromData np.values np.values.length (openfheToFhetchFormat np.format)

/-- The polynomials of an element's towers with their moduli. -/
def elementPairs (towers : List ProbeTower) : List (P × UInt64) :=
  towers.map fun np => (np.poly F, np.params.modulus)

/-- The first tower of the first element. A probe is `none` where its file is not there or cannot be
deserialized. -/
def resultPolynomial (name : String) : Option P :=
  match probes name with
  | none => none
  | some [] => none
  | some ([] :: _) => none
  | some ((np :: _) :: _) => some (np.poly F)

/-- All towers of the first element. -/
def resultMrp (name : String) : Option M :=
  match probes name with
  | none => none
  | some [] => none
  | some ([] :: _) => none
  | some ((np :: nps) :: _) => some (F.fromPairs (elementPairs F (np :: nps)))

/-- All towers of all elements. There may be none of either. -/
def resultMrpArray (name : String) : Option (List M) :=
  match probes name with
  | none => none
  | some elements => some (elements.map fun towers => F.fromPairs (elementPairs F towers))

end

/-- The driver's probe of an output: the towers of the template, with values filled in. -/
structure ProbeOf (ct : Ciphertext) (values : List (List UInt64)) (probe : Probe) : Prop where
  params : probe.map (List.map fun np => np.params) = ct.elements.map (List.map fun np => np.params)
  values : probe.flatten.map (fun np => np.values) = values

/-! ## The overloads together -/

section

variable {P M : Type} (F : FhetchData P M) {probes : String → Option Probe} {name : String}
  {probe : Probe}

/-- The three overloads read the same pairs. -/
theorem results_of_probe (h : probes name = some probe) :
    resultMrpArray F probes name = some ((probe.map (elementPairs F)).map F.fromPairs) ∧
    resultMrp F probes name =
      ((probe.map (elementPairs F)).head?.filter (· ≠ [])).map F.fromPairs ∧
    resultPolynomial F probes name =
      ((probe.map (elementPairs F)).head?.bind List.head?).map Prod.fst := by
  unfold resultMrpArray resultMrp resultPolynomial
  rw [h, List.map_map]
  rcases probe with _ | ⟨_ | ⟨np, nps⟩, rest⟩
  · exact ⟨rfl, rfl, rfl⟩
  · exact ⟨rfl, rfl, rfl⟩
  · exact ⟨rfl, rfl, rfl⟩

/-- The pairs of the elements are the towers with their moduli, in order. -/
theorem flatten_elementPairs :
    (probe.map (elementPairs F)).flatten =
      probe.flatten.map fun np => (np.poly F, np.params.modulus) :=
  (List.map_flatten ..).symm

end

/-- What a captured output is read back as: with the elements and towers of the shape, the known
moduli, and the values that were filled in. -/
structure RowsOf {P M : Type} (F : FhetchData P M) (shape : CapturedShape)
    (values : List (List UInt64)) (rows : List (List (P × UInt64))) : Prop where
  sizes : rows.map List.length = shape.towers.map List.length
  moduli : List.Forall₂ (fun q pair => isReal q = true → pair.2 = q) shape.towers.flatten rows.flatten
  values : List.Forall₂ (fun v pair => ∃ fmt, pair.1 = F.fromData v v.length fmt) values rows.flatten

/-- A probe of a template that holds a shape. -/
theorem ProbeOf.rowsOf {P M : Type} (F : FhetchData P M) {n : ℕ} {shape : CapturedShape}
    {ct : Ciphertext} {values : List (List UInt64)} {probe : Probe}
    (hholds : ct.Holds n shape.towers []) (h : ProbeOf ct values probe) :
    RowsOf F shape values (probe.map (elementPairs F)) where
  sizes := by
    have hlength : probe.map List.length = ct.elements.map List.length := by
      simpa [Function.comp_def] using congrArg (List.map List.length) h.params
    -- A probe has as many towers in each element as the ciphertext.
    rw [← hholds.sizes, ← hlength, List.map_map]
    exact List.map_congr_left fun towers _ => List.length_map _
  moduli := by
    have hparams : probe.flatten.map (fun np => np.params) = ct.towers.map fun np => np.params := by
      rw [List.map_flatten, h.params, ← List.map_flatten]
      -- Its moduli are those that were installed.
      rfl
    have hinstalled : List.Forall₂ (fun q (p : NativeParams) => isReal q = true → p.modulus = q)
        shape.towers.flatten (probe.flatten.map fun np => np.params) := by
      rw [hparams, List.forall₂_map_right_iff]
      exact hholds.towers.installed
    rw [flatten_elementPairs, List.forall₂_map_right_iff]
    rwa [List.forall₂_map_right_iff] at hinstalled
  values := by
    rw [flatten_elementPairs, ← h.values, List.forall₂_map_left_iff, List.forall₂_map_right_iff,
      List.forall₂_same]
    exact fun np _ => ⟨_, rfl⟩

/-- The file of a record among those that were written for some records. -/
theorem file_of_mem {R : CapturedRecord → Ciphertext → Prop} {rs : List CapturedRecord}
    {cts : List Ciphertext} (h : List.Forall₂ R rs cts) {r : CapturedRecord} (hr : r ∈ rs) :
    ∃ ct, R r ct ∧ r.file ct ∈ List.zipWith CapturedRecord.file rs cts := by
  induction h with
  | nil => exact absurd hr List.not_mem_nil
  | @cons r' ct rs cts hct _ ih =>
    rcases List.mem_cons.mp hr with rfl | hr
    · exact ⟨ct, hct, List.mem_cons_self ..⟩
    · obtain ⟨ct', hct', hfile⟩ := ih hr
      exact ⟨ct', hct', List.mem_cons_of_mem _ hfile⟩

section

variable {P M : Type} {O : OpenFhe} {W : Writers} {hctx : HookCtx}

/-- A run of the hook that completes with the flag clear has written a template for every output. -/
theorem template_written (hO : O.Lawful) (hinstalled : hctx.Installed O)
    {inputs : List CapturedInputRecord} {outputs : List (String × CapturedShape)}
    {s s' : HookState} (hrun : onPostRecording O W hctx inputs outputs s = (.ok (), s'))
    (hflag : s'.hadError = false) {name : String} {shape : CapturedShape}
    (houtput : (name, shape) ∈ outputs) :
    ∃ ct, BridgeFile.template name ct ∈ s'.files ∧ ct.Holds hctx.towerDim shape.towers [] := by
  obtain ⟨cts, hfiles, hwritten⟩ := onPostRecording_written hO hinstalled hrun hflag
  have hmem : (.inr (name, shape) : CapturedRecord) ∈ unpassed inputs outputs :=
    List.mem_filter.mpr
      ⟨List.mem_append_right _ (List.mem_map_of_mem houtput), rfl⟩
  obtain ⟨ct, ⟨-, hholds⟩, hfile⟩ := file_of_mem hwritten hmem
  refine ⟨ct, ?_, hholds⟩
  rw [hfiles]
  exact List.mem_append_right _ hfile

/-- An output goes round: a run of the hook that completes with the flag clear has written a template
for it, and whatever values the driver fills into that template for its probe, the overloads return
these values in their order, under the captured moduli and grouped as the captured elements. The
multi-residue overload returns the first element, and the other one its first tower. -/
theorem result_roundTrip (F : FhetchData P M) (hO : O.Lawful) (hinstalled : hctx.Installed O)
    {inputs : List CapturedInputRecord} {outputs : List (String × CapturedShape)}
    {s s' : HookState} (hrun : onPostRecording O W hctx inputs outputs s = (.ok (), s'))
    (hflag : s'.hadError = false) {name : String} {shape : CapturedShape}
    (houtput : (name, shape) ∈ outputs) :
    ∃ ct, BridgeFile.template name ct ∈ s'.files ∧
      ∀ (probes : String → Option Probe) (probe : Probe) (values : List (List UInt64)),
        probes name = some probe → ProbeOf ct values probe →
          ∃ rows, RowsOf F shape values rows ∧
            resultMrpArray F probes name = some (rows.map F.fromPairs) ∧
            resultMrp F probes name = (rows.head?.filter (· ≠ [])).map F.fromPairs ∧
            resultPolynomial F probes name = (rows.head?.bind List.head?).map Prod.fst := by
  obtain ⟨ct, hfile, hholds⟩ := template_written hO hinstalled hrun hflag houtput
  exact ⟨ct, hfile, fun probes probe values hprobe hof =>
    ⟨_, hof.rowsOf F hholds, results_of_probe F hprobe⟩⟩

end

/-- The data that polynomials are made of, in the place of polynomials. -/
def plainData : FhetchData (List UInt64) (List (List UInt64 × UInt64)) :=
  ⟨fun values _ _ => values, id⟩

/-- An array of two elements. -/
theorem result_roundTrip_example :
    ∃ ct, BridgeFile.template "z" ct ∈ (onPostRecording plainFhe plainWriters fourDim []
        [("z", ⟨.mrpArray, [[17, 17], [17, 17]]⟩)] .empty).2.files ∧
      ∀ (probes : String → Option Probe) (probe : Probe) (values : List (List UInt64)),
        probes "z" = some probe → ProbeOf ct values probe →
          ∃ rows, RowsOf plainData ⟨.mrpArray, [[17, 17], [17, 17]]⟩ values rows ∧
            resultMrpArray plainData probes "z" = some (rows.map plainData.fromPairs) ∧
            resultMrp plainData probes "z" =
              (rows.head?.filter (· ≠ [])).map plainData.fromPairs ∧
            resultPolynomial plainData probes "z" = (rows.head?.bind List.head?).map Prod.fst :=
  result_roundTrip (s := .empty) plainData plainFhe_lawful fourDim_installed (Prod.ext rfl rfl) rfl
    (List.mem_cons_self ..)

end Bridge

end Haze
