import Haze.Bridge.Install
import Haze.Bridge.Results
import Haze.Runtime.Dimension
import Haze.Runtime.Documents
import Haze.Runtime.Names

/-!
# From the driver's probes to the program

Between the values that the replay driver fills in and the words that a program reads stand the
templates of the hook, the `result` overload, the document of its polynomial and the runtime's own
read back. `flush_probes` follows an output through all of them, in every run of a process in which
a hook is installed: it says when a flush succeeds, in terms of what the driver left behind, and that
the program then gets the values of the first tower.
-/

namespace Haze

namespace Bridge

/-- The tower that is read as a polynomial. -/
def Probe.firstTower (probe : Probe) : Option ProbeTower := probe.head?.bind List.head?

/-- What the runtime and the libraries hand each other during a flush: the captured records, the
driver's probes, the documents of polynomials and the conversion of their elements. -/
structure Exchange (P N : Type) where
  inputs : List CapturedInputRecord
  outputs : List (String × CapturedShape)
  probes : String → Option Probe
  docs : P → ProbeName → Option (Json N)
  toWord : Json N → Option UInt64

section

variable {P M N : Type}

/-- The replies to a flush: the hook runs on the captured records, the probes are read as polynomials
and these from their documents. -/
def Exchange.replies (x : Exchange P N) (D : FhetchData P M) (O : OpenFhe) (W : Writers)
    (p : Process P M) (env : CompilerReplies P) : CompilerReplies P :=
  { env.ofDocuments x.toWord x.docs with
    hookFails := p.hookFails O W x.inputs x.outputs
    result := fun _ name => resultPolynomial D x.probes name.text }

/-- Every polynomial is saved, and its document reads as its values. -/
def Exchange.Saves (x : Exchange P N) (D : FhetchData P M) : Prop :=
  ∀ values fmt tag, ∃ doc, x.docs (D.fromData values values.length fmt) tag = some doc ∧
    ReadsAs x.toWord doc values

/-- The polynomial of a result is the first tower of its probe. -/
theorem resultPolynomial_eq (D : FhetchData P M) (probes : String → Option Probe) (name : String) :
    resultPolynomial D probes name =
      ((probes name).bind Probe.firstTower).map (ProbeTower.poly D) := by
  unfold resultPolynomial
  rcases probes name with _ | _ | ⟨_ | ⟨np, nps⟩, rest⟩ <;> rfl

/-- The first tower of a probe comes before its other towers. -/
theorem Probe.firstTower_eq_some {probe : Probe} {np : ProbeTower}
    (h : probe.firstTower = some np) : ∃ rest, probe.flatten = np :: rest := by
  rcases probe with _ | ⟨_ | ⟨np', nps⟩, rest⟩
  · cases h
  · cases h
  · cases h
    exact ⟨_, rfl⟩

/-- What is read back for an output is what its probe's first tower holds. -/
theorem decoded_replies {x : Exchange P N} {D : FhetchData P M} (hsaves : x.Saves D) (O : OpenFhe)
    (W : Writers) (p : Process P M) (env : CompilerReplies P) (outs : List (ProbeName × P))
    (a : DevAddr) (name : ProbeName) (values : List UInt64) :
    World.decoded (x.replies D O W p env) outs ⟨a, name⟩ = some values ↔
      ∃ probe np, x.probes name.text = some probe ∧ probe.firstTower = some np ∧
        np.values ≠ [] ∧ np.values = values := by
  have hextract : ∀ np : ProbeTower,
      (env.ofDocuments x.toWord x.docs).extractPolynomialValues (np.poly D) name = some values ↔
        np.values ≠ [] ∧ np.values = values := by
    intro np
    obtain ⟨doc, hdoc, hreads⟩ := hsaves np.values (openfheToFhetchFormat np.format) name
    have hpoly : x.docs (np.poly D) name = some doc := hdoc
    rw [extract_ofDocuments, hpoly]
    constructor
    · rintro ⟨hne, _, ⟨⟩, hreads'⟩
      -- A document reads as one list only.
      have hsame : np.values = values := Option.some.inj <|
        (documentValues_eq_some_iff.mpr hreads).symm.trans (documentValues_eq_some_iff.mpr hreads')
      exact ⟨hsame ▸ hne, hsame⟩
    · rintro ⟨hne, rfl⟩
      exact ⟨hne, doc, rfl, hreads⟩
  unfold World.decoded
  change (resultPolynomial D x.probes name.text).bind
    (fun poly => (env.ofDocuments x.toWord x.docs).extractPolynomialValues poly name) = some values ↔ _
  rw [resultPolynomial_eq, Option.bind_eq_some_iff]
  simp only [Option.map_eq_some_iff, Option.bind_eq_some_iff]
  constructor
  · rintro ⟨_, ⟨np, ⟨probe, hprobe, hfirst⟩, rfl⟩, hvalues⟩
    exact ⟨probe, np, hprobe, hfirst, (hextract np).mp hvalues⟩
  · rintro ⟨probe, np, hprobe, hfirst, hvalues⟩
    exact ⟨_, ⟨np, ⟨probe, hprobe, hfirst⟩, rfl⟩, (hextract np).mpr hvalues⟩

/-- A flush in which a hook is installed and no captured record leads outside a vector. It succeeds
if and only if the trace is written, no failure of the hook was left over or comes up, the replay
succeeds, and for every output, whose address is live, the driver has left values in the first tower
of a probe. If it succeeds, the hook has written a template for every captured output, and where the
driver fills values into this template the address holds the first list of them, cut or padded with
zeros to the size of an allocation. -/
theorem flush_probes (F : Fhetch P M) {D : FhetchData P M} {O : OpenFhe} (hO : O.Lawful)
    (W : Writers) {x : Exchange P N} (hsaves : x.Saves D)
    (hdefined : ∀ r ∈ captured x.inputs x.outputs, ¬ r.Undefined) (env : CompilerReplies P)
    (steps : List (Step P)) {hctx : HookCtx} :
    let p := Process.init.runAll F O steps
    let s := (onPostRecording O W hctx x.inputs x.outputs .empty).2
    let r := hazeFlush F (x.replies D O W p env) p.world
    p.hook = some hctx → p.world.config.unsupportedDataFormat = false → p.world.RecordingTagged →
    (r.1.code = .success ↔ env.stopSucceeds = true ∧
      (p.world.hookHadError = false ∧ s.hadError = false) ∧ env.replaySucceeds = true ∧
        ∀ a name, AList.lookup a p.world.epoch.pendingOutputs = some name →
          a ∈ p.world.allocator.allocSet ∧ ∃ probe np, x.probes name.text = some probe ∧
            probe.firstTower = some np ∧ np.values ≠ []) ∧
    (r.1.code = .success → ∀ a name shape,
      AList.lookup a p.world.epoch.pendingOutputs = some name →
      (name.text, shape) ∈ x.outputs →
        ∃ ct, BridgeFile.template name.text ct ∈ s.files ∧
          ct.Holds hctx.towerDim shape.towers [] ∧
          ∀ v vs, (∀ probe, x.probes name.text = some probe → ProbeOf ct (v :: vs) probe) →
            r.2.shadow a = some (v.takeD p.world.allocator.wantElems 0)) := by
  intro p s r hhook hformat htagged
  have hp : p.Inv O := (process_inv_init O).runAll steps
  obtain ⟨hsuccess, hwords, -⟩ := @flush_outputs P M F (x.replies D O W p env) p.world hp.world
    hp.captured hformat htagged
  simp only [decoded_replies hsaves] at hsuccess hwords
  have hfails : (p.world.hookHadError || (x.replies D O W p env).hookFails) = false ↔
      p.world.hookHadError = false ∧ s.hadError = false := by
    have hflag : (x.replies D O W p env).hookFails = s.hadError := by
      change p.hookFails O W x.inputs x.outputs = _
      unfold Process.hookFails
      rw [hhook]
    rw [hflag, Bool.or_eq_false_iff]
  rw [hfails] at hsuccess
  refine ⟨hsuccess.trans (and_congr_right fun _ => and_congr_right fun _ => and_congr_right fun _ =>
    forall_congr' fun a => forall_congr' fun name => imp_congr_right fun _ =>
      and_congr_right fun _ => ?_), fun hr a name shape ha houtput => ?_⟩
  · constructor
    · rintro ⟨_, probe, np, hprobe, hfirst, hne, -⟩
      exact ⟨probe, np, hprobe, hfirst, hne⟩
    · rintro ⟨probe, np, hprobe, hfirst, hne⟩
      exact ⟨_, probe, np, hprobe, hfirst, hne, rfl⟩
  · obtain ⟨-, ⟨-, hflag⟩, -, houtputs⟩ := hsuccess.mp hr
    obtain ⟨-, values, probe, np, hprobe, hfirst, hne, hvalues⟩ := houtputs a name ha
    have hok := (onPostRecording_marks O W hctx
      (fun r hr => (alone_ok_iff hO (hp.hook hctx hhook) r).mpr (hdefined r hr)) .empty).1
    obtain ⟨ct, hfile, hholds⟩ :=
      template_written (W := W) hO (hp.hook hctx hhook) (Prod.ext hok rfl) hflag houtput
    refine ⟨ct, hfile, hholds, fun v vs hfilled => ?_⟩
    -- The first tower of the probe is the first one that was filled in.
    obtain ⟨rest, hflatten⟩ := Probe.firstTower_eq_some hfirst
    have hv : np.values = v := by
      have hmap := (hfilled probe hprobe).values
      rw [hflatten, List.map_cons] at hmap
      exact (List.cons.inj hmap).1
    exact hwords hr a name v ha ⟨probe, np, hprobe, hfirst, hne, hv⟩

end

/-- The data of polynomials that are their values. -/
def vectorData : FhetchData (List UInt64) (UInt64 × List (List UInt64 × UInt64)) :=
  ⟨fun values _ _ => values, vectorRing.fromPairs⟩

/-- One output, for which the driver leaves the value 5. -/
def oneOutput : Exchange (List UInt64) UInt64 where
  inputs := []
  outputs := [("haze_out_0", ⟨.srp, [[17]]⟩)]
  probes name := if name = "haze_out_0" then some [[⟨⟨⟨1, 17⟩, [5]⟩, .evaluation⟩]] else none
  docs values _ := some (.object [("values", .array (values.map .number))])
  toWord := numberWord

/-- A polynomial is saved to a document with its values. -/
theorem oneOutput_saves : oneOutput.Saves vectorData := by
  intro values fmt tag
  refine ⟨_, rfl, documentValues_eq_some_iff.mp ?_⟩
  change (values.map Json.number).mapM numberWord = some values
  induction values with
  | nil => rfl
  | cons v vs ih => rw [List.map_cons, List.mapM_cons, ih]; rfl

/-- An upload that is tagged, with a hook for its dimension. -/
def taggedVector : List (Step (List UInt64)) :=
  [.call ⟨vectorReplies, .setRingDimension 1⟩, .call ⟨vectorReplies, .malloc true 8⟩,
    .initCryptoContext ⟨true, true⟩ 1 17 true, .call ⟨vectorReplies, uploadFive⟩,
    .call ⟨vectorReplies, .tagOutput ⟨kHbmBase⟩⟩]

/-- The upload is read back through the template, the probe and the document. -/
theorem flush_probes_example :
    let p := Process.init.runAll vectorRing plainFhe taggedVector
    let env := oneOutput.replies vectorData plainFhe plainWriters p vectorReplies
    (hazeFlush vectorRing env p.world).2.shadow ⟨kHbmBase⟩ = some [5] := by
  intro p env
  obtain ⟨-, hwords⟩ := flush_probes vectorRing plainFhe_lawful plainWriters oneOutput_saves
    (by decide) vectorReplies taggedVector rfl (by decide +kernel) (by decide +kernel)
  obtain ⟨ct, hfile, -, hfilled⟩ := hwords (by decide +kernel) ⟨kHbmBase⟩ (.hazeOut 0)
    ⟨.srp, [[17]]⟩ (by decide +kernel) (List.mem_cons_self ..)
  have hzeros : ct.elements = [[⟨⟨1, 17⟩, [0]⟩]] := by
    cases List.mem_singleton.mp hfile
    rfl
  refine hfilled [5] [] fun probe hprobe => ?_
  cases hprobe
  exact ⟨by rw [hzeros]; rfl, rfl⟩

end Bridge

end Haze
