import Haze.Bridge.Synthesis
import Haze.Lib.Simulation
import Haze.Lib.UnorderedMap

/-!
# The post-recording hook

`on_post_recording` of `replay_bridge/src/openfhe_template.cpp`. For every captured input and output
the hook selects a context, synthesizes a ciphertext and writes a file; a failure is logged and sets
the hook's failure flag, and the hook goes on with the next record. Contexts are kept in a cache for
the time of one run. `onPostRecording_run` says that neither the cache nor the other records matter:
a run does for every record what it does for the record alone without a cache.
-/

namespace Haze

namespace Bridge

/-- A file that the hook wrote. -/
inductive BridgeFile where
  | inputBin (name : String) (ct : Ciphertext) (addrIds : List UInt64)
  | template (name : String) (ct : Ciphertext)
deriving DecidableEq, Repr

/-- What the hook changes. -/
structure HookState where
  /-- The lines logged for the bridge. -/
  log : List String
  /-- The failure flag. -/
  hadError : Bool
  /-- The contexts built in this run. -/
  localCache : UMap (List UInt64) Context
  /-- The files written so far. -/
  files : List BridgeFile

/-- A function of the hook. -/
abbrev HookMethod (α : Type) : Type := Expected Fault HookState α

/-- The functions that write the files. Each may throw, and returns whether it succeeded. -/
structure Writers where
  inputBin : String → Ciphertext → List UInt64 → Except String Bool
  template : String → Ciphertext → Except String Bool

/-- What the hook was installed with. -/
structure HookCtx where
  ringDim : UInt64
  primary : Context

/-- The hook is installed with a context for one modulus. -/
def HookCtx.Installed (O : OpenFhe) (hctx : HookCtx) : Prop :=
  ∃ q, buildContext O hctx.ringDim [q] = .ok (.ok hctx.primary)

/-- Writers that succeed. -/
def plainWriters : Writers := ⟨fun _ _ _ => .ok true, fun _ _ => .ok true⟩

/-- The hook installed for ring dimension four. -/
def fourDim : HookCtx := ⟨4, ⟨4, ⟨[⟨4, 17⟩]⟩⟩⟩

/-- The context of dimension four is one that is installed. -/
theorem fourDim_installed : fourDim.Installed plainFhe := ⟨17, rfl⟩

namespace HookState

/-- Nothing logged, flagged or written. -/
def empty : HookState := ⟨[], false, ∅, []⟩

/-- Log a line and set the failure flag. -/
def logHookError (body : String) (s : HookState) : HookState :=
  { s with log := s.log ++ [body], hadError := true }

/-- Write a file. -/
def write (file : BridgeFile) (s : HookState) : HookState := { s with files := s.files ++ [file] }

/-- Keep a context in the cache. -/
def keep (moduli : List UInt64) (ctx : Context) (s : HookState) : HookState :=
  { s with localCache := AList.insert moduli ctx s.localCache }

/-- Drop the cache. -/
def forget (s : HookState) : HookState := { s with localCache := ∅ }

/-- What was logged, flagged and written in `s`, and then in `t`. -/
def plus (s t : HookState) : HookState :=
  { log := s.log ++ t.log
    hadError := s.hadError || t.hadError
    localCache := t.localCache
    files := s.files ++ t.files }

end HookState

/-- Log a line and set the failure flag. -/
def logHookError (body : String) : HookMethod Unit := Expected.modify (HookState.logHookError body)

/-- Write a file. -/
def writeFile (file : BridgeFile) : HookMethod Unit := Expected.modify (HookState.write file)

/-- Run a function that only logs. -/
def onLog {α : Type} (x : Logged α) : HookMethod α :=
  Expected.zoom HookState.log (fun s log => { s with log := log }) x

section

variable (O : OpenFhe) (W : Writers) (hctx : HookCtx)

/-- Build a context for a chain of moduli; a failure is logged. -/
def builtContext (moduli : List UInt64) : HookMethod (Option Context) := do
  match ← onLog (throwing (buildContext O hctx.ringDim moduli)) with
  | .ok ctx => pure (some ctx)
  | .error e => do
    logHookError ("context_for_shape: failed to build CC for ring_dim=" ++
      toString hctx.ringDim ++ " (BridgeError=" ++ toString e.toNat ++ ")")
    pure none

/-- Put a context that was built into the cache. -/
def keepBuilt (moduli : List UInt64) : Option Context → HookMethod (Option Context)
  | none => pure none
  | some ctx => do
    Expected.modify (HookState.keep moduli ctx)
    pure (some ctx)

/-- The context for a chain of moduli, from the cache or else built and put there. -/
def cachedContext (moduli : List UInt64) : HookMethod (Option Context) := do
  let s ← Expected.get
  match AList.lookup moduli s.localCache with
  | some ctx => pure (some ctx)
  | none => do
    let built ← builtContext O hctx moduli
    keepBuilt moduli built

end

section

variable (O : OpenFhe) (W : Writers) (hctx : HookCtx)
  (provide : List UInt64 → HookMethod (Option Context))

/-- The elements of an array must all have the moduli of its front element. -/
def CapturedShape.mismatch (shape : CapturedShape) (front : List UInt64)
    (rest : List (List UInt64)) : Option (List UInt64 × ℕ) :=
  match shape.kind with
  | .srpArray | .mrpArray => heterogeneous front rest
  | .srp | .mrp => none

/-- The context for a shape. Moduli that are missing or not known leave the primary context. -/
def contextForShape (shape : CapturedShape) : HookMethod (Option Context) :=
  match shape.perElementModuli with
  | [] => pure (some hctx.primary)
  | moduli :: rest =>
    if moduli = [] ∨ moduli.any (fun q => !isReal q) then pure (some hctx.primary)
    else match shape.mismatch moduli rest with
      | some m => do
        logHookError ("context_for_shape: heterogeneous per_element_moduli (element[0].size()=" ++
          toString moduli.length ++ ", element[" ++ toString m.2 ++ "].size()=" ++
          toString m.1.length ++ ") — array synthesis with non-uniform bases is not yet implemented")
        pure none
      | none => provide moduli

/-- Synthesize the ciphertext of a record and write its file. -/
def writeRecord (shape : CapturedShape) (values : List (List UInt64)) (unavailable failed : String)
    (writer : Ciphertext → Except String Bool) (file : Ciphertext → BridgeFile) :
    HookMethod Unit := do
  match ← contextForShape hctx provide shape with
  | none => logHookError unavailable
  | some ctx => do
    let ct ← onLog (synthesizeForShape O ctx shape values)
    let written ← onLog (throwing (writer ct))
    if written then writeFile (file ct)
    else logHookError failed

/-- Catch an exception and log it behind a text. -/
def catching (text : String) (x : HookMethod Unit) : HookMethod Unit := do
  match ← Expected.attempt x with
  | .ok () => pure ()
  | .error (.runtimeError what) => logHookError (text ++ what)
  | .error .outOfRange => Expected.fail .outOfRange

/-- The names of the inputs that are keys. -/
def isKey (name : String) : Bool := name == "evalmult_key" || name == "automorphism_key"

/-- A captured input is written with its values. Keys are passed over. -/
def captureInput (r : CapturedInputRecord) : HookMethod Unit :=
  if isKey r.name then pure ()
  else catching ("input bin synthesis for '" ++ r.name ++ "' threw: ")
    (writeRecord O hctx provide r.shape r.perResidueValues
      ("input '" ++ r.name ++ "': no CC available for shape")
      ("write_ciphertext_input_bin failed for '" ++ r.name ++ "'")
      (fun ct => W.inputBin r.name ct r.addrIds) (.inputBin r.name · r.addrIds))

/-- A captured output is written as a template, without values. -/
def captureOutput (output : String × CapturedShape) : HookMethod Unit :=
  catching ("template synthesis for '" ++ output.1 ++ "' threw: ")
    (writeRecord O hctx provide output.2 []
      ("output '" ++ output.1 ++ "': no CC available for shape")
      ("write_ciphertext_template failed for '" ++ output.1 ++ "'")
      (W.template output.1) (.template output.1))

/-- The inputs, then the outputs. -/
def captureAll (inputs : List CapturedInputRecord) (outputs : List (String × CapturedShape)) :
    HookMethod Unit := do
  Expected.forEach (captureInput O W hctx provide) inputs
  Expected.forEach (captureOutput O W hctx provide) outputs

/-- A captured input or output. -/
abbrev CapturedRecord : Type := CapturedInputRecord ⊕ String × CapturedShape

/-- What is captured, in order. -/
def captured (inputs : List CapturedInputRecord) (outputs : List (String × CapturedShape)) :
    List CapturedRecord :=
  inputs.map .inl ++ outputs.map .inr

/-- Capture an input or an output. -/
def captureRecord : CapturedRecord → HookMethod Unit
  | .inl r => captureInput O W hctx provide r
  | .inr output => captureOutput O W hctx provide output

/-- The inputs and the outputs are captured in one loop. -/
theorem captureAll_eq (inputs : List CapturedInputRecord) (outputs : List (String × CapturedShape)) :
    captureAll O W hctx provide inputs outputs =
      Expected.forEach (captureRecord O W hctx provide) (captured inputs outputs) := by
  unfold captureAll captured
  rw [Expected.forEach_append, Expected.forEach_map, Expected.forEach_map]
  rfl

end

/-- The hook, with a cache of its own. -/
def onPostRecording (O : OpenFhe) (W : Writers) (hctx : HookCtx)
    (inputs : List CapturedInputRecord) (outputs : List (String × CapturedShape)) :
    HookMethod Unit := do
  Expected.modify HookState.forget
  captureAll O W hctx (cachedContext O hctx) inputs outputs

/-! ## The cache -/

/-- What is kept in the cache is what building would give. -/
def CacheSound (O : OpenFhe) (hctx : HookCtx) (s : HookState) : Prop :=
  ∀ moduli ctx, AList.lookup moduli s.localCache = some ctx →
    buildContext O hctx.ringDim moduli = .ok (.ok ctx)

section

variable {O : OpenFhe} {W : Writers} {hctx : HookCtx}

/-- A context that can be built is built. -/
theorem builtContext_of_ok {moduli : List UInt64} {ctx : Context}
    (h : buildContext O hctx.ringDim moduli = .ok (.ok ctx)) (s : HookState) :
    builtContext O hctx moduli s = (.ok (some ctx), s) := by
  have hrun : onLog (throwing (buildContext O hctx.ringDim moduli)) s = (.ok (.ok ctx), s) := by
    rw [h]
    rfl
  exact Expected.bind_run_ok hrun

/-- A context that is kept under its moduli leaves the cache sound. -/
theorem CacheSound.keep {s : HookState} (h : CacheSound O hctx s) {moduli : List UInt64}
    {ctx : Context} (hbuilt : buildContext O hctx.ringDim moduli = .ok (.ok ctx)) :
    CacheSound O hctx (s.keep moduli ctx) := by
  intro moduli' ctx' hlookup
  change AList.lookup moduli' (AList.insert moduli ctx s.localCache) = _ at hlookup
  by_cases hm : moduli' = moduli
  · subst hm
    rw [AList.lookup_insert] at hlookup
    cases hlookup
    exact hbuilt
  · rw [AList.lookup_insert_ne hm] at hlookup
    exact h moduli' ctx' hlookup

/-- Looking a context up in the cache is building it. -/
theorem cachedContext_simulates (moduli : List UInt64) :
    Expected.Simulates HookState.forget (CacheSound O hctx) (cachedContext O hctx moduli)
      (builtContext O hctx moduli) := by
  refine .of_run fun s hs => ?_
  -- A miss builds the context and keeps it; a hit returns what a build would.
  rcases hlookup : AList.lookup moduli s.localCache with _ | ctx
  · have hmiss : cachedContext O hctx moduli s =
        (builtContext O hctx moduli >>= keepBuilt moduli) s := by
      simp only [cachedContext, Expected.get_bind_run, hlookup]
    rw [hmiss]
    rcases hbuilt : buildContext O hctx.ringDim moduli with what | e | ctx
    · have hrun : ∀ t : HookState,
          builtContext O hctx moduli t = (.error (.runtimeError what), t) := by
        intro t
        refine Expected.bind_run_error ?_
        rw [hbuilt]
        rfl
      rw [Expected.bind_run_error (hrun s), hrun]
      exact ⟨rfl, hs⟩
    · have hrun : ∀ t : HookState, builtContext O hctx moduli t = (.ok none, HookState.logHookError
          ("context_for_shape: failed to build CC for ring_dim=" ++ toString hctx.ringDim ++
            " (BridgeError=" ++ toString e.toNat ++ ")") t) := by
        intro t
        refine Expected.bind_run_ok (a := Except.error e) ?_
        rw [hbuilt]
        rfl
      rw [Expected.bind_run_ok (hrun s), hrun]
      exact ⟨rfl, hs⟩
    · rw [Expected.bind_run_ok (builtContext_of_ok hbuilt s), builtContext_of_ok hbuilt]
      exact ⟨rfl, hs.keep hbuilt⟩
  · have hhit : cachedContext O hctx moduli s = (.ok (some ctx), s) := by
      simp only [cachedContext, Expected.get_bind_run, hlookup, Expected.pure_run]
    rw [hhit, builtContext_of_ok (hs moduli ctx hlookup)]
    exact ⟨rfl, hs⟩

/-! ## Records one by one -/

/-- The map leaves room for what the hook does to its state. -/
structure Transparent (f : HookState → HookState) (I : HookState → Prop) : Prop where
  onLog : ∀ {α : Type} (x : Logged α), Appends x → Expected.Simulates f I (onLog x) (onLog x)
  logHookError : ∀ body s, I s → (f s).logHookError body = f (s.logHookError body) ∧
    I (s.logHookError body)
  write : ∀ file s, I s → (f s).write file = f (s.write file) ∧ I (s.write file)

/-- Forgetting the cache, where nothing but the cache matters. -/
theorem transparent_forget {I : HookState → Prop}
    (hI : ∀ s t : HookState, s.localCache = t.localCache → I s → I t) :
    Transparent HookState.forget I where
  onLog _ _ := .zoom _ (fun _ _ => rfl) fun s _ hs => ⟨rfl, hI s _ rfl hs⟩
  logHookError _ s hs := ⟨rfl, hI s _ rfl hs⟩
  write _ s hs := ⟨rfl, hI s _ rfl hs⟩

/-- Having done something else before. -/
theorem transparent_plus (s : HookState) : Transparent s.plus fun _ => True where
  onLog x hx := by
    refine Expected.Relates.zoom (S := fun l m => m = s.log ++ l ∧ True) (hx s.log) ?_ ?_
    · rintro t _ ⟨rfl, -⟩
      exact ⟨rfl, trivial⟩
    · rintro t _ l _ ⟨rfl, -⟩ ⟨rfl, -⟩
      exact ⟨rfl, trivial⟩
  logHookError body t _ := by
    refine ⟨?_, trivial⟩
    simp only [HookState.plus, HookState.logHookError, List.append_assoc, Bool.or_true]
  write file t _ := by
    refine ⟨?_, trivial⟩
    simp only [HookState.plus, HookState.write, List.append_assoc]

section

variable {f : HookState → HookState} {I : HookState → Prop} (hf : Transparent f I)
  {provide provide' : List UInt64 → HookMethod (Option Context)}

include hf

/-- Logging does not see the state. -/
theorem Transparent.logs (body : String) :
    Expected.Simulates f I (Bridge.logHookError body) (Bridge.logHookError body) :=
  .modify (hf.logHookError body)

/-- Writing a file does not see it. -/
theorem Transparent.writes (file : BridgeFile) :
    Expected.Simulates f I (writeFile file) (writeFile file) :=
  .modify (hf.write file)

/-- Nor does building a context. -/
theorem Transparent.builtContext (moduli : List UInt64) :
    Expected.Simulates f I (builtContext O hctx moduli) (builtContext O hctx moduli) := by
  refine .bind (hf.onLog _ (.throwing _)) fun built => ?_
  rcases built with e | ctx
  · exact .bind (hf.logs _) fun _ => .pure _
  · exact .pure _

variable (hprovide : ∀ moduli, Expected.Simulates f I (provide moduli) (provide' moduli))

include hprovide

/-- Nor does finding the context of a shape, from the cache or not. -/
theorem Transparent.contextForShape (shape : CapturedShape) :
    Expected.Simulates f I (contextForShape hctx provide shape)
      (contextForShape hctx provide' shape) := by
  unfold Bridge.contextForShape
  split
  · exact .pure _
  split_ifs
  · exact .pure _
  split
  · exact .bind (hf.logs _) fun _ => .pure _
  · exact hprovide _

/-- Nor does writing a record. -/
theorem Transparent.writeRecord (shape : CapturedShape) (values : List (List UInt64))
    (unavailable failed : String) (writer : Ciphertext → Except String Bool)
    (file : Ciphertext → BridgeFile) :
    Expected.Simulates f I
      (writeRecord O hctx provide shape values unavailable failed writer file)
      (writeRecord O hctx provide' shape values unavailable failed writer file) := by
  refine .bind (hf.contextForShape hprovide shape) fun ctx => ?_
  rcases ctx with _ | ctx
  · exact hf.logs _
  refine .bind (hf.onLog _ (synthesizeForShape_appends O ctx shape values)) fun ct => ?_
  refine .bind (hf.onLog _ (.throwing _)) fun written => ?_
  split_ifs
  · exact hf.writes _
  · exact hf.logs _

omit hprovide in
/-- Nor does catching what a record throws. -/
theorem Transparent.catching (text : String) {x y : HookMethod Unit}
    (h : Expected.Simulates f I x y) :
    Expected.Simulates f I (catching text x) (catching text y) := by
  refine .bind h.attempt fun r => ?_
  rcases r with (what | _) | _
  · exact hf.logs _
  · exact .fail _
  · exact .pure _

/-- Nor does capturing a record. -/
theorem Transparent.captureRecord (r : CapturedRecord) :
    Expected.Simulates f I (captureRecord O W hctx provide r)
      (captureRecord O W hctx provide' r) := by
  rcases r with r | output
  · change Expected.Simulates f I (captureInput O W hctx provide r)
      (captureInput O W hctx provide' r)
    unfold captureInput
    split_ifs
    · exact .pure _
    · exact hf.catching _ (hf.writeRecord hprovide _ _ _ _ _ _)
  · exact hf.catching _ (hf.writeRecord hprovide _ _ _ _ _ _)

end

/-- What the hook does for a record alone, without a cache. -/
def alone (O : OpenFhe) (W : Writers) (hctx : HookCtx) (r : CapturedRecord) :
    Except Fault Unit × HookState :=
  captureRecord O W hctx (builtContext O hctx) r .empty

variable (O W hctx)

/-- A record is treated as it is alone, whatever was done before. -/
theorem captureRecord_alone (r : CapturedRecord) (s : HookState) :
    captureRecord O W hctx (builtContext O hctx) r s.forget =
      ((alone O W hctx r).1, s.plus (alone O W hctx r).2) := by
  have hf := transparent_plus s
  have hsimulates : Expected.Simulates s.plus (fun _ => True)
      (captureRecord O W hctx (builtContext O hctx) r)
      (captureRecord O W hctx (builtContext O hctx) r) := hf.captureRecord hf.builtContext r
  have hrun := hsimulates.run (s := .empty) trivial
  have hempty : s.plus .empty = s.forget := by
    simp only [HookState.plus, HookState.empty, HookState.forget, List.append_nil, Bool.or_false]
  rwa [hempty] at hrun

/-- Without a cache, none is left. -/
theorem alone_forget (r : CapturedRecord) : (alone O W hctx r).2.forget = (alone O W hctx r).2 := by
  have hf := transparent_forget (I := fun _ => True) fun _ _ _ _ => trivial
  have hsimulates : Expected.Simulates HookState.forget (fun _ => True)
      (captureRecord O W hctx (builtContext O hctx) r)
      (captureRecord O W hctx (builtContext O hctx) r) := hf.captureRecord hf.builtContext r
  exact (congrArg Prod.snd (hsimulates.run (s := .empty) trivial)).symm

/-- Every exception is caught. -/
theorem alone_result (r : CapturedRecord) :
    (alone O W hctx r).1 = .ok () ∨ (alone O W hctx r).1 = .error .outOfRange := by
  have hcatching : ∀ (text : String) (x : HookMethod Unit) (s : HookState),
      (catching text x s).1 = .ok () ∨ (catching text x s).1 = .error .outOfRange := by
    intro text x s
    unfold catching
    rw [Expected.attempt_bind_run]
    rcases (x s).1 with (what | _) | _
    · exact .inl rfl
    · exact .inr rfl
    · exact .inl rfl
  rcases r with r | output
  · change (captureInput O W hctx _ r .empty).1 = _ ∨ (captureInput O W hctx _ r .empty).1 = _
    unfold captureInput
    split_ifs
    · exact .inl rfl
    · exact hcatching _ _ _
  · exact hcatching _ _ _

/-! ## A run of the hook -/

/-- What was done in `s`, and then in each of some states. -/
def HookState.total (s : HookState) (ts : List HookState) : HookState := ts.foldl HookState.plus s

/-- The log of several runs is their logs, one after the other. -/
theorem HookState.total_log (s : HookState) (ts : List HookState) :
    (s.total ts).log = s.log ++ ts.flatMap HookState.log := by
  induction ts generalizing s with
  | nil => exact (List.append_nil _).symm
  | cons t ts ih =>
    rw [List.flatMap_cons, ← List.append_assoc]
    exact ih (s.plus t)

/-- So are the files. -/
theorem HookState.total_files (s : HookState) (ts : List HookState) :
    (s.total ts).files = s.files ++ ts.flatMap HookState.files := by
  induction ts generalizing s with
  | nil => exact (List.append_nil _).symm
  | cons t ts ih =>
    rw [List.flatMap_cons, ← List.append_assoc]
    exact ih (s.plus t)

/-- The flag is set when that of one of the runs is. -/
theorem HookState.total_hadError (s : HookState) (ts : List HookState) :
    (s.total ts).hadError = (s.hadError || ts.any HookState.hadError) := by
  induction ts generalizing s with
  | nil => exact (Bool.or_false _).symm
  | cons t ts ih =>
    rw [List.any_cons, ← Bool.or_assoc]
    exact ih (s.plus t)

/-- The loop over the records, without a cache. -/
theorem records_run (rs : List CapturedRecord) {s : HookState} (hs : s.forget = s) :
    ((∀ r ∈ rs, (alone O W hctx r).1 = .ok ()) ∧
      Expected.forEach (captureRecord O W hctx (builtContext O hctx)) rs s =
        (.ok (), s.total (rs.map fun r => (alone O W hctx r).2))) ∨
    ((∃ r ∈ rs, (alone O W hctx r).1 = .error .outOfRange) ∧
      (Expected.forEach (captureRecord O W hctx (builtContext O hctx)) rs s).1 =
        .error .outOfRange) := by
  -- By induction on the records; the state is the sum of what each one does alone.
  induction rs generalizing s with
  | nil => exact .inl ⟨fun r hr => absurd hr List.not_mem_nil, rfl⟩
  | cons r rs ih =>
    have hrun := captureRecord_alone O W hctx r s
    rw [hs] at hrun
    rw [Expected.forEach_cons]
    -- Only a read out of range gets past the handler of a record, and it ends the loop.
    rcases alone_result O W hctx r with hok | herror
    · rw [hok] at hrun
      rw [Expected.bind_run_ok hrun]
      have hforget : (s.plus (alone O W hctx r).2).forget = s.plus (alone O W hctx r).2 := by
        conv_rhs => rw [← alone_forget O W hctx r]
        rfl
      rcases ih hforget with ⟨hall, hrest⟩ | ⟨⟨r', hr', hbad⟩, hrest⟩
      · exact .inl ⟨List.forall_mem_cons.mpr ⟨hok, hall⟩, hrest⟩
      · exact .inr ⟨⟨r', List.mem_cons_of_mem _ hr', hbad⟩, hrest⟩
    · rw [herror] at hrun
      rw [Expected.bind_run_error hrun]
      exact .inr ⟨⟨r, List.mem_cons_self .., herror⟩, rfl⟩

/-- A run with a cache returns what one without it returns, and leaves the same but for the cache. -/
theorem onPostRecording_plain (inputs : List CapturedInputRecord)
    (outputs : List (String × CapturedShape)) (s : HookState) :
    Expected.forEach (captureRecord O W hctx (builtContext O hctx)) (captured inputs outputs)
        s.forget =
      ((onPostRecording O W hctx inputs outputs s).1,
        (onPostRecording O W hctx inputs outputs s).2.forget) := by
  have hf := transparent_forget (I := CacheSound O hctx) fun s t hst hs moduli ctx hlookup =>
    hs moduli ctx (hst ▸ hlookup)
  have hsound : CacheSound O hctx s.forget := by
    intro moduli ctx hlookup
    cases hlookup
  have hsimulates : Expected.Simulates HookState.forget (CacheSound O hctx)
      (Expected.forEach (captureRecord O W hctx (cachedContext O hctx)) (captured inputs outputs))
      (Expected.forEach (captureRecord O W hctx (builtContext O hctx)) (captured inputs outputs)) :=
    .forEach fun r _ => hf.captureRecord cachedContext_simulates r
  rw [← captureAll_eq O W hctx (cachedContext O hctx)] at hsimulates
  exact hsimulates.run hsound

/-- A run completes if every record does alone, and then does for each what is done for it alone. -/
theorem onPostRecording_marks {inputs : List CapturedInputRecord}
    {outputs : List (String × CapturedShape)}
    (h : ∀ r ∈ captured inputs outputs, (alone O W hctx r).1 = .ok ()) (s : HookState) :
    let marks := (captured inputs outputs).map fun r => (alone O W hctx r).2
    (onPostRecording O W hctx inputs outputs s).1 = .ok () ∧
      (onPostRecording O W hctx inputs outputs s).2.files =
        s.files ++ marks.flatMap HookState.files ∧
      (onPostRecording O W hctx inputs outputs s).2.hadError =
        (s.hadError || marks.any HookState.hadError) ∧
      (onPostRecording O W hctx inputs outputs s).2.log =
        s.log ++ marks.flatMap HookState.log := by
  intro marks
  have hplain := onPostRecording_plain O W hctx inputs outputs s
  -- No record throws, so the loop has gone through all of them.
  rcases records_run O W hctx (captured inputs outputs) (s := s.forget) rfl with
    ⟨-, hrun⟩ | ⟨⟨r, hr, hbad⟩, -⟩
  · rw [hplain] at hrun
    obtain ⟨hresult, hstate⟩ := Prod.ext_iff.mp hrun
    refine ⟨hresult, ?_, ?_, ?_⟩
    · exact (congrArg HookState.files hstate).trans (HookState.total_files ..)
    · exact (congrArg HookState.hadError hstate).trans (HookState.total_hadError ..)
    · exact (congrArg HookState.log hstate).trans (HookState.total_log ..)
  · cases (h r hr).symm.trans hbad

/-- A run leads outside a vector if some record does alone. -/
theorem onPostRecording_outOfRange {inputs : List CapturedInputRecord}
    {outputs : List (String × CapturedShape)}
    (h : ∃ r ∈ captured inputs outputs, (alone O W hctx r).1 ≠ .ok ()) (s : HookState) :
    (onPostRecording O W hctx inputs outputs s).1 = .error .outOfRange := by
  have hplain := onPostRecording_plain O W hctx inputs outputs s
  rcases records_run O W hctx (captured inputs outputs) (s := s.forget) rfl with
    ⟨hall, -⟩ | ⟨-, hrun⟩
  · obtain ⟨r, hr, hbad⟩ := h
    exact absurd (hall r hr) hbad
  · rwa [hplain] at hrun

/-- A run of the hook does for every record what it does for the record alone and without a cache. It
completes unless some record alone leads outside a vector. -/
theorem onPostRecording_run (inputs : List CapturedInputRecord)
    (outputs : List (String × CapturedShape)) (s : HookState) :
    let marks := (captured inputs outputs).map fun r => (alone O W hctx r).2
    ((∀ r ∈ captured inputs outputs, (alone O W hctx r).1 = .ok ()) →
      (onPostRecording O W hctx inputs outputs s).1 = .ok () ∧
      (onPostRecording O W hctx inputs outputs s).2.files =
        s.files ++ marks.flatMap HookState.files ∧
      (onPostRecording O W hctx inputs outputs s).2.hadError =
        (s.hadError || marks.any HookState.hadError) ∧
      (onPostRecording O W hctx inputs outputs s).2.log =
        s.log ++ marks.flatMap HookState.log) ∧
    ((∃ r ∈ captured inputs outputs, (alone O W hctx r).1 ≠ .ok ()) →
      (onPostRecording O W hctx inputs outputs s).1 = .error .outOfRange) :=
  ⟨fun h => onPostRecording_marks O W hctx h s, fun h => onPostRecording_outOfRange O W hctx h s⟩

end

end Bridge

end Haze
