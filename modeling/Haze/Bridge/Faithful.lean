import Haze.Bridge.Hook

/-!
# What the hook's files hold

What the hook does for a record alone is one of three things: it passes over a key, it sets the
failure flag and writes nothing, or it writes one file whose ciphertext has the geometry and the
moduli of the captured shape (`alone_outcome`). Of the values only those of the right length are in
the file, and the others are zeros, which the flag does not tell: `onPostRecording_faithful` says
which captured values are in the file of a run that was not flagged. Only a multi-residue shape
without any moduli leads outside a vector (`onPostRecording_undefined`).
-/

namespace Haze

namespace Bridge

namespace CapturedRecord

/-- The captured shape. -/
def shape : CapturedRecord → CapturedShape
  | .inl r => r.shape
  | .inr output => output.2

/-- The captured values; an output has none. -/
def values : CapturedRecord → List (List UInt64)
  | .inl r => r.perResidueValues
  | .inr _ => []

/-- The file of a record with its ciphertext. -/
def file : CapturedRecord → Ciphertext → BridgeFile
  | .inl r, ct => .inputBin r.name ct r.addrIds
  | .inr output, ct => .template output.1 ct

/-- The writer of a record's file. -/
def writer (W : Writers) : CapturedRecord → Ciphertext → Except String Bool
  | .inl r, ct => W.inputBin r.name ct r.addrIds
  | .inr output, ct => W.template output.1 ct

/-- A key is passed over. -/
def passed : CapturedRecord → Bool
  | .inl r => isKey r.name
  | .inr _ => false

/-- A multi-residue shape without any moduli, whose first list of moduli is read. -/
def Undefined (r : CapturedRecord) : Prop :=
  r.passed = false ∧ r.shape.kind = .mrp ∧ r.shape.perElementModuli = []

instance (r : CapturedRecord) : Decidable r.Undefined :=
  inferInstanceAs (Decidable
    (r.passed = false ∧ r.shape.kind = .mrp ∧ r.shape.perElementModuli = []))

end CapturedRecord

/-- The ring dimension of the towers of a context. -/
def HookCtx.towerDim (hctx : HookCtx) : ℕ := hctx.ringDim.toUInt32.toNat

section

variable {O : OpenFhe} {W : Writers} {hctx : HookCtx}

variable (O W hctx) in
/-- Inputs and outputs are captured in the same way. -/
theorem captureRecord_eq (provide : List UInt64 → HookMethod (Option Context)) (r : CapturedRecord) :
    ∃ text unavailable failed : String, captureRecord O W hctx provide r =
      if r.passed then pure () else catching text
        (writeRecord O hctx provide r.shape r.values unavailable failed (r.writer W) r.file) := by
  rcases r with r | output
  · exact ⟨_, _, _, rfl⟩
  · exact ⟨_, _, _, rfl⟩

/-! ## Selecting a context -/

/-- The context that a shape is given, unless there is none for it. -/
def CapturedShape.selected (O : OpenFhe) (hctx : HookCtx) (shape : CapturedShape) : Option Context :=
  match shape.perElementModuli with
  | [] => some hctx.primary
  | moduli :: rest =>
    if moduli = [] ∨ moduli.any (fun q => !isReal q) then some hctx.primary
    else match shape.mismatch moduli rest, buildContext O hctx.ringDim moduli with
      | none, .ok (.ok ctx) => some ctx
      | _, _ => none

/-- The context of a shape has the hook's ring dimension, in every tower. -/
theorem CapturedShape.selected_params (hO : O.Lawful) (hinstalled : hctx.Installed O)
    {shape : CapturedShape} {ctx : Context} (h : shape.selected O hctx = some ctx) :
    ctx.ringDim = hctx.ringDim ∧ ctx.cc.params ≠ [] ∧
      ∀ p ∈ ctx.cc.params, p.ringDim = hctx.towerDim := by
  -- The primary context was built for the same ring dimension.
  obtain ⟨q, hq⟩ := hinstalled
  have hprimary := buildContext_params hO hq
  unfold selected at h
  split at h
  · cases h
    exact hprimary
  split_ifs at h with hunknown
  · cases h
    exact hprimary
  split at h
  · rename_i hbuilt
    cases h
    exact buildContext_params hO hbuilt
  · cases h

/-- A shape is given its context, or else the failure is flagged or an exception thrown. -/
theorem contextForShape_run (shape : CapturedShape) (s : HookState) :
    (∃ ctx, shape.selected O hctx = some ctx ∧
      contextForShape hctx (builtContext O hctx) shape s = (.ok (some ctx), s)) ∨
    shape.selected O hctx = none ∧
      ((∃ body, contextForShape hctx (builtContext O hctx) shape s =
        (.ok none, s.logHookError body)) ∨
      ∃ what, contextForShape hctx (builtContext O hctx) shape s =
        (.error (.runtimeError what), s)) := by
  -- A shape without moduli, or whose first moduli are unknown, is served by the primary context.
  rcases hmoduli : shape.perElementModuli with _ | ⟨moduli, rest⟩
  · refine .inl ⟨hctx.primary, ?_, ?_⟩
    · simp only [CapturedShape.selected, hmoduli]
    · simp only [contextForShape, hmoduli, Expected.pure_run]
  by_cases hunknown : moduli = [] ∨ moduli.any (fun q => !isReal q) = true
  · refine .inl ⟨hctx.primary, ?_, ?_⟩
    · simp only [CapturedShape.selected, hmoduli, if_pos hunknown]
    · simp only [contextForShape, hmoduli, if_pos hunknown, Expected.pure_run]
  -- Otherwise every element has to ask for the moduli of the first one.
  rcases hmismatch : shape.mismatch moduli rest with _ | m
  · have hrun : contextForShape hctx (builtContext O hctx) shape s =
        builtContext O hctx moduli s := by
      simp only [contextForShape, hmoduli, if_neg hunknown, hmismatch]
    rw [hrun]
    rcases hbuilt : buildContext O hctx.ringDim moduli with what | e | ctx
    · refine .inr ⟨?_, .inr ⟨what, Expected.bind_run_error ?_⟩⟩
      · simp only [CapturedShape.selected, hmoduli, if_neg hunknown, hmismatch, hbuilt]
      · rw [hbuilt]
        rfl
    · refine .inr ⟨?_, .inl ⟨_, Expected.bind_run_ok (a := Except.error e) ?_⟩⟩
      · simp only [CapturedShape.selected, hmoduli, if_neg hunknown, hmismatch, hbuilt]
      · rw [hbuilt]
        rfl
    · refine .inl ⟨ctx, ?_, builtContext_of_ok hbuilt s⟩
      simp only [CapturedShape.selected, hmoduli, if_neg hunknown, hmismatch, hbuilt]
  · refine .inr ⟨?_, .inl ?_⟩
    · simp only [CapturedShape.selected, hmoduli, if_neg hunknown, hmismatch]
    · simp only [contextForShape, hmoduli, if_neg hunknown, hmismatch]
      exact ⟨_, rfl⟩

/-! ## One record -/

/-- Nothing flagged or written. -/
def Untouched (s : HookState) : Prop := s.hadError = false ∧ s.files = []

/-- Flagged without a file, or a file that holds the values and no flag. -/
def Outcome (W : Writers) (hctx : HookCtx) (r : CapturedRecord) (s : HookState) : Prop :=
  (s.hadError = true ∧ s.files = []) ∨
    (s.hadError = false ∧ ∃ ct, s.files = [r.file ct] ∧ r.writer W ct = .ok true ∧
      ct.Holds hctx.towerDim r.shape.towers r.values)

/-- Logging leaves the files and the flag alone, and what is returned is what is logged about. -/
theorem onLog_triple {α : Type} {x : Logged α} {Q : α → Prop} (h : Returns x Q) :
    Expected.Triple Untouched (onLog x) (fun a s => Q a ∧ Untouched s)
      fun e s => e ≠ .outOfRange ∧ Untouched s := by
  intro s hs
  have hx := h s.log trivial
  unfold onLog
  rw [Expected.zoom_run]
  rcases hrun : x s.log with ⟨e | a, log⟩
  · rw [hrun] at hx
    exact ⟨hx, hs⟩
  · rw [hrun] at hx
    exact ⟨hx, hs⟩

/-- Writing a record that has moduli does not lead outside a vector. -/
theorem writeRecord_triple (hO : O.Lawful) (hinstalled : hctx.Installed O) (r : CapturedRecord)
    (hdefined : r.shape.kind = .mrp → r.shape.perElementModuli ≠ []) (unavailable failed : String) :
    Expected.Triple Untouched
      (writeRecord O hctx (builtContext O hctx) r.shape r.values unavailable failed (r.writer W)
        r.file)
      (fun _ s => Outcome W hctx r s) fun e s => e ≠ .outOfRange ∧ Untouched s := by
  intro s hs
  -- The context first, then the ciphertext under it, then its file.
  unfold writeRecord
  rcases contextForShape_run r.shape s with
    ⟨ctx, hselected, hrun⟩ | ⟨-, ⟨body, hrun⟩ | ⟨what, hrun⟩⟩
  · have hn := (CapturedShape.selected_params hO hinstalled hselected).2.2
    rw [Expected.bind_run_ok hrun]
    refine Expected.Triple.bind
      (onLog_triple (synthesizeForShape_returns hO hn r.shape r.values hdefined))
      (fun ct => ?_) s hs
    refine Expected.Triple.bind (Q := fun written s => (r.writer W ct = .ok written ∧
      ct.Holds hctx.towerDim r.shape.towers r.values) ∧ Untouched s) (fun s hs => ?_)
      fun written => ?_
    · exact (onLog_triple (Q := fun written => r.writer W ct = .ok written ∧
        ct.Holds hctx.towerDim r.shape.towers r.values)
          (Returns.throwing fun written hwritten => ⟨hwritten, hs.1⟩)) s hs.2
    · intro s hs
      obtain ⟨⟨hwritten, hholds⟩, hflag, hfiles⟩ := hs
      -- The file is the last one only where the writer has answered true.
      cases written with
      | true =>
        refine .inr ⟨hflag, ct, ?_, hwritten, hholds⟩
        change s.files ++ [r.file ct] = _
        rw [hfiles]
        rfl
      | false => exact .inl ⟨rfl, hfiles⟩
  · rw [Expected.bind_run_ok hrun]
    exact .inl ⟨rfl, hs.2⟩
  · rw [Expected.bind_run_error hrun]
    refine ⟨?_, hs⟩
    rintro ⟨⟩

/-- What the hook does for a record alone, unless the record leads outside a vector. -/
theorem alone_outcome (hO : O.Lawful) (hinstalled : hctx.Installed O) {r : CapturedRecord}
    (hdefined : ¬ r.Undefined) :
    (alone O W hctx r).1 = .ok () ∧
      if r.passed then (alone O W hctx r).2 = .empty else Outcome W hctx r (alone O W hctx r).2 := by
  obtain ⟨text, unavailable, failed, heq⟩ :=
    captureRecord_eq O W hctx (builtContext O hctx) r
  unfold alone
  rw [heq]
  -- A record that was passed on is not looked at again.
  by_cases hpassed : r.passed = true
  · rw [if_pos hpassed, if_pos hpassed]
    exact ⟨rfl, rfl⟩
  rw [if_neg hpassed, if_neg hpassed]
  have hwrite := writeRecord_triple (W := W) hO hinstalled r
    (fun hkind hempty => hdefined ⟨Bool.eq_false_of_not_eq_true hpassed, hkind, hempty⟩)
    unavailable failed .empty ⟨rfl, rfl⟩
  unfold catching
  rw [Expected.attempt_bind_run]
  -- A throw is caught and sets the flag; the shapes that are defined never read out of range.
  rcases hrun : writeRecord O hctx (builtContext O hctx) r.shape r.values unavailable failed
    (r.writer W) r.file .empty with ⟨(what | _) | _, s⟩
  · rw [hrun] at hwrite
    exact ⟨rfl, .inl ⟨rfl, hwrite.2.2⟩⟩
  · rw [hrun] at hwrite
    exact absurd rfl hwrite.1
  · rw [hrun] at hwrite
    exact ⟨rfl, hwrite⟩

/-- A record without moduli leads outside a vector. -/
theorem alone_undefined {r : CapturedRecord} (h : r.Undefined) :
    (alone O W hctx r).1 = .error .outOfRange := by
  obtain ⟨text, unavailable, failed, heq⟩ :=
    captureRecord_eq O W hctx (builtContext O hctx) r
  obtain ⟨hpassed, hkind, hempty⟩ := h
  unfold alone
  rw [heq, if_neg (by rw [hpassed]; decide)]
  rcases hshape : r.shape with ⟨kind, moduli⟩
  rw [hshape] at hkind hempty
  subst hkind hempty
  rfl

/-! ## A run -/

/-- The records that are not passed over. -/
def unpassed (inputs : List CapturedInputRecord) (outputs : List (String × CapturedShape)) :
    List CapturedRecord :=
  (captured inputs outputs).filter fun r => !r.passed

/-- The files of records that were not flagged. -/
theorem files_of_alone (hO : O.Lawful) (hinstalled : hctx.Installed O) {rs : List CapturedRecord}
    (hdefined : ∀ r ∈ rs, ¬ r.Undefined)
    (hflag : rs.any (fun r => (alone O W hctx r).2.hadError) = false) :
    ∃ cts : List Ciphertext,
      rs.flatMap (fun r => (alone O W hctx r).2.files) =
        List.zipWith CapturedRecord.file (rs.filter fun r => !r.passed) cts ∧
      List.Forall₂ (fun r ct => r.writer W ct = .ok true ∧
        ct.Holds hctx.towerDim r.shape.towers r.values) (rs.filter fun r => !r.passed) cts := by
  -- By induction on the records; no flag at the end means none at any of them.
  induction rs with
  | nil => exact ⟨[], rfl, .nil⟩
  | cons r rs ih =>
    rw [List.any_cons, Bool.or_eq_false_iff] at hflag
    obtain ⟨cts, hfiles, hall⟩ :=
      ih (fun r' hr' => hdefined r' (List.mem_cons_of_mem _ hr')) hflag.2
    have hr := (alone_outcome (W := W) hO hinstalled (hdefined r (List.mem_cons_self ..))).2
    rw [List.flatMap_cons, hfiles]
    by_cases hpassed : r.passed = true
    · rw [if_pos hpassed] at hr
      rw [List.filter_cons_of_neg (by rw [hpassed]; decide), hr]
      exact ⟨cts, rfl, hall⟩
    · rw [if_neg hpassed] at hr
      rw [List.filter_cons_of_pos (by rw [Bool.eq_false_of_not_eq_true hpassed]; rfl)]
      rcases hr with ⟨hbad, -⟩ | ⟨-, ct, hfile, hwritten, hholds⟩
      · cases hbad.symm.trans hflag.1
      · refine ⟨ct :: cts, ?_, .cons ⟨hwritten, hholds⟩ hall⟩
        rw [hfile]
        rfl

/-- Alone, a record is handled if and only if it does not lead outside a vector. -/
theorem alone_ok_iff (hO : O.Lawful) (hinstalled : hctx.Installed O) (r : CapturedRecord) :
    (alone O W hctx r).1 = .ok () ↔ ¬ r.Undefined := by
  refine ⟨fun hok hundefined => ?_, fun hdefined => (alone_outcome hO hinstalled hdefined).1⟩
  cases hok.symm.trans (alone_undefined hundefined)

/-- A run is undefined where some record that is not passed over has a multi-residue shape without
moduli, and it completes everywhere else. -/
theorem onPostRecording_undefined (hO : O.Lawful) (hinstalled : hctx.Installed O)
    (inputs : List CapturedInputRecord) (outputs : List (String × CapturedShape)) (s : HookState) :
    ((onPostRecording O W hctx inputs outputs s).1 = .error .outOfRange ↔
      ∃ r ∈ captured inputs outputs, r.Undefined) ∧
    ((onPostRecording O W hctx inputs outputs s).1 = .ok () ↔
      ∀ r ∈ captured inputs outputs, ¬ r.Undefined) := by
  by_cases hdefined : ∀ r ∈ captured inputs outputs, ¬ r.Undefined
  · have hok := (onPostRecording_marks O W hctx
      (fun r hr => (alone_ok_iff hO hinstalled r).mpr (hdefined r hr)) s).1
    rw [hok]
    refine ⟨iff_of_false (by rintro ⟨⟩) ?_, iff_of_true rfl hdefined⟩
    rintro ⟨r, hr, hundefined⟩
    exact hdefined r hr hundefined
  · push Not at hdefined
    obtain ⟨r, hr, hundefined⟩ := hdefined
    have hbad : (alone O W hctx r).1 ≠ .ok () := fun hok =>
      (alone_ok_iff hO hinstalled r).mp hok hundefined
    rw [onPostRecording_outOfRange O W hctx ⟨r, hr, hbad⟩ s]
    exact ⟨iff_of_true rfl ⟨r, hr, hundefined⟩,
      iff_of_false (by rintro ⟨⟩) fun hall => hall r hr hundefined⟩

/-- A multi-residue input without moduli. -/
theorem onPostRecording_undefined_example :
    (onPostRecording plainFhe plainWriters fourDim [⟨"x", ⟨.mrp, []⟩, [1], [[1, 2, 3, 4]]⟩] []
      .empty).1 = .error .outOfRange :=
  (onPostRecording_undefined plainFhe_lawful fourDim_installed _ _ _).1.mpr
    ⟨_, List.mem_cons_self .., by decide⟩

/-- A run that completes and leaves the failure flag clear has written a file for every record that
is not passed over, in order. -/
theorem onPostRecording_written (hO : O.Lawful) (hinstalled : hctx.Installed O)
    {inputs : List CapturedInputRecord} {outputs : List (String × CapturedShape)}
    {s s' : HookState} (hrun : onPostRecording O W hctx inputs outputs s = (.ok (), s'))
    (hflag : s'.hadError = false) :
    ∃ cts : List Ciphertext,
      s'.files = s.files ++ List.zipWith CapturedRecord.file (unpassed inputs outputs) cts ∧
      List.Forall₂ (fun r ct => r.writer W ct = .ok true ∧
        ct.Holds hctx.towerDim r.shape.towers r.values) (unpassed inputs outputs) cts := by
  have hok : (onPostRecording O W hctx inputs outputs s).1 = .ok () := congrArg Prod.fst hrun
  have hall : ∀ r ∈ captured inputs outputs, (alone O W hctx r).1 = .ok () := by
    by_contra hbad
    push Not at hbad
    cases hok.symm.trans (onPostRecording_outOfRange O W hctx hbad s)
  have hdefined : ∀ r ∈ captured inputs outputs, ¬ r.Undefined :=
    fun r hr => (alone_ok_iff hO hinstalled r).mp (hall r hr)
  obtain ⟨-, hfiles, hflags, -⟩ := onPostRecording_marks O W hctx hall s
  rw [hrun, List.flatMap_map] at hfiles
  rw [hrun, hflag, List.any_map] at hflags
  obtain ⟨cts, hwritten, hholds⟩ := files_of_alone (W := W) hO hinstalled hdefined
    (Bool.or_eq_false_iff.mp hflags.symm).2
  exact ⟨cts, hfiles.trans (congrArg _ hwritten), hholds⟩

/-- A run that completes and leaves the failure flag clear has written one file for every record that
is not passed over, in order. The ciphertext of each has the elements, the towers and the known
moduli of the captured shape; it holds the captured values if and only if there are as many as
towers, each as long as the ring dimension. -/
theorem onPostRecording_faithful (hO : O.Lawful) (hinstalled : hctx.Installed O)
    {inputs : List CapturedInputRecord} {outputs : List (String × CapturedShape)}
    {s s' : HookState} (hrun : onPostRecording O W hctx inputs outputs s = (.ok (), s'))
    (hflag : s'.hadError = false) :
    ∃ cts : List Ciphertext,
      s'.files = s.files ++ List.zipWith CapturedRecord.file (unpassed inputs outputs) cts ∧
      List.Forall₂ (fun r ct => r.writer W ct = .ok true ∧
        ct.Holds hctx.towerDim r.shape.towers r.values ∧
        (ct.towers.map NativePoly.values = r.values ↔
          r.values.length = r.shape.towers.flatten.length ∧
            ∀ v ∈ r.values, v.length = hctx.towerDim)) (unpassed inputs outputs) cts := by
  obtain ⟨cts, hfiles, hholds⟩ := onPostRecording_written hO hinstalled hrun hflag
  refine ⟨cts, hfiles, hholds.imp fun r ct hct => ?_⟩
  exact ⟨hct.1, hct.2, hct.2.towers.values_eq_iff⟩

/-- Two inputs, of which the second has fewer values than its tower, and an output. -/
theorem onPostRecording_faithful_example :
    let inputs : List CapturedInputRecord := [⟨"x", ⟨.srp, [[17]]⟩, [1], [[1, 2, 3, 4]]⟩,
      ⟨"y", ⟨.srp, [[17]]⟩, [2], [[5, 6]]⟩]
    let outputs : List (String × CapturedShape) := [("z", ⟨.mrpArray, [[17, 17], [17, 17]]⟩)]
    ∃ cts : List Ciphertext,
      (onPostRecording plainFhe plainWriters fourDim inputs outputs .empty).2.files =
        [] ++ List.zipWith CapturedRecord.file (unpassed inputs outputs) cts ∧
      List.Forall₂ (fun r ct => r.writer plainWriters ct = .ok true ∧
        ct.Holds fourDim.towerDim r.shape.towers r.values ∧
        (ct.towers.map NativePoly.values = r.values ↔
          r.values.length = r.shape.towers.flatten.length ∧
            ∀ v ∈ r.values, v.length = fourDim.towerDim)) (unpassed inputs outputs) cts :=
  onPostRecording_faithful (s := .empty) plainFhe_lawful fourDim_installed (Prod.ext rfl rfl) rfl

end

end Bridge

end Haze
