import Haze.Bridge.Faithful
import Haze.Lib.Completion

/-!
# When the hook sets its failure flag

`CapturedRecord.Served` is the condition on a record for the library to make its ciphertext, in terms
of the contexts and the roots of unity that the library has. Where it fails the hook sets the flag
(`alone_flag`), and with writers that succeed nowhere else. With a library that has what it supports
the condition is one on the record alone, `CapturedRecord.Writable`, and `onPostRecording_flag` says
that a run sets the flag if and only if a record that is not passed over does not meet it. Nothing is
asked of the length of the values, nor of the number of values of a single polynomial.
-/

namespace Haze

namespace Bridge

open Expected (CompletesIff)

/-- A call that may throw completes when it does not. -/
theorem throwing_completesIff {α : Type} {x : Except String α} {C : Prop}
    (h : (∃ a, x = .ok a) ↔ C) : CompletesIff (throwing x) C := by
  refine .query fun _ => ?_
  rcases x with what | a
  · refine ⟨?_, fun hC => ?_⟩
    · rintro ⟨a, ha⟩
      cases ha
    · obtain ⟨a, ha⟩ := h.mpr hC
      cases ha
  · exact ⟨fun _ => h.mp ⟨a, rfl⟩, fun _ => ⟨a, rfl⟩⟩

/-- Reading an element completes within the bounds. -/
theorem readAt_completesIff {α : Type} (xs : List α) (i : ℕ) :
    CompletesIff (readAt xs i) (i < xs.length) := by
  unfold readAt
  split
  · rename_i h
    exact .fail _ (not_lt.mpr (List.getElem?_eq_none_iff.mp h))
  · rename_i h
    exact .pure _ (List.getElem?_eq_some_iff.mp h).1

/-- The moduli of a list that are known are supported. -/
def Supports (supported : UInt64 → Prop) (moduli : List UInt64) : Prop :=
  ∀ q ∈ moduli, isReal q = true → supported q

instance (supported : UInt64 → Prop) [DecidablePred supported] (moduli : List UInt64) :
    Decidable (Supports supported moduli) :=
  List.decidableBAll (fun q => isReal q = true → supported q) moduli

/-- The towers have a root of unity for each known modulus that is not theirs already. -/
def Rooted (O : OpenFhe) (corder : UInt32) (params : List NativeParams) (moduli : List UInt64) : Prop :=
  ∀ t ∈ params.zip moduli, isReal t.2 = true → t.1.modulus ≠ t.2 →
    ∃ root, O.rootOfUnity corder t.2 = .ok root

/-- A library that has the roots of what it supports has those of all supported moduli. -/
theorem OpenFhe.Reliable.rooted {O : OpenFhe} {ringDim : UInt64} {supported : UInt64 → Prop}
    {depth : ℕ} (hR : O.Reliable ringDim supported depth) {moduli : List UInt64}
    (hmoduli : Supports supported moduli) (params : List NativeParams) :
    Rooted O (2 * ringDim).toUInt32 params moduli :=
  fun t ht hreal _ => hR.roots t.2 (hmoduli t.2 (List.of_mem_zip ht).2 hreal)

/-- Lists of moduli that are all the same, with at least one modulus and no more than there are
towers. -/
def Uniform (towers : ℕ) (moduli : List (List UInt64)) : Prop :=
  ∃ front rest, moduli = front :: rest ∧ (∀ m ∈ rest, m = front) ∧
    0 < front.length ∧ front.length ≤ towers

section

variable {O : OpenFhe} {ctx : Context} {supported : UInt64 → Prop}
  (hS : O.Serves (2 * ctx.ringDim).toUInt32 supported)

include hS

/-! ## Moving and filling towers -/

/-- Towers are trimmed to a number that is positive and at most theirs. -/
theorem trimTowersTo_completesIff {dcrt : DCRTPoly} (h : dcrt ≠ []) (target : ℕ) :
    CompletesIff (trimTowersTo O dcrt target) (0 < target ∧ target ≤ dcrt.length) := by
  have hpos : 0 < dcrt.length := List.length_pos_of_ne_nil h
  unfold trimTowersTo
  split_ifs with hshallow hdeep
  · exact .fail _ (by omega)
  · exact throwing_completesIff ((hS.drops dcrt _).trans (by omega))
  · exact .pure _ (by omega)

/-- The modulus of a tower is switched to a known one when there is a root of unity for it. -/
theorem switchTowerModulus_completesIff (done rest : List NativeParams) (p : NativeParams)
    {q : UInt64} (hq : isReal q = true → supported q) :
    CompletesIff (switchTowerModulus O ((done ++ p :: rest).map NativeParams.zeros) done.length q
        (2 * ctx.ringDim).toUInt32)
      (isReal q = true → p.modulus ≠ q →
        ∃ root, O.rootOfUnity (2 * ctx.ringDim).toUInt32 q = .ok root) := by
  have ht : done.length < ((done ++ p :: rest).map NativeParams.zeros).length := by
    rw [List.length_map, List.length_append, List.length_cons]
    omega
  have hat : ((done ++ p :: rest).map NativeParams.zeros)[done.length]? = some p.zeros := by
    rw [List.getElem?_map, List.getElem?_append_right le_rfl, Nat.sub_self, List.getElem?_cons_zero,
      Option.map_some]
  unfold switchTowerModulus
  -- A modulus that stands for none asks for no root, and neither does the tower's own.
  by_cases hreal : isReal q = true
  · rw [if_neg (by rw [hreal]; decide)]
    refine CompletesIff.congr (CompletesIff.bind (readAt_completesIff _ _) (Returns.readAt hat rfl)
      fun np hnp _ => ?_) (and_iff_right ht)
    subst hnp
    rw [NativeParams.zeros_params]
    split_ifs with hmodulus
    · exact .pure _ fun _ hne => absurd hmodulus hne
    rcases hroot : O.rootOfUnity (2 * ctx.ringDim).toUInt32 q with what | root
    · refine .fail _ fun hsome => ?_
      obtain ⟨root, hroot⟩ := hsome hreal hmodulus
      cases hroot
    · obtain ⟨d', hd'⟩ := hS.switches _ _ q root ht (hq hreal) hroot
      have hswitch := throwing_completesIff
        (C := isReal q = true → p.modulus ≠ q → ∃ r, Except.ok root = (.ok r : Except String UInt64))
        ⟨fun _ _ _ => ⟨root, rfl⟩, fun _ => ⟨d', hd'⟩⟩
      exact fun s => hswitch s
  · rw [if_pos (by rw [Bool.not_eq_true] at hreal; rw [hreal]; decide)]
    exact .pure _ fun h => absurd h hreal

/-- So are those of all towers. -/
theorem switchTowers_completesIff {moduli : List UInt64} (hmoduli : Supports supported moduli)
    (done : List NativeParams) {params : List NativeParams} (h : moduli.length ≤ params.length) :
    CompletesIff ((moduli.zipIdx done.length).foldlM
        (fun dcrt q => switchTowerModulus O dcrt q.2 q.1 (2 * ctx.ringDim).toUInt32)
        ((done ++ params).map NativeParams.zeros))
      (Rooted O (2 * ctx.ringDim).toUInt32 params moduli) := by
  unfold Rooted
  -- By induction on the moduli that are left; the towers done so far come before the others.
  induction moduli generalizing done params with
  | nil =>
    rw [List.zip_nil_right]
    exact .pure _ fun t ht => absurd ht List.not_mem_nil
  | cons q moduli ih =>
    rcases params with _ | ⟨p, params⟩
    · cases h
    rw [List.zipIdx_cons, List.foldlM_cons, List.zip_cons_cons, List.forall_mem_cons]
    refine CompletesIff.bind (switchTowerModulus_completesIff hS done params p
      (hmoduli q (List.mem_cons_self ..)))
      (switchTowerModulus_returns hS.toLawful done params p q _) fun d hd _ => ?_
    subst hd
    have hlength : moduli.length ≤ params.length := Nat.le_of_succ_le_succ h
    have hrest := ih (fun q hq => hmoduli q (List.mem_cons_of_mem _ hq))
      (done ++ [p.install q]) hlength
    rw [List.length_append, List.length_singleton, List.append_assoc, List.singleton_append] at hrest
    exact hrest

/-- An element can be moved to at least one modulus, to no more than it has towers, and where there
are roots of unity. -/
theorem rebaseTowers_completesIff {moduli : List UInt64} (hmoduli : Supports supported moduli)
    {params : List NativeParams} (h : params ≠ []) :
    CompletesIff (rebaseTowers O ctx moduli (params.map NativeParams.zeros))
      ((0 < moduli.length ∧ moduli.length ≤ params.length) ∧
        Rooted O (2 * ctx.ringDim).toUInt32 params moduli) := by
  refine CompletesIff.congr (CompletesIff.bind
    (D := Rooted O (2 * ctx.ringDim).toUInt32 params moduli) (trimTowersTo_completesIff hS ?_ _)
    (trimTowersTo_returns hS.toLawful moduli.length params) fun dcrt hdcrt _ => ?_) ?_
  · rwa [ne_eq, List.map_eq_nil_iff]
  · obtain ⟨hlength, rfl⟩ := hdcrt
    have hzip : params.zip moduli = (params.take moduli.length).zip moduli := by
      rw [List.zip_eq_zip_take_min, Nat.min_eq_right hlength, List.take_length]
    have htake : moduli.length ≤ (params.take moduli.length).length := by
      rw [List.length_take]
      omega
    have hloop := switchTowers_completesIff hS hmoduli [] htake
    unfold Rooted at hloop ⊢
    rw [hzip]
    exact hloop
  · rw [List.length_map]

/-- Towers are filled when there are values for each. -/
theorem fillTowers_completesIff (diag : ℕ → String) {values : List (List UInt64)}
    {towers : DCRTPoly} (h : towers.length ≤ values.length) :
    CompletesIff (fillTowers O diag values towers) True := by
  refine CompletesIff.congr (CompletesIff.mapEach (P := fun _ => True) fun t ht => ?_)
    (iff_true_intro fun _ _ => trivial)
  have hlt : t.2 < values.length := lt_of_lt_of_le (List.snd_lt_of_mem_zipIdx ht) h
  refine CompletesIff.congr (CompletesIff.bind_any (D := True) (readAt_completesIff values t.2)
    fun v => ?_) (by rw [and_true, iff_true]; exact hlt)
  unfold fillNativePoly
  split_ifs with hlength
  · exact (CompletesIff.bind_any (.modify _ trivial) fun _ => .pure _ trivial).congr
      (and_self_iff (a := True))
  · rw [not_not] at hlength
    obtain ⟨np', hnp'⟩ := hS.sets t.1 v hlength
    exact throwing_completesIff ⟨fun _ => trivial, fun _ => ⟨np', hnp'⟩⟩

/-- The towers of one element are filled from its row. -/
theorem fillElement_completesIff (shared : List UInt64) {rows : List (List (List UInt64))}
    {element : DCRTPoly × ℕ} {row : List (List UInt64)} (hrow : rows[element.2]? = some row)
    (hsize : row.length = shared.length) (hlength : element.1.length ≤ shared.length) :
    CompletesIff (fillElement O shared rows element) True := by
  have hlt : element.2 < rows.length := (List.getElem?_eq_some_iff.mp hrow).1
  unfold fillElement
  refine CompletesIff.congr (CompletesIff.bind (D := True) (readAt_completesIff _ _)
    (Returns.readAt hrow rfl) fun row' hrow' _ => ?_) (by rw [and_true, iff_true]; exact hlt)
  subst hrow'
  rw [if_neg (not_not.mpr hsize)]
  exact fillTowers_completesIff hS _ (hlength.trans hsize.ge)

/-! ## Synthesizing a ciphertext -/

variable (hparams : ctx.cc.params ≠ [])

include hparams

/-- A single residue is synthesized when there is a root of unity for its modulus. -/
theorem synthesizeHazeCiphertext_completesIff {modulus : UInt64}
    (hmodulus : Supports supported [modulus]) (values : List UInt64) :
    CompletesIff (synthesizeHazeCiphertext O ctx modulus values)
      (Rooted O (2 * ctx.ringDim).toUInt32 ctx.cc.params [modulus]) := by
  have hpos : 0 < ctx.cc.params.length := List.length_pos_of_ne_nil hparams
  unfold synthesizeHazeCiphertext
  refine CompletesIff.congr (CompletesIff.bind (readAt_completesIff _ _)
    (Returns.readAt rfl rfl) fun dcrt hdcrt _ => ?_) (and_iff_right Nat.one_pos)
  subst hdcrt
  refine CompletesIff.congr (CompletesIff.bind (D := True)
    (rebaseTowers_completesIff hS hmodulus hparams) (rebaseTowers_returns hS.toLawful _ _)
    fun dcrt hdcrt _ => ?_) (by rw [and_true]; exact and_iff_right ⟨Nat.one_pos, hpos⟩)
  obtain ⟨-, rfl⟩ := hdcrt
  split_ifs
  · exact .pure _ trivial
  · refine (CompletesIff.bind_any (fillTowers_completesIff hS _ ?_) fun _ => .pure _ trivial).congr
      (and_self_iff (a := True))
    rw [List.length_map, List.length_zipWith]
    exact Nat.min_le_right _ _

/-- Residues are synthesized when the context has a tower and the roots of unity for each, and there
are values for each or none. -/
theorem synthesizeHazeMrpCiphertext_completesIff {moduli : List UInt64}
    (hmoduli : Supports supported moduli) (values : List (List UInt64)) :
    CompletesIff (synthesizeHazeMrpCiphertext O ctx moduli values)
      (((0 < moduli.length ∧ moduli.length ≤ ctx.cc.params.length) ∧
        Rooted O (2 * ctx.ringDim).toUInt32 ctx.cc.params moduli) ∧
          (values = [] ∨ values.length = moduli.length)) := by
  -- The first element of the shell is read, its towers are rebased, and then they are filled.
  unfold synthesizeHazeMrpCiphertext
  refine CompletesIff.congr (CompletesIff.bind (readAt_completesIff _ _) (Returns.readAt rfl rfl)
    fun dcrt hdcrt _ => ?_) (and_iff_right Nat.one_pos)
  subst hdcrt
  refine CompletesIff.bind (rebaseTowers_completesIff hS hmoduli hparams)
    (rebaseTowers_returns hS.toLawful _ _) fun dcrt hdcrt _ => ?_
  obtain ⟨-, rfl⟩ := hdcrt
  -- No values leave the towers zero; any others have to be one for each tower.
  split_ifs with hempty hsizes
  · exact .pure _ (.inl hempty)
  · refine .fail _ ?_
    rintro (h | h)
    · exact hempty h
    · exact hsizes h
  · rw [not_not] at hsizes
    refine (CompletesIff.bind_any (D := True) (fillTowers_completesIff hS _ ?_)
      fun _ => .pure _ trivial).congr ?_
    · rw [List.length_map, List.length_zipWith, hsizes]
      exact Nat.min_le_right _ _
    · rw [and_self_iff, true_iff]
      exact .inr hsizes

/-- An array is synthesized when all its elements have the same moduli and the context has a tower
and the roots of unity for each. -/
theorem synthesizeHazeArrayCiphertext_completesIff {moduli : List (List UInt64)}
    (hmoduli : ∀ m ∈ moduli, Supports supported m) (rows : List (List (List UInt64)))
    (hrows : rows ≠ [] → rows.map List.length = moduli.map List.length) :
    CompletesIff (synthesizeHazeArrayCiphertext O ctx moduli rows)
      (Uniform ctx.cc.params.length moduli ∧
        ∀ m ∈ moduli, Rooted O (2 * ctx.ringDim).toUInt32 ctx.cc.params m) := by
  -- A shape without elements has no front, and the source throws on it.
  rcases moduli with _ | ⟨front, rest⟩
  · refine .fail _ ?_
    rintro ⟨⟨front, rest, hcons, -⟩, -⟩
    cases hcons
  dsimp only [synthesizeHazeArrayCiphertext]
  -- The moduli of the elements agree, or the call fails before it writes anything.
  rcases hfind : heterogeneous front rest with _ | m
  · have hall := eq_replicate_of_heterogeneous hfind
    have hfront := hmoduli front (List.mem_cons_self ..)
    have hcount : 0 < rest.length + 1 := rest.length.succ_pos
    refine CompletesIff.congr (CompletesIff.bind (D := True)
      (CompletesIff.mapEach (P := fun _ => (0 < front.length ∧
        front.length ≤ ctx.cc.params.length) ∧
          Rooted O (2 * ctx.ringDim).toUInt32 ctx.cc.params front) fun dcrt hdcrt => ?_)
      (Returns.mapEach_of (g := fun _ =>
        (List.zipWith NativeParams.install ctx.cc.params front).map NativeParams.zeros)
        (C := front.length ≤ ctx.cc.params.length) fun dcrt hdcrt => ?_)
      fun elements helements hdepth => ?_) ?_
    -- Every element is rebased onto the same moduli.
    · rw [List.eq_of_mem_replicate hdcrt]
      exact rebaseTowers_completesIff hS hfront hparams
    · rw [List.eq_of_mem_replicate hdcrt]
      exact rebaseTowers_returns hS.toLawful _ _
    -- With the towers in place, the rows are filled in one by one.
    · obtain ⟨-, rfl⟩ := helements
      rw [hall] at hrows
      simp only [emptyCtShell, List.map_replicate, hall, List.length_replicate]
      split_ifs with hempty hsizes
      · exact .pure _ trivial
      · have hlength := congrArg List.length (hrows hempty)
        rw [List.length_map, List.length_map, List.length_replicate] at hlength
        exact absurd hlength hsizes
      · rw [not_not] at hsizes
        refine (CompletesIff.bind_any (CompletesIff.mapEach (P := fun _ => True)
          fun element helement => ?_) fun _ => .pure (C := True) _ trivial).congr ?_
        -- Each row is as long as its element.
        · have hlt : element.2 < rows.length := by
            have hlt := List.snd_lt_of_mem_zipIdx helement
            rw [List.length_replicate] at hlt
            omega
          refine fillElement_completesIff hS front (List.getElem?_eq_getElem hlt) ?_ ?_
          · have hmem := List.mem_map_of_mem (f := List.length) (List.getElem_mem hlt)
            rw [hrows hempty, List.map_replicate] at hmem
            exact List.eq_of_mem_replicate hmem
          · rw [List.eq_of_mem_replicate (List.fst_mem_of_mem_zipIdx helement), List.length_map,
              List.length_zipWith]
            exact Nat.min_le_right _ _
        · exact iff_true_intro ⟨fun _ _ => trivial, trivial⟩
    -- Together the conditions say that the shape is uniform and fits the chain.
    · rw [and_true]
      constructor
      · intro h
        obtain ⟨⟨hpos, hle⟩, hrooted⟩ := h _ (List.mem_replicate.mpr ⟨hcount.ne', rfl⟩)
        refine ⟨⟨front, rest, rfl, heterogeneous_eq_none.mp hfind, hpos, hle⟩, fun m hm => ?_⟩
        rw [hall] at hm
        rw [List.eq_of_mem_replicate hm]
        exact hrooted
      · rintro ⟨⟨front', rest', hcons, -, hpos, hle⟩, hrooted⟩ _ -
        cases hcons
        exact ⟨⟨hpos, hle⟩, hrooted front (List.mem_cons_self ..)⟩
  · refine .fail _ ?_
    rintro ⟨⟨front', rest', hcons, hsame, -⟩, -⟩
    cases hcons
    rw [heterogeneous_eq_none.mpr hsame] at hfind
    cases hfind

omit hS hparams in
/-- The values are cut into rows when there is one for each residue, or none. -/
theorem arrayRows_completesIff (values moduli : List (List UInt64)) :
    CompletesIff (arrayRows values moduli) (values = [] ∨ values.length = moduli.flatten.length) := by
  rw [List.length_flatten]
  unfold arrayRows
  split_ifs with hempty
  · exact .pure _ (.inl hempty)
  · by_cases htotal : values.length = (moduli.map List.length).sum
    · rw [sliceArrayValues_of_eq values moduli htotal]
      exact .pure _ (.inr htotal)
    · rw [sliceArrayValues_of_ne values moduli htotal]
      refine .fail _ ?_
      rintro (h | h)
      · exact hempty h
      · exact htotal h

/-- A ciphertext can be synthesized for a single polynomial always, and otherwise for uniform moduli
and with no values or as many as there are moduli. -/
def CapturedShape.Synthesizable (towers : ℕ) (shape : CapturedShape)
    (values : List (List UInt64)) : Prop :=
  shape.kind = .srp ∨
    Uniform towers shape.towers ∧ (values = [] ∨ values.length = shape.towers.flatten.length)

/-- An array is synthesized from values when both hold. -/
theorem synthesizeArray_completesIff {moduli : List (List UInt64)}
    (hmoduli : ∀ m ∈ moduli, Supports supported m) (values : List (List UInt64)) :
    CompletesIff (arrayRows values moduli >>= synthesizeHazeArrayCiphertext O ctx moduli)
      ((Uniform ctx.cc.params.length moduli ∧
        (values = [] ∨ values.length = moduli.flatten.length)) ∧
          ∀ m ∈ moduli, Rooted O (2 * ctx.ringDim).toUInt32 ctx.cc.params m) :=
  (CompletesIff.bind (arrayRows_completesIff values moduli) (arrayRows_returns values moduli)
    fun rows hrows _ => synthesizeHazeArrayCiphertext_completesIff hS hparams hmoduli rows
      hrows.2).congr (and_left_comm.trans and_assoc.symm)

omit hS hparams in
/-- The modulus of a single residue is supported when those of its shape are. -/
theorem supports_srpModulus {moduli : List (List UInt64)}
    (hmoduli : ∀ m ∈ moduli, Supports supported m) : Supports supported [srpModulus moduli] := by
  intro q hq hreal
  rw [List.mem_singleton] at hq
  subst hq
  rcases moduli with _ | ⟨m, moduli⟩
  · exact absurd hreal (by decide)
  rcases m with _ | ⟨q, m⟩
  · change isReal kCopyModulus = true at hreal
    exact absurd hreal (by decide)
  exact hmoduli _ (List.mem_cons_self ..) q (List.mem_cons_self ..) hreal

/-- A shape that has moduli is synthesized when it is `Synthesizable` and there are roots of unity for
its moduli. -/
theorem synthesizeForShape_completesIff (shape : CapturedShape)
    (hmoduli : ∀ m ∈ shape.perElementModuli, Supports supported m) (values : List (List UInt64))
    (hdefined : shape.kind = .mrp → shape.perElementModuli ≠ []) :
    CompletesIff (synthesizeForShape O ctx shape values)
      (shape.Synthesizable ctx.cc.params.length values ∧
        ∀ m ∈ shape.towers, Rooted O (2 * ctx.ringDim).toUInt32 ctx.cc.params m) := by
  obtain ⟨kind, moduli⟩ := shape
  -- Single values need no shape; a list of elements is the one-element array of them.
  cases kind with
  | srp =>
    refine (synthesizeHazeCiphertext_completesIff hS hparams (supports_srpModulus hmoduli) _).congr ?_
    refine ⟨fun hrooted => ⟨.inl rfl, fun m hm => ?_⟩, fun h => h.2 _ (List.mem_cons_self ..)⟩
    rw [List.mem_singleton.mp hm]
    exact hrooted
  | mrp =>
    rcases moduli with _ | ⟨front, rest⟩
    · exact absurd rfl (hdefined rfl)
    refine CompletesIff.congr (CompletesIff.bind (readAt_completesIff _ _)
      (Returns.readAt (Q := (· = front)) rfl rfl) fun m hm _ => ?_)
      (and_iff_right (rest.length.succ_pos))
    subst hm
    refine (synthesizeHazeMrpCiphertext_completesIff hS hparams
      (hmoduli _ (List.mem_cons_self ..)) values).congr ?_
    change _ ↔ (_ ∨ Uniform _ [m] ∧ (_ ∨ _ = [m].flatten.length)) ∧ ∀ m' ∈ [m], _
    rw [List.flatten_singleton, List.forall_mem_singleton]
    constructor
    · rintro ⟨⟨hsize, hrooted⟩, hvalues⟩
      exact ⟨.inr ⟨⟨m, [], rfl, fun m' hm' => absurd hm' List.not_mem_nil, hsize⟩, hvalues⟩, hrooted⟩
    · rintro ⟨hsrp | ⟨⟨front', rest', hcons, -, hsize⟩, hvalues⟩, hrooted⟩
      · cases hsrp
      · cases hcons
        exact ⟨⟨hsize, hrooted⟩, hvalues⟩
  | srpArray =>
    refine (synthesizeArray_completesIff hS hparams hmoduli values).congr ?_
    exact and_congr_left' (or_iff_right (by rintro ⟨⟩)).symm
  | mrpArray =>
    refine (synthesizeArray_completesIff hS hparams hmoduli values).congr ?_
    exact and_congr_left' (or_iff_right (by rintro ⟨⟩)).symm

end

/-! ## Records -/

/-- A record that the library serves: there is a context for its shape, which has the towers for it,
and a root of unity for every modulus that a tower is moved to. -/
def CapturedRecord.Served (O : OpenFhe) (hctx : HookCtx) (r : CapturedRecord) : Prop :=
  ∃ ctx, r.shape.selected O hctx = some ctx ∧
    r.shape.Synthesizable ctx.cc.params.length r.values ∧
      ∀ m ∈ r.shape.towers, Rooted O (2 * ctx.ringDim).toUInt32 ctx.cc.params m

section

variable {O : OpenFhe} {W : Writers} {hctx : HookCtx} {supported : UInt64 → Prop}
  (hS : O.Serves (2 * hctx.ringDim).toUInt32 supported) (hinstalled : hctx.Installed O)

include hS hinstalled

/-- Writing a record alone sets the flag where the library does not serve it, and only there if the
writer succeeds. -/
theorem writeRecord_flag {r : CapturedRecord}
    (hmoduli : ∀ m ∈ r.shape.perElementModuli, Supports supported m)
    (hdefined : r.shape.kind = .mrp → r.shape.perElementModuli ≠ [])
    (text unavailable failed : String) :
    (¬ r.Served O hctx → (catching text (writeRecord O hctx (builtContext O hctx) r.shape r.values
      unavailable failed (r.writer W) r.file) .empty).2.hadError = true) ∧
    (r.Served O hctx → (∀ ct, r.writer W ct = .ok true) → (catching text (writeRecord O hctx
      (builtContext O hctx) r.shape r.values unavailable failed (r.writer W) r.file)
        .empty).2.hadError = false) := by
  have htriple := writeRecord_triple (W := W) hS.toLawful hinstalled r hdefined unavailable failed
    .empty ⟨rfl, rfl⟩
  unfold catching
  rw [Expected.attempt_bind_run]
  -- Either a context serves the shape, or there is none and the record is reported.
  rcases contextForShape_run (O := O) r.shape .empty with
    ⟨ctx, hselected, hrun⟩ | ⟨hselected, hrun⟩
  · obtain ⟨hdim, hparams, -⟩ :=
      CapturedShape.selected_params hS.toLawful hinstalled hselected
    have hS' : O.Serves (2 * ctx.ringDim).toUInt32 supported := hdim.symm ▸ hS
    have hserved : r.Served O hctx ↔
        ∃ ct, (synthesizeForShape O ctx r.shape r.values []).1 = .ok ct := by
      rw [synthesizeForShape_completesIff hS' hparams r.shape hmoduli r.values hdefined []]
      unfold CapturedRecord.Served
      rw [hselected]
      constructor
      · rintro ⟨ctx', hsome, hsynth⟩
        cases hsome
        exact hsynth
      · exact fun hsynth => ⟨ctx, rfl, hsynth⟩
    rw [hserved]
    -- Under a context the flag is the exception of the synthesis.
    rcases hsynth : synthesizeForShape O ctx r.shape r.values [] with ⟨e | ct, log⟩
    · have hfails : writeRecord O hctx (builtContext O hctx) r.shape r.values unavailable failed
          (r.writer W) r.file .empty = (.error e, { HookState.empty with log := log }) := by
        unfold writeRecord
        rw [Expected.bind_run_ok hrun]
        refine Expected.bind_run_error ?_
        change ((synthesizeForShape O ctx r.shape r.values []).1,
          { HookState.empty with log := (synthesizeForShape O ctx r.shape r.values []).2 }) = _
        rw [hsynth]
      rw [hfails] at htriple ⊢
      rcases e with what | _
      · refine ⟨fun _ => rfl, ?_⟩
        rintro ⟨ct, hct⟩
        cases hct
      · exact absurd rfl htriple.1
    · refine ⟨fun hnone => absurd ⟨ct, rfl⟩ hnone, fun _ hwriter => ?_⟩
      have hwrites : writeRecord O hctx (builtContext O hctx) r.shape r.values unavailable failed
          (r.writer W) r.file .empty =
            (.ok (), HookState.write (r.file ct) { HookState.empty with log := log }) := by
        unfold writeRecord
        rw [Expected.bind_run_ok hrun]
        refine (Expected.bind_run_ok
          (show _ = (Except.ok ct, { HookState.empty with log := log }) from ?_)).trans ?_
        · change ((synthesizeForShape O ctx r.shape r.values []).1,
            { HookState.empty with log := (synthesizeForShape O ctx r.shape r.values []).2 }) = _
          rw [hsynth]
        · rw [hwriter ct]
          rfl
      rw [hwrites]
      rfl
  · refine ⟨fun _ => ?_, ?_⟩
    · unfold writeRecord
      rcases hrun with ⟨body, hrun⟩ | ⟨what, hrun⟩
      · rw [Expected.bind_run_ok hrun]
        rfl
      · rw [Expected.bind_run_error hrun]
        rfl
    · rintro ⟨ctx, hsome, -⟩
      rw [hselected] at hsome
      cases hsome

/-- Alone, a record that is not passed over sets the flag where the library does not serve it, and
only there if the writer succeeds. -/
theorem alone_flag {r : CapturedRecord} (hpassed : r.passed = false)
    (hmoduli : ∀ m ∈ r.shape.perElementModuli, Supports supported m) (hdefined : ¬ r.Undefined) :
    (¬ r.Served O hctx → (alone O W hctx r).2.hadError = true) ∧
      (r.Served O hctx → (∀ ct, r.writer W ct = .ok true) →
        (alone O W hctx r).2.hadError = false) := by
  obtain ⟨text, unavailable, failed, heq⟩ :=
    captureRecord_eq O W hctx (builtContext O hctx) r
  unfold alone
  rw [heq, if_neg (by rw [hpassed]; decide)]
  exact writeRecord_flag hS hinstalled hmoduli
    (fun hkind hempty => hdefined ⟨hpassed, hkind, hempty⟩) _ _ _

variable {inputs : List CapturedInputRecord} {outputs : List (String × CapturedShape)}
  (hmoduli : ∀ r ∈ unpassed inputs outputs, ∀ m ∈ r.shape.perElementModuli, Supports supported m)
  (hdefined : ∀ r ∈ captured inputs outputs, ¬ r.Undefined)

include hmoduli hdefined

/-- A record that the library does not serve sets the failure flag. -/
theorem any_flag_of_unserved (h : ∃ r ∈ unpassed inputs outputs, ¬ r.Served O hctx) :
    ∃ r ∈ captured inputs outputs, (alone O W hctx r).2.hadError = true := by
  obtain ⟨r, hr, hserved⟩ := h
  obtain ⟨hcaptured, hpassed⟩ := List.mem_filter.mp hr
  rw [Bool.not_eq_true'] at hpassed
  exact ⟨r, hcaptured, (alone_flag hS hinstalled hpassed (hmoduli r hr)
    (hdefined r hcaptured)).1 hserved⟩

/-- With writers that succeed, no other record sets the flag. -/
theorem any_flag_iff_unserved
    (hwriter : ∀ r ∈ unpassed inputs outputs, ∀ ct, r.writer W ct = .ok true) :
    (∃ r ∈ captured inputs outputs, (alone O W hctx r).2.hadError = true) ↔
      ∃ r ∈ unpassed inputs outputs, ¬ r.Served O hctx := by
  refine ⟨?_, any_flag_of_unserved hS hinstalled hmoduli hdefined⟩
  rintro ⟨r, hr, hflag⟩
  -- A record that was passed on raises no flag, so only the others count.
  have hpassed : r.passed = false := by
    by_contra hpassed
    have hempty := (alone_outcome (W := W) hS.toLawful hinstalled (hdefined r hr)).2
    rw [if_pos (Bool.eq_true_of_not_eq_false hpassed)] at hempty
    rw [hempty] at hflag
    cases hflag
  have hr' : r ∈ unpassed inputs outputs := List.mem_filter.mpr ⟨hr, by rw [hpassed]; rfl⟩
  refine ⟨r, hr', fun hserved => ?_⟩
  rw [(alone_flag hS hinstalled hpassed (hmoduli r hr') (hdefined r hr)).2 hserved
    (hwriter r hr')] at hflag
  cases hflag

end

/-- The number of towers that there are for a shape: those of the primary context if a modulus of the
front element is not known, and otherwise one for each of its moduli. -/
def CapturedShape.available (hctx : HookCtx) (shape : CapturedShape) : ℕ :=
  match shape.perElementModuli with
  | [] => hctx.primary.cc.params.length
  | front :: _ =>
    if front = [] ∨ front.any (fun q => !isReal q) then hctx.primary.cc.params.length
    else front.length

/-- A record that the hook can write. -/
def CapturedRecord.Writable (hctx : HookCtx) (r : CapturedRecord) : Prop :=
  r.shape.Synthesizable (r.shape.available hctx) r.values

/-- The moduli of a shape are within what a library supports. -/
def CapturedShape.Supported (supported : UInt64 → Prop) (depth : ℕ) (shape : CapturedShape) : Prop :=
  ∀ m ∈ shape.perElementModuli, Supports supported m ∧ m.length ≤ depth

instance (supported : UInt64 → Prop) [DecidablePred supported] (depth : ℕ) (shape : CapturedShape) :
    Decidable (shape.Supported supported depth) :=
  inferInstanceAs (Decidable
    (∀ m ∈ shape.perElementModuli, Supports supported m ∧ m.length ≤ depth))

section

variable {O : OpenFhe} {W : Writers} {hctx : HookCtx} {supported : UInt64 → Prop} {depth : ℕ}
  (hR : O.Reliable hctx.ringDim supported depth)

include hR

/-- With supported moduli, at most as many as the library can chain, a context is built. -/
theorem buildContext_reliable {moduli : List UInt64} (hne : moduli ≠ [])
    (hmoduli : ∀ q ∈ moduli, supported q) (hdepth : moduli.length ≤ depth) :
    ∃ ctx, buildContext O hctx.ringDim moduli = .ok (.ok ctx) ∧
      moduli.length ≤ ctx.cc.params.length := by
  rcases moduli with _ | ⟨front, rest⟩
  · exact absurd rfl hne
  obtain ⟨cc, hgen, hlength⟩ := hR.contexts front rest hmoduli hdepth
  have hparams : cc.params ≠ [] := List.ne_nil_of_length_pos (lt_of_lt_of_le rest.length.succ_pos hlength)
  refine ⟨⟨hctx.ringDim, cc⟩, ?_, hlength⟩
  dsimp only [buildContext]
  rw [hgen]
  change (if cc.params = [] then _ else _) = _
  rw [if_neg hparams]
  rfl

/-- A context that was selected has the towers that are counted on, and none is selected only for an
array that is not uniform. -/
theorem selected_reliable {shape : CapturedShape} (hshape : shape.Supported supported depth) :
    (∃ ctx, shape.selected O hctx = some ctx ∧
      ∀ values, shape.Synthesizable ctx.cc.params.length values ↔
        shape.Synthesizable (shape.available hctx) values) ∨
    (shape.selected O hctx = none ∧
      ∀ values, ¬ shape.Synthesizable (shape.available hctx) values) := by
  -- Where no moduli are asked for, the primary context is taken as it is.
  rcases hmoduli : shape.perElementModuli with _ | ⟨front, rest⟩
  · refine .inl ⟨hctx.primary, ?_, fun values => ?_⟩
    · simp only [CapturedShape.selected, hmoduli]
    · simp only [CapturedShape.available, hmoduli]
  by_cases hunknown : front = [] ∨ front.any (fun q => !isReal q) = true
  · refine .inl ⟨hctx.primary, ?_, fun values => ?_⟩
    · simp only [CapturedShape.selected, hmoduli, if_pos hunknown]
    · simp only [CapturedShape.available, hmoduli, if_pos hunknown]
  have havailable : shape.available hctx = front.length := by
    simp only [CapturedShape.available, hmoduli, if_neg hunknown]
  -- The towers of any other kind start with the front, so both sides speak of one list.
  have htowers : shape.kind ≠ .srp → ∃ rest', shape.towers = front :: rest' := by
    obtain ⟨kind, moduli⟩ := shape
    dsimp only at hmoduli
    subst hmoduli
    cases kind with
    | srp => exact fun hne => absurd rfl hne
    | mrp => exact fun _ => ⟨[], rfl⟩
    | srpArray => exact fun _ => ⟨rest, rfl⟩
    | mrpArray => exact fun _ => ⟨rest, rfl⟩
  rcases hmismatch : shape.mismatch front rest with _ | m
  -- The moduli are real and agree: the library then builds a context long enough for them.
  · have hknown := hunknown
    rw [not_or, Bool.not_eq_true, List.any_eq_false] at hknown
    have hreal : ∀ q ∈ front, isReal q = true := by
      intro q hq
      have hq := hknown.2 q hq
      rwa [Bool.not_eq_true', Bool.not_eq_false] at hq
    obtain ⟨hsupports, hdepth⟩ := hshape front (hmoduli ▸ List.mem_cons_self ..)
    obtain ⟨ctx, hbuilt, hlength⟩ := buildContext_reliable hR hknown.1
      (fun q hq => hsupports q hq (hreal q hq)) hdepth
    refine .inl ⟨ctx, ?_, fun values => ?_⟩
    · simp only [CapturedShape.selected, hmoduli, if_neg hunknown, hmismatch, hbuilt]
    · rw [havailable]
      refine or_congr_right' fun hsrp => and_congr_left' ?_
      obtain ⟨rest', hcons⟩ := htowers hsrp
      rw [hcons]
      constructor
      · rintro ⟨front', rest'', heq, hsame, hpos, -⟩
        cases heq
        exact ⟨front, rest', rfl, hsame, hpos, le_rfl⟩
      · rintro ⟨front', rest'', heq, hsame, hpos, -⟩
        cases heq
        exact ⟨front, rest', rfl, hsame, hpos, hlength⟩
  -- Moduli that differ between elements leave no context, and such a shape cannot be synthesised.
  · refine .inr ⟨?_, fun values => ?_⟩
    · simp only [CapturedShape.selected, hmoduli, if_neg hunknown, hmismatch]
    · obtain ⟨kind, moduli⟩ := shape
      dsimp only at hmoduli
      subst hmoduli
      have hfind : heterogeneous front rest = some m ∧ kind ≠ .srp ∧
          CapturedShape.towers ⟨kind, front :: rest⟩ = front :: rest := by
        cases kind with
        | srp => cases hmismatch
        | mrp => cases hmismatch
        | srpArray => exact ⟨hmismatch, by rintro ⟨⟩, rfl⟩
        | mrpArray => exact ⟨hmismatch, by rintro ⟨⟩, rfl⟩
      rintro (hsrp | ⟨⟨front', rest', hcons, hsame, -⟩, -⟩)
      · exact hfind.2.1 hsrp
      · rw [hfind.2.2] at hcons
        cases hcons
        rw [heterogeneous_eq_none.mpr hsame] at hfind
        cases hfind.1

omit hR in
/-- The moduli of a shape's towers are supported when those of its elements are. -/
theorem supports_towers {shape : CapturedShape} (hshape : shape.Supported supported depth)
    {m : List UInt64} (hm : m ∈ shape.towers) : Supports supported m := by
  obtain ⟨kind, moduli⟩ := shape
  cases kind with
  | srp =>
    rw [List.mem_singleton.mp hm]
    exact supports_srpModulus fun m' hm' => (hshape m' hm').1
  | mrp =>
    rw [List.mem_singleton.mp hm]
    rcases moduli with _ | ⟨front, rest⟩
    · exact fun q hq => absurd hq List.not_mem_nil
    · exact (hshape front (List.mem_cons_self ..)).1
  | srpArray => exact (hshape m hm).1
  | mrpArray => exact (hshape m hm).1

/-- The library serves a supported record if and only if it can be written. -/
theorem served_iff_writable (hinstalled : hctx.Installed O) {r : CapturedRecord}
    (hshape : r.shape.Supported supported depth) : r.Served O hctx ↔ r.Writable hctx := by
  unfold CapturedRecord.Served CapturedRecord.Writable
  rcases selected_reliable hR hshape with ⟨ctx, hselected, hwritable⟩ | ⟨hselected, hbad⟩
  · rw [hselected, ← hwritable]
    constructor
    · rintro ⟨ctx', hsome, hsynth, -⟩
      cases hsome
      exact hsynth
    · refine fun hsynth => ⟨ctx, rfl, hsynth, fun m hm => ?_⟩
      rw [(CapturedShape.selected_params hR.toLawful hinstalled hselected).1]
      exact hR.rooted (supports_towers hshape hm) _
  · rw [hselected]
    refine iff_of_false ?_ (hbad r.values)
    rintro ⟨ctx, hsome, -⟩
    cases hsome

/-- Some record alone sets the failure flag if and only if a record that is not passed over cannot be
written. -/
theorem alone_any_flag (hinstalled : hctx.Installed O)
    {inputs : List CapturedInputRecord} {outputs : List (String × CapturedShape)}
    (hshape : ∀ r ∈ unpassed inputs outputs, r.shape.Supported supported depth)
    (hwriter : ∀ r ∈ unpassed inputs outputs, ∀ ct, r.writer W ct = .ok true)
    (hdefined : ∀ r ∈ unpassed inputs outputs, ¬ r.Undefined) :
    (∀ r ∈ captured inputs outputs, (alone O W hctx r).1 = .ok ()) ∧
      ((∃ r ∈ captured inputs outputs, (alone O W hctx r).2.hadError = true) ↔
        ∃ r ∈ unpassed inputs outputs, ¬ r.Writable hctx) := by
  have hnone : ∀ r ∈ captured inputs outputs, ¬ r.Undefined := fun r hr hundefined =>
    hdefined r (List.mem_filter.mpr ⟨hr, by rw [hundefined.1]; rfl⟩) hundefined
  refine ⟨fun r hr => (alone_ok_iff hR.toLawful hinstalled r).mpr (hnone r hr), ?_⟩
  rw [any_flag_iff_unserved hR.serves hinstalled (fun r hr m hm => (hshape r hr m hm).1) hnone
    hwriter]
  refine exists_congr fun r => and_congr_right fun hr => not_congr ?_
  exact served_iff_writable hR hinstalled (hshape r hr)

/-- With a library and writers that succeed where they can, a run sets the failure flag if and only
if a record that is not passed over cannot be written. -/
theorem onPostRecording_flag (hinstalled : hctx.Installed O)
    {inputs : List CapturedInputRecord} {outputs : List (String × CapturedShape)}
    (hshape : ∀ r ∈ unpassed inputs outputs, r.shape.Supported supported depth)
    (hwriter : ∀ r ∈ unpassed inputs outputs, ∀ ct, r.writer W ct = .ok true)
    (hdefined : ∀ r ∈ unpassed inputs outputs, ¬ r.Undefined) (s : HookState) :
    (onPostRecording O W hctx inputs outputs s).2.hadError = true ↔
      s.hadError = true ∨ ∃ r ∈ unpassed inputs outputs, ¬ r.Writable hctx := by
  obtain ⟨hok, hany⟩ := alone_any_flag hR hinstalled hshape hwriter hdefined
  obtain ⟨-, -, hflags, -⟩ := onPostRecording_marks O W hctx hok s
  rw [hflags, List.any_map, Bool.or_eq_true, List.any_eq_true]
  exact or_congr_right hany

end

/-- An array of two elements is written without values, and flagged with too few of them. -/
theorem onPostRecording_flag_example :
    (onPostRecording plainFhe plainWriters fourDim
      [⟨"x", ⟨.mrpArray, [[17], [17]]⟩, [1, 2], [[1, 2, 3, 4]]⟩] [("y", ⟨.mrpArray, [[17], [17]]⟩)]
      .empty).2.hadError = true := by
  refine (onPostRecording_flag plainFhe_reliable fourDim_installed (by decide) (fun r _ ct => ?_)
    (by decide) .empty).mpr (.inr ⟨_, List.mem_cons_self .., ?_⟩)
  · rcases r with r | output
    · rfl
    · rfl
  · rintro (hkind | ⟨-, hnone | hcount⟩)
    · cases hkind
    · cases hnone
    · cases hcount

end Bridge

end Haze
