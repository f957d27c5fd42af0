import Haze.Bridge.OpenFhe
import Haze.Lib.Simulation
import Mathlib.Data.List.Forall2
import Mathlib.Data.List.TakeDrop

/-!
# Synthesizing a ciphertext for a captured shape

The `synthesize_*` functions of `replay_bridge/src/openfhe_template.cpp`. A ciphertext starts as a
shell of zeros over a context's whole chain; each element is cut to the towers of the captured shape
and its towers are moved to the captured moduli, and then the captured values are filled in, if there
are any. `synthesizeForShape_returns` says what a ciphertext holds that is returned: a list of values
of the wrong length leaves its tower at zero, and of the lists of a single polynomial only the first
one counts.

The functions only add lines to a log. Where the source indexes a vector, the model checks the index.
-/

namespace Haze

namespace Bridge

/-- The kinds of captured values. -/
inductive CapturedKind where
  | srp
  | mrp
  | srpArray
  | mrpArray
deriving DecidableEq, Repr

/-- The shape of a captured value: its kind, and the moduli of each of its elements. -/
structure CapturedShape where
  kind : CapturedKind
  perElementModuli : List (List UInt64)
deriving DecidableEq, Repr

/-- A captured input: its name, its shape, the identifiers of its addresses and the values of its
residues. -/
structure CapturedInputRecord where
  name : String
  shape : CapturedShape
  addrIds : List UInt64
  perResidueValues : List (List UInt64)
deriving DecidableEq, Repr

/-- A function of the bridge that may throw and that adds lines to the log. -/
abbrev Logged (α : Type) : Type := Expected Fault (List String) α

/-- A call of the library; its exceptions are `std::runtime_error`s. -/
def throwing {α : Type} (x : Except String α) : Logged α :=
  Expected.query fun _ => x.mapError .runtimeError

/-- The element of a vector at an index. -/
def readAt {α : Type} (xs : List α) (i : ℕ) : Logged α :=
  match xs[i]? with
  | none => Expected.fail .outOfRange
  | some x => pure x

/-- Whether a modulus is known: neither zero nor the copy sentinel. -/
def isReal (q : UInt64) : Bool := q != 0 && q != kCopyModulus

/-- The first element of an array whose moduli are not those of its front element, with its
index. -/
def heterogeneous (front : List UInt64) (rest : List (List UInt64)) : Option (List UInt64 × ℕ) :=
  (rest.zipIdx 1).find? (·.1 ≠ front)

/-- A shell of zeros over the whole chain of a context. -/
def emptyCtShell (ctx : Context) (count : ℕ) : Ciphertext :=
  ⟨ctx.cc, List.replicate count (ctx.cc.params.map NativeParams.zeros)⟩

section

variable (O : OpenFhe)

/-- Cut an element to its first towers. -/
def trimTowersTo (dcrt : DCRTPoly) (target : ℕ) : Logged DCRTPoly :=
  if dcrt.length < target then
    Expected.fail (.runtimeError ("trim_towers_to: CC chain has " ++ toString dcrt.length ++
      " towers, need " ++ toString target))
  else if dcrt.length > target then throwing (O.dropLastElements dcrt (dcrt.length - target))
  else pure dcrt

/-- Move a tower to a modulus, unless that is not known or is the tower's already. -/
def switchTowerModulus (elem : DCRTPoly) (t : ℕ) (q : UInt64) (corder : UInt32) : Logged DCRTPoly :=
  if !isReal q then pure elem
  else do
    let np ← readAt elem t
    if np.params.modulus = q then pure elem
    else do
      let root ← throwing (O.rootOfUnity corder q)
      throwing (O.switchModulusAtIndex elem t q root)

/-- Cut an element to a list of moduli, and move its towers to them. -/
def rebaseTowers (ctx : Context) (moduli : List UInt64) (dcrt : DCRTPoly) : Logged DCRTPoly := do
  let dcrt ← trimTowersTo O dcrt moduli.length
  moduli.zipIdx.foldlM (fun dcrt q => switchTowerModulus O dcrt q.2 q.1 (2 * ctx.ringDim).toUInt32)
    dcrt

/-- Fill a tower with values; another number of values than the ring dimension is only logged. -/
def fillNativePoly (np : NativePoly) (values : List UInt64) (diag : String) : Logged NativePoly :=
  if values.length ≠ np.params.ringDim then do
    Expected.modify (· ++ [diag ++ ": values.size()=" ++ toString values.length ++ " != ring_dim=" ++
      toString np.params.ringDim])
    pure np
  else throwing (O.setValues np values)

/-- Fill every tower of an element with the values at its position. -/
def fillTowers (diag : ℕ → String) (values : List (List UInt64)) (towers : DCRTPoly) :
    Logged DCRTPoly :=
  Expected.mapEach (fun t => do
    let v ← readAt values t.2
    fillNativePoly O t.1 v (diag t.2)) towers.zipIdx

/-- One element with one tower; no values make a template. -/
def synthesizeHazeCiphertext (ctx : Context) (modulus : UInt64) (values : List UInt64) :
    Logged Ciphertext := do
  let ct := emptyCtShell ctx 1
  let dcrt ← readAt ct.elements 0
  let dcrt ← rebaseTowers O ctx [modulus] dcrt
  if values = [] then pure { ct with elements := [dcrt] }
  else do
    let dcrt ← fillTowers O (fun _ => "synthesize_haze_ciphertext") [values] dcrt
    pure { ct with elements := [dcrt] }

/-- One element with a tower for each modulus; no values make a template. -/
def synthesizeHazeMrpCiphertext (ctx : Context) (moduli : List UInt64)
    (perResidueValues : List (List UInt64)) : Logged Ciphertext := do
  let ct := emptyCtShell ctx 1
  let dcrt ← readAt ct.elements 0
  let dcrt ← rebaseTowers O ctx moduli dcrt
  if perResidueValues = [] then pure { ct with elements := [dcrt] }
  else if perResidueValues.length ≠ moduli.length then
    Expected.fail (.runtimeError ("synthesize_haze_mrp_ciphertext: per_residue_values.size()=" ++
      toString perResidueValues.length ++ " != moduli.size()=" ++ toString moduli.length))
  else do
    let dcrt ← fillTowers O
      (fun i => "synthesize_haze_mrp_ciphertext[tower " ++ toString i ++ "]") perResidueValues dcrt
    pure { ct with elements := [dcrt] }

/-- Fill the towers of one element of an array with the row at its position. -/
def fillElement (sharedModuli : List UInt64) (perElementValues : List (List (List UInt64)))
    (element : DCRTPoly × ℕ) : Logged DCRTPoly := do
  let row ← readAt perElementValues element.2
  if row.length ≠ sharedModuli.length then
    Expected.fail (.runtimeError ("synthesize_haze_array_ciphertext: element " ++
      toString element.2 ++ " has " ++ toString row.length ++ " residues, expected " ++
      toString sharedModuli.length))
  else fillTowers O (fun i => "synthesize_haze_array_ciphertext[elem " ++ toString element.2 ++
    ", tower " ++ toString i ++ "]") row element.1

/-- An element for each list of moduli, which must be all the same; no values make a template. -/
def synthesizeHazeArrayCiphertext (ctx : Context) (perElementModuli : List (List UInt64))
    (perElementValues : List (List (List UInt64))) : Logged Ciphertext :=
  match perElementModuli with
  | [] => Expected.fail (.runtimeError "synthesize_haze_array_ciphertext: empty per_element_moduli")
  | shared :: rest =>
    match heterogeneous shared rest with
    | some m =>
      Expected.fail (.runtimeError ("synthesize_haze_array_ciphertext: heterogeneous " ++
        "per_element_moduli not yet implemented (element[0].size()=" ++ toString shared.length ++
        ", element[" ++ toString m.2 ++ "].size()=" ++ toString m.1.length ++ ")"))
    | none => do
      let count := (shared :: rest).length
      let ct := emptyCtShell ctx count
      let elements ← Expected.mapEach (rebaseTowers O ctx shared) ct.elements
      if perElementValues = [] then pure { ct with elements := elements }
      else if perElementValues.length ≠ count then
        Expected.fail (.runtimeError ("synthesize_haze_array_ciphertext: per_element_values.size()=" ++
          toString perElementValues.length ++ " != per_element_moduli.size()=" ++ toString count))
      else do
        let elements ← Expected.mapEach (fillElement O shared perElementValues) elements.zipIdx
        pure { ct with elements := elements }

/-- The one modulus of a single polynomial, or the copy sentinel. -/
def srpModulus (perElementModuli : List (List UInt64)) : UInt64 :=
  (perElementModuli.headD []).headD kCopyModulus

/-- The values of an array, a row for each element; no values make no rows. -/
def arrayRows (perResidueValues perElementModuli : List (List UInt64)) :
    Logged (List (List (List UInt64))) :=
  if perResidueValues = [] then pure []
  else Expected.query fun _ => sliceArrayValues perResidueValues perElementModuli

/-- The ciphertext for a shape; no values make a template. -/
def synthesizeForShape (ctx : Context) (shape : CapturedShape)
    (perResidueValues : List (List UInt64)) : Logged Ciphertext :=
  match shape.kind with
  | .srp => synthesizeHazeCiphertext O ctx (srpModulus shape.perElementModuli)
    (perResidueValues.headD [])
  | .mrp => do
    let moduli ← readAt shape.perElementModuli 0
    synthesizeHazeMrpCiphertext O ctx moduli perResidueValues
  | .srpArray | .mrpArray => do
    let perElementValues ← arrayRows perResidueValues shape.perElementModuli
    synthesizeHazeArrayCiphertext O ctx shape.perElementModuli perElementValues

end

/-- No row is found that differs when all are as the first. -/
theorem heterogeneous_eq_none {front : List UInt64} {rest : List (List UInt64)} :
    heterogeneous front rest = none ↔ ∀ m ∈ rest, m = front := by
  unfold heterogeneous
  rw [List.find?_eq_none]
  constructor
  · intro h m hm
    rw [← List.zipIdx_map_fst 1 rest] at hm
    obtain ⟨m', hm', rfl⟩ := List.mem_map.mp hm
    simpa using h m' hm'
  · intro h m hm
    simpa using h m.1 (List.zipIdx_map_fst 1 rest ▸ List.mem_map_of_mem hm)

/-- The elements of a homogeneous array. -/
theorem eq_replicate_of_heterogeneous {front : List UInt64} {rest : List (List UInt64)}
    (h : heterogeneous front rest = none) :
    front :: rest = List.replicate (rest.length + 1) front :=
  List.eq_replicate_iff.mpr
    ⟨rfl, List.forall_mem_cons.mpr ⟨rfl, heterogeneous_eq_none.mp h⟩⟩

/-! ## What is returned -/

/-- A function that returns only values of `Q`, and never reads outside a vector. -/
def Returns {α : Type} (x : Logged α) (Q : α → Prop) : Prop :=
  Expected.Triple (fun _ => True) x (fun a _ => Q a) fun e _ => e ≠ .outOfRange

namespace Returns

variable {α β : Type} {Q : α → Prop}

/-- Returning a value returns it. -/
theorem pure {a : α} (h : Q a) : Returns (Pure.pure a) Q := Expected.Triple.pure fun _ _ => h

/-- A failure returns nothing, and is none of reading outside a vector. -/
theorem fail {e : Fault} (h : e ≠ .outOfRange) : Returns (Expected.fail e) Q :=
  Expected.Triple.fail fun _ _ => h

/-- A call that may throw returns what it returns when it does not. -/
theorem throwing {x : Except String α} (h : ∀ a, x = .ok a → Q a) : Returns (throwing x) Q := by
  refine Expected.Triple.query (fun s a _ hx => ?_) fun s e _ hx => ?_
  · rcases x with what | b
    · cases hx
    · cases hx
      exact h a rfl
  · rcases x with what | b
    · cases hx
      rintro ⟨⟩
    · cases hx

/-- A sequence returns what its second part returns on what the first does. -/
theorem bind {x : Logged α} {f : α → Logged β} {R : β → Prop} (hx : Returns x Q)
    (hf : ∀ a, Q a → Returns (f a) R) : Returns (x >>= f) R :=
  Expected.Triple.bind hx fun a s ha => hf a ha s trivial

/-- What is said of a returned value may be weakened. -/
theorem mono {x : Logged α} {R : α → Prop} (hx : Returns x Q) (h : ∀ a, Q a → R a) : Returns x R :=
  Expected.Triple.mono hx (fun _ hs => hs) (fun a _ ha => h a ha) fun _ _ he => he

/-- Reading an element that is there returns it. -/
theorem readAt {xs : List α} {i : ℕ} {x : α} (h : xs[i]? = some x) (hx : Q x) :
    Returns (readAt xs i) Q := by
  unfold Bridge.readAt
  rw [h]
  exact pure hx

/-- A loop that computes a function of each element, where each round establishes a fact. -/
theorem mapEach_of {C : Prop} {f : β → Logged α} {g : β → α} {bs : List β}
    (h : ∀ b ∈ bs, Returns (f b) fun a => C ∧ a = g b) :
    Returns (Expected.mapEach f bs) fun as => (bs ≠ [] → C) ∧ as = bs.map g := by
  induction bs with
  | nil => exact pure ⟨fun hne => absurd rfl hne, rfl⟩
  | cons b bs ih =>
    rw [Expected.mapEach_cons]
    refine bind (h b (List.mem_cons_self ..)) fun a ha => ?_
    refine bind (ih fun c hc => h c (List.mem_cons_of_mem _ hc)) fun as has => pure ?_
    refine ⟨fun _ => ha.1, ?_⟩
    rw [List.map_cons, ha.2, has.2]

/-- A loop that computes a function of each element. -/
theorem mapEach {f : β → Logged α} {g : β → α} {bs : List β}
    (h : ∀ b ∈ bs, Returns (f b) (· = g b)) : Returns (Expected.mapEach f bs) (· = bs.map g) :=
  mono (mapEach_of (C := True) fun b hb => mono (h b hb) fun _ ha => ⟨trivial, ha⟩) fun _ h => h.2

end Returns

/-! ## Moving towers to moduli -/

/-- The parameters of a tower that was moved to a modulus, if that is known. -/
def NativeParams.install (p : NativeParams) (q : UInt64) : NativeParams :=
  if isReal q then { p with modulus := q } else p

/-- Installing a modulus keeps the dimension. -/
theorem NativeParams.install_ringDim (p : NativeParams) (q : UInt64) :
    (p.install q).ringDim = p.ringDim := by
  unfold install
  split_ifs
  · rfl
  · rfl

/-- A real modulus is installed. -/
theorem NativeParams.install_modulus (p : NativeParams) {q : UInt64} (h : isReal q = true) :
    (p.install q).modulus = q := by
  unfold install
  rw [if_pos h]

section

variable {O : OpenFhe} {ctx : Context}

/-- Switching the modulus of a tower installs it there, and keeps the other towers. -/
theorem switchTowerModulus_returns (hO : O.Lawful) (done rest : List NativeParams)
    (p : NativeParams) (q : UInt64) (corder : UInt32) :
    Returns (switchTowerModulus O ((done ++ p :: rest).map NativeParams.zeros) done.length q corder)
      (· = (done ++ p.install q :: rest).map NativeParams.zeros) := by
  -- The tower that is switched is the first one not done yet.
  have hat : ((done ++ p :: rest).map NativeParams.zeros)[done.length]? = some p.zeros := by
    rw [List.getElem?_map, List.getElem?_append_right le_rfl, Nat.sub_self, List.getElem?_cons_zero,
      Option.map_some]
  unfold switchTowerModulus NativeParams.install
  -- A modulus that stands for none leaves the tower as it is, and so does its own.
  by_cases hreal : isReal q = true
  · rw [if_pos hreal, if_neg (by rw [hreal]; decide)]
    refine Returns.bind (Returns.readAt hat rfl) fun np hnp => ?_
    subst hnp
    rw [NativeParams.zeros_params]
    by_cases hq : p.modulus = q
    · rw [if_pos hq]
      refine Returns.pure ?_
      rw [← hq]
    · rw [if_neg hq]
      refine Returns.bind (Q := fun _ => True) (Returns.throwing fun _ _ => trivial) fun root _ => ?_
      refine Returns.throwing fun d hd => ?_
      rw [hO.switchModulusAtIndex _ _ _ _ _ _ hd hat rfl, List.map_append, List.map_cons,
        List.map_append, List.map_cons, List.set_append_right _ _ (by rw [List.length_map]),
        List.length_map, Nat.sub_self, List.set_cons_zero]
      rfl
  · rw [if_neg hreal, if_pos (by rw [Bool.not_eq_true] at hreal; rw [hreal]; decide)]
    exact Returns.pure rfl

/-- The loop over the moduli. The towers that are behind have their moduli. -/
theorem switchTowers_returns (hO : O.Lawful) (moduli : List UInt64) (corder : UInt32)
    (done : List NativeParams) {params : List NativeParams} (h : moduli.length ≤ params.length) :
    Returns ((moduli.zipIdx done.length).foldlM
        (fun dcrt q => switchTowerModulus O dcrt q.2 q.1 corder)
        ((done ++ params).map NativeParams.zeros))
      (· = (done ++ List.zipWith NativeParams.install params moduli ++
        params.drop moduli.length).map NativeParams.zeros) := by
  -- By induction on the moduli; what is switched moves from `params` to `done`.
  induction moduli generalizing done params with
  | nil =>
    rw [List.zipWith_nil_right, List.append_nil, List.length_nil, List.drop_zero]
    exact Returns.pure rfl
  | cons q moduli ih =>
    rcases params with _ | ⟨p, params⟩
    · cases h
    rw [List.zipIdx_cons, List.foldlM_cons]
    refine Returns.bind (switchTowerModulus_returns hO done params p q corder) fun d hd => ?_
    subst hd
    have hlength : moduli.length ≤ params.length := Nat.le_of_succ_le_succ h
    have hrest := ih (done ++ [p.install q]) hlength
    rw [List.length_append, List.length_singleton, List.append_assoc, List.singleton_append] at hrest
    refine hrest.mono fun d hd => ?_
    rw [hd, List.zipWith_cons_cons, List.length_cons, List.drop_succ_cons, List.append_assoc,
      List.append_assoc, List.append_assoc, List.singleton_append, List.cons_append]

/-- Trimming keeps the first towers. -/
theorem trimTowersTo_returns (hO : O.Lawful) (target : ℕ) (params : List NativeParams) :
    Returns (trimTowersTo O (params.map NativeParams.zeros) target) fun dcrt =>
      target ≤ params.length ∧ dcrt = (params.take target).map NativeParams.zeros := by
  unfold trimTowersTo
  rw [List.length_map]
  split_ifs with hshallow hdeep
  · exact Returns.fail (by rintro ⟨⟩)
  · refine Returns.throwing fun dcrt hdcrt => ⟨hdeep.le, ?_⟩
    rw [hO.dropLastElements _ _ _ hdcrt, List.length_map, ← List.map_take,
      Nat.sub_sub_self hdeep.le]
  · have hlength : params.length = target := by omega
    refine Returns.pure ⟨hlength.ge, ?_⟩
    rw [← hlength, List.take_length]

/-- An element of zeros is cut to the moduli and moved to those that are known. -/
theorem rebaseTowers_returns (hO : O.Lawful) (moduli : List UInt64) (params : List NativeParams) :
    Returns (rebaseTowers O ctx moduli (params.map NativeParams.zeros)) fun dcrt =>
      moduli.length ≤ params.length ∧
        dcrt = (List.zipWith NativeParams.install params moduli).map NativeParams.zeros := by
  unfold rebaseTowers
  refine Returns.bind (trimTowersTo_returns hO moduli.length params) fun dcrt hdcrt => ?_
  obtain ⟨hlength, rfl⟩ := hdcrt
  have htake : (params.take moduli.length).length = moduli.length := by
    rw [List.length_take]
    omega
  have hloop := switchTowers_returns hO moduli (2 * ctx.ringDim).toUInt32 [] htake.ge
  refine Returns.mono hloop fun dcrt hdcrt => ⟨hlength, ?_⟩
  have hfit : List.zipWith NativeParams.install params moduli =
      List.zipWith NativeParams.install (params.take moduli.length) moduli := by
    rw [List.zipWith_eq_zipWith_take_min, Nat.min_eq_right hlength, List.take_length]
  rw [hdcrt, List.nil_append, List.drop_eq_nil_of_le htake.le, List.append_nil, hfit]

/-! ## Filling towers with values -/

/-- The values that a tower has after it was filled: another number of them is not taken. -/
def fitted (n : ℕ) (values : List UInt64) : List UInt64 :=
  if values.length = n then values else List.replicate n 0

/-- Fitted values are as many as they are fitted to. -/
theorem fitted_length (n : ℕ) (values : List UInt64) : (fitted n values).length = n := by
  unfold fitted
  split_ifs with h
  · exact h
  · exact List.length_replicate ..

/-- A tower after it was filled. -/
def NativePoly.fill (np : NativePoly) (values : List UInt64) : NativePoly :=
  if values.length = np.params.ringDim then { np with values := values } else np

/-- Filling the zero polynomial gives the fitted values. -/
theorem NativeParams.fill_zeros (p : NativeParams) (values : List UInt64) :
    p.zeros.fill values = ⟨p, fitted p.ringDim values⟩ := by
  unfold NativePoly.fill fitted
  rw [zeros_params]
  split_ifs
  · rfl
  · rfl

/-- Filling a tower gives the filled tower, whatever is logged. -/
theorem fillNativePoly_returns (hO : O.Lawful) (np : NativePoly) (values : List UInt64)
    (diag : String) : Returns (fillNativePoly O np values diag) (· = np.fill values) := by
  unfold fillNativePoly NativePoly.fill
  by_cases h : values.length = np.params.ringDim
  · rw [if_neg (not_not.mpr h), if_pos h]
    exact Returns.throwing fun np' hnp' => hO.setValues np values np' hnp' h
  · rw [if_pos h, if_neg h]
    refine Returns.bind (Q := fun _ => True) ?_ fun _ _ => Returns.pure rfl
    exact fun _ _ => trivial

/-- A loop over the elements of one vector and the elements of another at the same positions. -/
theorem zipIdx_map_getElem {α β γ : Type} (g : α → β → γ) (d : β) {as : List α} {bs : List β}
    (h : as.length ≤ bs.length) :
    as.zipIdx.map (fun a => g a.1 (bs[a.2]?.getD d)) = List.zipWith g as bs := by
  refine List.ext_getElem ?_ fun i hi hi' => ?_
  · rw [List.length_map, List.length_zipIdx, List.length_zipWith, Nat.min_eq_left h]
  · rw [List.length_zipWith] at hi'
    rw [List.getElem_map, List.getElem_zipIdx, List.getElem_zipWith, Nat.zero_add,
      List.getElem?_eq_getElem (by omega), Option.getD_some]

/-- Pairing one value with each of a list is mapping over the list. -/
theorem zipWith_replicate_left {α β γ : Type} (g : α → β → γ) (a : α) (bs : List β) :
    List.zipWith g (List.replicate bs.length a) bs = bs.map (g a) := by
  induction bs with
  | nil => rfl
  | cons b bs ih =>
    rw [List.length_cons, List.replicate_succ, List.zipWith_cons_cons, ih, List.map_cons]

/-- Filling the towers fills each with its values. -/
theorem fillTowers_returns (hO : O.Lawful) (diag : ℕ → String) {values : List (List UInt64)}
    {towers : DCRTPoly} (h : towers.length ≤ values.length) :
    Returns (fillTowers O diag values towers) (· = List.zipWith NativePoly.fill towers values) := by
  rw [← zipIdx_map_getElem NativePoly.fill [] h]
  refine Returns.mapEach fun t ht => ?_
  have hlt : t.2 < values.length := lt_of_lt_of_le (List.snd_lt_of_mem_zipIdx ht) h
  rw [List.getElem?_eq_getElem hlt, Option.getD_some]
  refine Returns.bind (Returns.readAt (List.getElem?_eq_getElem hlt) rfl) fun v hv => ?_
  rw [hv]
  exact fillNativePoly_returns hO t.1 _ _

/-! ## What a ciphertext holds -/

/-- The towers have a list of moduli, where these are known, and hold a list of values, each where
it has the right length. -/
structure TowersHold (n : ℕ) (moduli : List UInt64) (values : List (List UInt64))
    (towers : DCRTPoly) : Prop where
  installed : List.Forall₂ (fun q np => isReal q = true → np.params.modulus = q) moduli towers
  values : towers.map NativePoly.values = (values.takeD moduli.length []).map (fitted n)

namespace TowersHold

variable {n : ℕ} {moduli moduli' : List UInt64} {values values' : List (List UInt64)}
  {towers towers' : DCRTPoly}

/-- There is a tower for each modulus. -/
theorem length_eq (h : TowersHold n moduli values towers) : towers.length = moduli.length :=
  h.installed.length_eq.symm

/-- Taking more than a list has goes on into the list behind it. -/
theorem takeD_append {α : Type} (xs ys : List α) (n : ℕ) (d : α) :
    (xs ++ ys).takeD (xs.length + n) d = xs ++ ys.takeD n d := by
  induction xs with
  | nil => rw [List.nil_append, List.length_nil, Nat.zero_add, List.nil_append]
  | cons x xs ih =>
    rw [List.length_cons, Nat.succ_add, List.takeD_succ, List.cons_append, List.tail_cons, ih]
    rfl

/-- The towers of two elements, one behind the other. -/
theorem append (h : TowersHold n moduli values towers) (h' : TowersHold n moduli' values' towers')
    (hlength : values.length = moduli.length) :
    TowersHold n (moduli ++ moduli') (values ++ values') (towers ++ towers') := by
  refine ⟨List.rel_append h.installed h'.installed, ?_⟩
  have hvalues : values.takeD moduli.length [] = values := by
    rw [← hlength, List.takeD_eq_take _ le_rfl, List.take_length]
  rw [List.map_append, h.values, h'.values, hvalues, ← List.map_append, List.length_append,
    ← hlength, takeD_append]

/-- The towers of two elements without values. -/
theorem append_template (h : TowersHold n moduli [] towers) (h' : TowersHold n moduli' [] towers') :
    TowersHold n (moduli ++ moduli') [] (towers ++ towers') := by
  refine ⟨List.rel_append h.installed h'.installed, ?_⟩
  rw [List.map_append, h.values, h'.values, ← List.map_append, List.takeD_nil, List.takeD_nil,
    List.takeD_nil, List.length_append, List.replicate_add]

/-- Only as many of the values count as there are towers. -/
theorem of_takeD (h : TowersHold n moduli values towers)
    (heq : values.takeD moduli.length [] = values'.takeD moduli.length []) :
    TowersHold n moduli values' towers :=
  ⟨h.installed, heq ▸ h.values⟩

/-- The towers of an array without values. -/
theorem replicate (h : TowersHold n moduli [] towers) (count : ℕ) :
    TowersHold n (List.replicate count moduli).flatten []
      (List.replicate count towers).flatten := by
  induction count with
  | zero => exact ⟨.nil, rfl⟩
  | succ count ih =>
    rw [List.replicate_succ, List.replicate_succ, List.flatten_cons, List.flatten_cons]
    exact h.append_template ih

/-- The towers of an array, each element with its row of values. -/
theorem rows {fill : List (List UInt64) → DCRTPoly} {rows : List (List (List UInt64))}
    (h : ∀ row ∈ rows, TowersHold n moduli row (fill row) ∧ row.length = moduli.length) :
    TowersHold n (List.replicate rows.length moduli).flatten rows.flatten
      (rows.map fill).flatten := by
  induction rows with
  | nil => exact ⟨.nil, rfl⟩
  | cons row rows ih =>
    obtain ⟨hrow, hlength⟩ := h row (List.mem_cons_self ..)
    rw [List.length_cons, List.replicate_succ, List.map_cons, List.flatten_cons, List.flatten_cons,
      List.flatten_cons]
    exact hrow.append (ih fun row hr => h row (List.mem_cons_of_mem _ hr)) hlength

/-- The towers hold the values as they are if and only if these fit. -/
theorem values_eq_iff (h : TowersHold n moduli values towers) :
    towers.map NativePoly.values = values ↔
      values.length = moduli.length ∧ ∀ v ∈ values, v.length = n := by
  rw [h.values]
  constructor
  · intro heq
    have hlength : values.length = moduli.length := by
      rw [← heq, List.length_map, List.takeD_length]
    refine ⟨hlength, fun v hv => ?_⟩
    rw [← heq] at hv
    obtain ⟨w, -, rfl⟩ := List.mem_map.mp hv
    exact fitted_length n w
  · rintro ⟨hlength, hfit⟩
    rw [← hlength, List.takeD_eq_take _ le_rfl, List.take_length]
    exact (List.map_congr_left fun v hv => if_pos (hfit v hv)).trans (List.map_id' values)

end TowersHold

/-- The ciphertext has an element for each list of moduli, with a tower for each modulus. -/
structure Ciphertext.Holds (n : ℕ) (elementModuli : List (List UInt64))
    (values : List (List UInt64)) (ct : Ciphertext) : Prop where
  sizes : ct.elements.map List.length = elementModuli.map List.length
  towers : TowersHold n elementModuli.flatten values ct.towers

/-- A ciphertext with one element. -/
theorem TowersHold.single {n : ℕ} {moduli : List UInt64} {values : List (List UInt64)}
    {towers : DCRTPoly} (h : TowersHold n moduli values towers) (cc : CryptoContext) :
    Ciphertext.Holds n [moduli] values ⟨cc, [towers]⟩ := by
  refine ⟨?_, ?_⟩
  · rw [List.map_singleton, List.map_singleton, h.length_eq]
  · rw [Ciphertext.towers, List.flatten_singleton, List.flatten_singleton]
    exact h

/-- The moduli of the towers of a shape. -/
def CapturedShape.towers (shape : CapturedShape) : List (List UInt64) :=
  match shape.kind with
  | .srp => [[srpModulus shape.perElementModuli]]
  | .mrp => [shape.perElementModuli.headD []]
  | .srpArray | .mrpArray => shape.perElementModuli

section

variable {n : ℕ} {params : List NativeParams} {moduli : List UInt64}

/-- An element before it was filled. -/
theorem rebased_holds (hn : ∀ p ∈ params, p.ringDim = n) (h : moduli.length ≤ params.length) :
    TowersHold n moduli [] ((List.zipWith NativeParams.install params moduli).map NativeParams.zeros) := by
  induction moduli generalizing params with
  | nil => exact ⟨by rw [List.zipWith_nil_right]; exact .nil, by rw [List.zipWith_nil_right]; rfl⟩
  | cons q moduli ih =>
    rcases params with _ | ⟨p, params⟩
    · cases h
    have hrest := ih (fun p hp => hn p (List.mem_cons_of_mem _ hp)) (Nat.le_of_succ_le_succ h)
    refine (show TowersHold n [q] [] [(p.install q).zeros] from ?_).append_template hrest
    refine ⟨.cons (fun hq => p.install_modulus hq) .nil, ?_⟩
    rw [List.map_singleton, NativeParams.zeros_values, NativeParams.install_ringDim,
      hn p (List.mem_cons_self ..)]
    unfold fitted
    rcases n with _ | n
    · rfl
    · rfl

/-- An element after it was filled. -/
theorem filled_holds (hn : ∀ p ∈ params, p.ringDim = n) (h : moduli.length ≤ params.length)
    {values : List (List UInt64)} (hvalues : values.length = moduli.length) :
    TowersHold n moduli values (List.zipWith NativePoly.fill
      ((List.zipWith NativeParams.install params moduli).map NativeParams.zeros) values) := by
  induction moduli generalizing params values with
  | nil =>
    rw [List.length_eq_zero_iff.mp hvalues, List.zipWith_nil_right]
    exact ⟨.nil, rfl⟩
  | cons q moduli ih =>
    rcases params with _ | ⟨p, params⟩
    · cases h
    rcases values with _ | ⟨v, values⟩
    · cases hvalues
    have hrest := ih (fun p hp => hn p (List.mem_cons_of_mem _ hp)) (Nat.le_of_succ_le_succ h)
      (Nat.succ.inj hvalues)
    refine (show TowersHold n [q] [v] [(p.install q).zeros.fill v] from ?_).append hrest rfl
    rw [NativeParams.fill_zeros, NativeParams.install_ringDim, hn p (List.mem_cons_self ..)]
    exact ⟨.cons (fun hq => p.install_modulus hq) .nil, rfl⟩

end

section

variable {n : ℕ} (hO : O.Lawful) (hn : ∀ p ∈ ctx.cc.params, p.ringDim = n)

include hO hn

/-- The ciphertext of a single residue holds its values under its modulus. -/
theorem synthesizeHazeCiphertext_returns (modulus : UInt64) (values : List UInt64) :
    Returns (synthesizeHazeCiphertext O ctx modulus values)
      (Ciphertext.Holds n [[modulus]] [values]) := by
  unfold synthesizeHazeCiphertext
  refine Returns.bind (Returns.readAt rfl rfl) fun dcrt hdcrt => ?_
  subst hdcrt
  refine Returns.bind (rebaseTowers_returns hO _ _) fun dcrt hdcrt => ?_
  obtain ⟨hlength, rfl⟩ := hdcrt
  split_ifs with hvalues
  · subst hvalues
    have hholds : TowersHold n [modulus] [[]] _ := (rebased_holds hn hlength).of_takeD rfl
    exact Returns.pure (hholds.single _)
  · have hholds := filled_holds hn hlength (show [values].length = [modulus].length from rfl)
    refine Returns.bind (fillTowers_returns hO _ ?_) fun dcrt hdcrt => Returns.pure ?_
    · rw [List.length_map, List.length_zipWith]
      exact Nat.min_le_right _ _
    · rw [hdcrt]
      exact hholds.single _

/-- The ciphertext of residues holds their values under their moduli. -/
theorem synthesizeHazeMrpCiphertext_returns (moduli : List UInt64) (values : List (List UInt64)) :
    Returns (synthesizeHazeMrpCiphertext O ctx moduli values)
      (Ciphertext.Holds n [moduli] values) := by
  unfold synthesizeHazeMrpCiphertext
  refine Returns.bind (Returns.readAt rfl rfl) fun dcrt hdcrt => ?_
  subst hdcrt
  refine Returns.bind (rebaseTowers_returns hO _ _) fun dcrt hdcrt => ?_
  obtain ⟨hlength, rfl⟩ := hdcrt
  split_ifs with hvalues hsizes
  · subst hvalues
    exact Returns.pure ((rebased_holds hn hlength).single _)
  · exact Returns.fail (by rintro ⟨⟩)
  · rw [not_not] at hsizes
    have hholds := filled_holds hn hlength hsizes
    refine Returns.bind (fillTowers_returns hO _ ?_) fun dcrt hdcrt => Returns.pure ?_
    · rw [List.length_map, List.length_zipWith, hsizes]
      exact Nat.min_le_right _ _
    · rw [hdcrt]
      exact hholds.single _

omit hn in
/-- The towers of an element are filled from its row. -/
theorem fillElement_returns (shared : List UInt64) {rows : List (List (List UInt64))}
    {element : DCRTPoly × ℕ} {row : List (List UInt64)} (hrow : rows[element.2]? = some row)
    (hlength : element.1.length = shared.length) :
    Returns (fillElement O shared rows element) (· = List.zipWith NativePoly.fill element.1 row) := by
  unfold fillElement
  refine Returns.bind (Returns.readAt hrow rfl) fun row' hrow' => ?_
  subst hrow'
  split_ifs with hsizes
  · exact Returns.fail (by rintro ⟨⟩)
  · exact fillTowers_returns hO _ (by omega)

/-- The ciphertext of an array holds the rows under the moduli of their elements. -/
theorem synthesizeHazeArrayCiphertext_returns (moduli : List (List UInt64))
    (rows : List (List (List UInt64)))
    (hrows : rows ≠ [] → rows.map List.length = moduli.map List.length) :
    Returns (synthesizeHazeArrayCiphertext O ctx moduli rows)
      (Ciphertext.Holds n moduli rows.flatten) := by
  rcases moduli with _ | ⟨shared, rest⟩
  · exact Returns.fail (by rintro ⟨⟩)
  dsimp only [synthesizeHazeArrayCiphertext]
  -- All elements share the front's moduli, or the source throws.
  rcases hfind : heterogeneous shared rest with _ | m
  · have hall := eq_replicate_of_heterogeneous hfind
    refine Returns.bind (Returns.mapEach_of (g := fun _ =>
      (List.zipWith NativeParams.install ctx.cc.params shared).map NativeParams.zeros)
      (C := shared.length ≤ ctx.cc.params.length) fun dcrt hdcrt => ?_) fun elements helements => ?_
    · rw [List.eq_of_mem_replicate hdcrt]
      exact rebaseTowers_returns hO _ _
    -- A front longer than the chain would have thrown already.
    obtain ⟨hshallow, rfl⟩ := helements
    have hlength : shared.length ≤ ctx.cc.params.length :=
      hshallow (List.ne_nil_of_length_eq_add_one (List.length_replicate ..))
    rw [hall] at hrows
    simp only [emptyCtShell, List.map_replicate, hall, List.length_replicate]
    -- No values, too few rows, or a row for every element.
    split_ifs with hempty hsizes
    · subst hempty
      refine Returns.pure ⟨?_, (rebased_holds hn hlength).replicate _⟩
      rw [List.map_replicate, List.map_replicate, (rebased_holds hn hlength).length_eq]
    · exact Returns.fail (by rintro ⟨⟩)
    · rw [not_not] at hsizes
      have hrow : ∀ row ∈ rows, row.length = shared.length := by
        intro row hrow
        have hmem := List.mem_map_of_mem (f := List.length) hrow
        rw [hrows hempty, List.map_replicate] at hmem
        exact List.eq_of_mem_replicate hmem
      have hcount : (List.replicate (rest.length + 1)
          ((List.zipWith NativeParams.install ctx.cc.params shared).map
            NativeParams.zeros)).length ≤ rows.length := by
        rw [List.length_replicate, hsizes]
      refine Returns.bind (Returns.mapEach (g := fun element =>
        List.zipWith NativePoly.fill element.1 (rows[element.2]?.getD [])) fun element hmem => ?_)
        fun elements helements => Returns.pure ?_
      -- The row at the element's index is the one that is filled in.
      · have hlt := lt_of_lt_of_le (List.snd_lt_of_mem_zipIdx hmem) hcount
        rw [List.getElem?_eq_getElem hlt, Option.getD_some]
        refine fillElement_returns hO shared (List.getElem?_eq_getElem hlt) ?_
        rw [List.eq_of_mem_replicate (List.fst_mem_of_mem_zipIdx hmem)]
        exact (rebased_holds hn hlength).length_eq
      · rw [zipIdx_map_getElem (List.zipWith NativePoly.fill) [] hcount, ← hsizes,
          zipWith_replicate_left] at helements
        subst helements
        refine ⟨?_, ?_⟩
        · rw [List.map_map, List.map_replicate, ← hsizes]
          refine List.eq_replicate_iff.mpr ⟨List.length_map _, fun k hk => ?_⟩
          obtain ⟨row, hr, rfl⟩ := List.mem_map.mp hk
          exact (filled_holds hn hlength (hrow row hr)).length_eq
        · rw [← hsizes]
          exact TowersHold.rows fun row hr =>
            ⟨filled_holds hn hlength (hrow row hr), hrow row hr⟩
  · exact Returns.fail (by rintro ⟨⟩)

omit hO hn in
/-- The rows are the values, cut by the moduli of the elements. -/
theorem arrayRows_returns (values moduli : List (List UInt64)) :
    Returns (arrayRows values moduli) fun rows => rows.flatten = values ∧
      (rows ≠ [] → rows.map List.length = moduli.map List.length) := by
  unfold arrayRows
  split_ifs with hvalues
  · exact Returns.pure ⟨hvalues.symm, fun hne => absurd rfl hne⟩
  · by_cases htotal : values.length = (moduli.map List.length).sum
    · rw [sliceArrayValues_of_eq values moduli htotal]
      exact Returns.pure ⟨List.flatten_splitLengths values _ htotal.le,
        fun _ => List.map_splitLengths_length values _ htotal.ge⟩
    · rw [sliceArrayValues_of_ne values moduli htotal]
      exact Returns.fail (by rintro ⟨⟩)

/-- The ciphertext of an array holds the values under the moduli of their elements. -/
theorem synthesizeArray_returns (moduli : List (List UInt64)) (values : List (List UInt64)) :
    Returns (arrayRows values moduli >>= synthesizeHazeArrayCiphertext O ctx moduli)
      (Ciphertext.Holds n moduli values) := by
  refine Returns.bind (arrayRows_returns values moduli) fun rows hrows => ?_
  rw [← hrows.1]
  exact synthesizeHazeArrayCiphertext_returns hO hn moduli rows hrows.2

/-- A ciphertext that is returned has the towers of the shape under the known moduli, and each tower
holds the values at its position if they are as many as the ring dimension, and zeros otherwise. -/
theorem synthesizeForShape_returns (shape : CapturedShape) (values : List (List UInt64))
    (hmrp : shape.kind = .mrp → shape.perElementModuli ≠ []) :
    Returns (synthesizeForShape O ctx shape values) (Ciphertext.Holds n shape.towers values) := by
  obtain ⟨kind, moduli⟩ := shape
  cases kind with
  | srp =>
    refine Returns.mono (synthesizeHazeCiphertext_returns hO hn _ _) fun ct hct => ⟨hct.sizes, ?_⟩
    refine hct.towers.of_takeD ?_
    rcases values with _ | ⟨v, values⟩
    · rfl
    · rfl
  | mrp =>
    rcases moduli with _ | ⟨front, rest⟩
    · exact absurd rfl (hmrp rfl)
    refine Returns.bind (Q := (· = front)) (Returns.readAt rfl rfl) fun front' hfront => ?_
    subst hfront
    exact synthesizeHazeMrpCiphertext_returns hO hn _ values
  | srpArray => exact synthesizeArray_returns hO hn moduli values
  | mrpArray => exact synthesizeArray_returns hO hn moduli values

end

end

/-! ## The log -/

/-- The function adds to the log, whatever the log is. -/
def Appends {α : Type} (x : Logged α) : Prop :=
  ∀ lines, Expected.Simulates (lines ++ ·) (fun _ => True) x x

namespace Appends

variable {α β : Type}

/-- Returning a value adds nothing to the log. -/
theorem pure (a : α) : Appends (Pure.pure a : Logged α) := fun _ => .pure a

/-- Nor does a failure. -/
theorem fail (e : Fault) : Appends (Expected.fail e : Logged α) := fun _ => .fail e

/-- Nor does a result that is fixed. -/
theorem const (r : Except Fault α) : Appends (Expected.query fun _ => r) :=
  fun _ => .query fun _ _ _ => rfl

/-- A sequence adds what both parts add. -/
theorem bind {x : Logged α} {f : α → Logged β} (hx : Appends x) (hf : ∀ a, Appends (f a)) :
    Appends (x >>= f) :=
  fun lines => .bind (hx lines) fun a => hf a lines

/-- A loop adds what its rounds add. -/
theorem mapEach {f : β → Logged α} {bs : List β} (h : ∀ b ∈ bs, Appends (f b)) :
    Appends (Expected.mapEach f bs) :=
  fun lines => .mapEach fun b hb => h b hb lines

/-- So does a loop with an accumulator. -/
theorem foldlM {f : α → β → Logged α} {bs : List β} (h : ∀ a, ∀ b ∈ bs, Appends (f a b)) (a : α) :
    Appends (bs.foldlM f a) :=
  fun lines => .foldlM (fun a b hb => h a b hb lines) a

/-- A call that may throw adds nothing. -/
theorem throwing (x : Except String α) : Appends (throwing x) := const _

/-- Nor does reading an element. -/
theorem readAt (xs : List α) (i : ℕ) : Appends (readAt xs i) := by
  unfold Bridge.readAt
  split
  · exact fail _
  · exact pure _

end Appends

section

variable (O : OpenFhe) (ctx : Context)

/-- Switching towers adds to the log, whatever it is. -/
theorem rebaseTowers_appends (moduli : List UInt64) (dcrt : DCRTPoly) :
    Appends (rebaseTowers O ctx moduli dcrt) := by
  refine .bind ?_ fun dcrt => .foldlM (fun dcrt q _ => ?_) dcrt
  · unfold trimTowersTo
    split_ifs
    · exact .fail _
    · exact .throwing _
    · exact .pure _
  · unfold switchTowerModulus
    split_ifs
    · exact .pure _
    · refine .bind (.readAt _ _) fun np => ?_
      split_ifs
      · exact .pure _
      · exact .bind (.throwing _) fun root => .throwing _

/-- So does filling towers. -/
theorem fillTowers_appends (diag : ℕ → String) (values : List (List UInt64)) (towers : DCRTPoly) :
    Appends (fillTowers O diag values towers) := by
  refine .mapEach fun t _ => .bind (.readAt _ _) fun v => ?_
  unfold fillNativePoly
  split_ifs
  · exact .bind (fun lines => .modify fun l _ => ⟨List.append_assoc .., trivial⟩)
      fun _ => .pure _
  · exact .throwing _

/-- So does the synthesis of a single residue. -/
theorem synthesizeHazeCiphertext_appends (modulus : UInt64) (values : List UInt64) :
    Appends (synthesizeHazeCiphertext O ctx modulus values) := by
  refine .bind (.readAt _ _) fun dcrt => .bind (rebaseTowers_appends O ctx _ _) fun dcrt => ?_
  split_ifs
  · exact .pure _
  · exact .bind (fillTowers_appends O _ _ _) fun _ => .pure _

/-- So does that of residues. -/
theorem synthesizeHazeMrpCiphertext_appends (moduli : List UInt64) (values : List (List UInt64)) :
    Appends (synthesizeHazeMrpCiphertext O ctx moduli values) := by
  refine .bind (.readAt _ _) fun dcrt => .bind (rebaseTowers_appends O ctx _ _) fun dcrt => ?_
  split_ifs
  · exact .pure _
  · exact .fail _
  · exact .bind (fillTowers_appends O _ _ _) fun _ => .pure _

/-- So does that of an array. -/
theorem synthesizeHazeArrayCiphertext_appends (moduli : List (List UInt64))
    (rows : List (List (List UInt64))) :
    Appends (synthesizeHazeArrayCiphertext O ctx moduli rows) := by
  unfold synthesizeHazeArrayCiphertext
  split
  · exact .fail _
  split
  · exact .fail _
  refine .bind (.mapEach fun dcrt _ => rebaseTowers_appends O ctx _ _) fun elements => ?_
  split_ifs
  · exact .pure _
  · exact .fail _
  refine .bind (.mapEach fun element _ => .bind (.readAt _ _) fun row => ?_) fun _ => .pure _
  split_ifs
  · exact .fail _
  · exact fillTowers_appends O _ _ _

/-- So does that of any shape. -/
theorem synthesizeForShape_appends (shape : CapturedShape) (values : List (List UInt64)) :
    Appends (synthesizeForShape O ctx shape values) := by
  have harray : Appends (arrayRows values shape.perElementModuli >>=
      synthesizeHazeArrayCiphertext O ctx shape.perElementModuli) := by
    refine .bind ?_ fun rows => synthesizeHazeArrayCiphertext_appends O ctx _ rows
    unfold arrayRows
    split_ifs
    · exact .pure _
    · exact .const _
  unfold synthesizeForShape
  split
  · exact synthesizeHazeCiphertext_appends O ctx _ _
  · exact .bind (.readAt _ _) fun moduli => synthesizeHazeMrpCiphertext_appends O ctx moduli values
  · exact harray
  · exact harray

end

end Bridge

end Haze
