import Haze.Runtime.Methods
import Mathlib.Data.Finset.Insert
import Mathlib.Logic.Function.Basic

/-!
# What the addresses hold

`Values` is what the runtime holds for its addresses, whatever the order of its tables: the binding
of an address, its words, the modulus recorded for it and whether it is an input. Resolving a source
and binding a destination are two functions on it, `resolve` and `store`, which commute where they
are about different addresses. `lookup_run` connects the first with the source's method. The rest of
the state is `World.rest`, and neither function is about it.
-/

namespace Haze

variable {P M : Type}

/-- What is held for the addresses. -/
@[ext]
structure Values (P : Type) where
  binding : DevAddr → Option P
  /-- The words of an address. -/
  shadow : DevAddr → Option (List UInt64)
  /-- The modulus recorded for an address. -/
  modulus : DevAddr → Option UInt64
  inputs : Finset DevAddr
  /-- The number of inputs that were bound. -/
  inputCounter : ℕ

/-- An access to one address. -/
inductive Access (P : Type) where
  | resolve (a : DevAddr)
  | store (a : DevAddr) (poly : P) (q : UInt64)

namespace Access

/-- The address that is accessed. -/
def addr : Access P → DevAddr
  | .resolve a => a
  | .store a _ _ => a

/-- Two accesses commute when they are to different addresses or both resolve. -/
def Independent (x y : Access P) : Prop :=
  x.addr ≠ y.addr ∨ ∃ a b, x = .resolve a ∧ y = .resolve b

end Access

namespace Values

/-- The polynomial of an address's words, at ring dimension `n`. -/
def shadowPoly (F : Fhetch P M) (n : UInt64) (v : Values P) (a : DevAddr) : P :=
  F.fromData ((v.shadow a).getD []) n

/-- The polynomial that an address resolves to. -/
def value (F : Fhetch P M) (n : UInt64) (v : Values P) (a : DevAddr) : P :=
  (v.binding a).getD (v.shadowPoly F n a)

/-- Bind an address to its words, unless it is bound. -/
def resolve (F : Fhetch P M) (n : UInt64) (a : DevAddr) (v : Values P) : Values P :=
  if (v.binding a).isSome then v
  else { v with
    binding := Function.update v.binding a (some (v.shadowPoly F n a))
    shadow := Function.update v.shadow a none
    inputs := insert a v.inputs
    inputCounter := v.inputCounter + 1 }

/-- Bind an address to a result. -/
def store (a : DevAddr) (poly : P) (q : UInt64) (v : Values P) : Values P :=
  { v with
    binding := Function.update v.binding a (some poly)
    modulus := Function.update v.modulus a (if q ≠ kCopyModulus then some q else none)
    inputs := v.inputs.erase a }

/-- The effect of an access. -/
def access (F : Fhetch P M) (n : UInt64) (v : Values P) : Access P → Values P
  | .resolve a => v.resolve F n a
  | .store a poly q => v.store a poly q

section

variable {F : Fhetch P M} {n : UInt64} {v : Values P} {a b : DevAddr}

/-- A bound address stays as it is. -/
theorem resolve_bound (h : (v.binding a).isSome) : v.resolve F n a = v := if_pos h

/-- An unbound one is bound to the polynomial of its words. -/
theorem resolve_unbound (h : v.binding a = none) : v.resolve F n a = { v with
    binding := Function.update v.binding a (some (v.shadowPoly F n a))
    shadow := Function.update v.shadow a none
    inputs := insert a v.inputs
    inputCounter := v.inputCounter + 1 } :=
  if_neg (by simp [h])

/-- The address is bound afterwards. -/
theorem binding_resolve_self : ((v.resolve F n a).binding a).isSome := by
  rcases hb : v.binding a with _ | poly
  · rw [resolve_unbound hb]
    simp
  · rw [resolve_bound (by simp [hb]), hb]
    rfl

/-- The other bindings stay. -/
theorem binding_resolve_of_ne (h : b ≠ a) : (v.resolve F n a).binding b = v.binding b := by
  rcases hb : v.binding a with _ | poly
  · rw [resolve_unbound hb]
    exact Function.update_of_ne h _ _
  · rw [resolve_bound (by simp [hb])]

/-- The other words stay. -/
theorem shadow_resolve_of_ne (h : b ≠ a) : (v.resolve F n a).shadow b = v.shadow b := by
  rcases hb : v.binding a with _ | poly
  · rw [resolve_unbound hb]
    exact Function.update_of_ne h _ _
  · rw [resolve_bound (by simp [hb])]

/-- Resolving changes no value. -/
theorem value_resolve (b : DevAddr) : (v.resolve F n a).value F n b = v.value F n b := by
  by_cases h : b = a
  · subst h
    rcases hb : v.binding b with _ | poly
    · rw [resolve_unbound hb]
      simp [value, hb]
    · rw [resolve_bound (by simp [hb])]
  · unfold value shadowPoly
    rw [binding_resolve_of_ne h, shadow_resolve_of_ne h]

/-- A store changes no other value. -/
theorem value_store_of_ne {poly : P} {q : UInt64} (h : b ≠ a) :
    (v.store a poly q).value F n b = v.value F n b := by
  have hb : (v.store a poly q).binding b = v.binding b := Function.update_of_ne h _ _
  unfold value
  rw [hb]
  rfl

/-- Resolving twice is resolving in the other order. -/
theorem resolve_comm (a b : DevAddr) :
    (v.resolve F n b).resolve F n a = (v.resolve F n a).resolve F n b := by
  by_cases hab : a = b
  · rw [hab]
  -- Two addresses that are not bound are promoted in either order; a bound one is left alone.
  rcases ha : v.binding a with _ | p
  · rcases hb : v.binding b with _ | p'
    · have ha' : (v.resolve F n b).binding a = none := (binding_resolve_of_ne hab).trans ha
      have hb' : (v.resolve F n a).binding b = none := (binding_resolve_of_ne (Ne.symm hab)).trans hb
      rw [resolve_unbound ha', resolve_unbound hb']
      unfold shadowPoly
      rw [shadow_resolve_of_ne hab, shadow_resolve_of_ne (Ne.symm hab), resolve_unbound ha,
        resolve_unbound hb]
      ext1
      · exact Function.update_comm (Ne.symm hab) _ _ _
      · exact Function.update_comm (Ne.symm hab) _ _ _
      · rfl
      · exact Finset.insert_comm _ _ _
      · rfl
    · have hb' : ((v.resolve F n a).binding b).isSome := by
        rw [binding_resolve_of_ne (Ne.symm hab), hb]
        rfl
      rw [resolve_bound hb', resolve_bound (a := b) (by simp [hb])]
  · have ha' : ((v.resolve F n b).binding a).isSome := by
      rw [binding_resolve_of_ne hab, ha]
      rfl
    rw [resolve_bound ha', resolve_bound (a := a) (by simp [ha])]

/-- Resolving an address and binding another. -/
theorem resolve_store_comm {poly : P} {q : UInt64} (h : a ≠ b) :
    (v.store b poly q).resolve F n a = (v.resolve F n a).store b poly q := by
  have hkeep : (v.store b poly q).binding a = v.binding a := Function.update_of_ne h _ _
  rcases ha : v.binding a with _ | p
  · rw [resolve_unbound (hkeep.trans ha), resolve_unbound ha]
    unfold store shadowPoly
    ext1
    · exact Function.update_comm (Ne.symm h) _ _ _
    · rfl
    · rfl
    · exact (Finset.erase_insert_of_ne h).symm
    · rfl
  · rw [resolve_bound (by rw [hkeep, ha]; rfl), resolve_bound (a := a) (by simp [ha])]

/-- Stores to two addresses may be exchanged. -/
theorem store_comm {p p' : P} {q q' : UInt64} (h : a ≠ b) :
    (v.store b p' q').store a p q = (v.store a p q).store b p' q' := by
  unfold store
  ext1
  · exact Function.update_comm (Ne.symm h) _ _ _
  · rfl
  · exact Function.update_comm (Ne.symm h) _ _ _
  · exact Finset.erase_right_comm
  · rfl

/-- Accesses that bind no result to an address leave its value, -/
theorem value_foldl {xs : List (Access P)} (h : ∀ p q, .store a p q ∉ xs) :
    (xs.foldl (access F n) v).value F n a = v.value F n a := by
  induction xs generalizing v with
  | nil => rfl
  | cons x xs ih =>
    rw [List.foldl_cons, ih fun p q hmem => h p q (List.mem_cons_of_mem _ hmem)]
    cases x with
    | resolve b => exact value_resolve a
    | store b p q =>
      refine value_store_of_ne fun hab => h p q ?_
      rw [hab]
      exact List.mem_cons_self ..

/-- and the binding and the words too, unless they resolve it. -/
theorem kept_foldl {xs : List (Access P)} (h : ∀ p q, .store a p q ∉ xs) :
    (.resolve a ∈ xs ∧ ((xs.foldl (access F n) v).binding a).isSome) ∨
      ((xs.foldl (access F n) v).binding a = v.binding a ∧
        (xs.foldl (access F n) v).shadow a = v.shadow a) := by
  induction xs generalizing v with
  | nil => exact .inr ⟨rfl, rfl⟩
  | cons x xs ih =>
    rw [List.foldl_cons]
    rcases ih (v := v.access F n x) fun p q hmem => h p q (List.mem_cons_of_mem _ hmem) with
      ⟨hmem, hsome⟩ | ⟨hbind, hshadow⟩
    · exact .inl ⟨List.mem_cons_of_mem _ hmem, hsome⟩
    rw [hbind, hshadow]
    cases x with
    | resolve b =>
      by_cases hab : a = b
      · subst hab
        exact .inl ⟨List.mem_cons_self .., binding_resolve_self⟩
      · exact .inr ⟨binding_resolve_of_ne hab, shadow_resolve_of_ne hab⟩
    | store b p q =>
      have hab : a ≠ b := fun hab => h p q (hab ▸ List.mem_cons_self ..)
      exact .inr ⟨Function.update_of_ne hab _ _, rfl⟩

/-- Independent accesses commute. -/
theorem access_comm {x y : Access P} (h : x.Independent y) :
    (v.access F n y).access F n x = (v.access F n x).access F n y := by
  rcases h with h | ⟨a, b, rfl, rfl⟩
  · cases x with
    | resolve a =>
      cases y with
      | resolve b => exact resolve_comm a b
      | store b p q => exact resolve_store_comm h
    | store a p q =>
      cases y with
      | resolve b => exact (resolve_store_comm (Ne.symm h)).symm
      | store b p' q' => exact store_comm h
  · exact resolve_comm a b

end

end Values

namespace World

/-- What the state holds for its addresses. -/
def values (w : World P M) : Values P where
  binding := w.binding
  shadow := w.shadow
  modulus a := AList.lookup a w.epoch.addrModulus
  inputs := w.epoch.inputAddrs
  inputCounter := w.epoch.inputCounter

/-- The state without what it holds for its addresses, the names of multi-residue inputs and the log
of the compiler. -/
def rest (w : World P M) : World P M := { w with
  epoch := { w.epoch with
    polyMap := ∅
    inputAddrs := ∅
    inputCounter := 0
    addrModulus := ∅
    mrpInNames := ∅
    mrpInNameCounter := 0
    mrpInputTaggedNames := ∅ }
  allocator := { w.allocator with shadowData := ∅ }
  compiler := [] }

/-- The names of multi-residue inputs. -/
def inputTags (w : World P M) : UMap DevAddr ProbeName × ℕ × Finset ProbeName :=
  (w.epoch.mrpInNames, w.epoch.mrpInNameCounter, w.epoch.mrpInputTaggedNames)

/-- An address is bound, or its words are those of a polynomial. -/
def Resolves (w : World P M) (a : DevAddr) : Prop :=
  w.binding a ≠ none ∨
    ∃ values, DeviceAllocator.components a w.config.ringDim w.allocator = .ok values

/-- Whether an address resolves depends on what is held for it. -/
theorem resolves_congr {w w' : World P M} {a : DevAddr} (hrest : w'.rest = w.rest)
    (hb : w'.binding a = w.binding a) (hs : w'.shadow a = w.shadow a) :
    w'.Resolves a ↔ w.Resolves a := by
  have hconfig : w'.rest.config = w.rest.config := congrArg _ hrest
  have hlive : w'.rest.allocator.allocSet = w.rest.allocator.allocSet := by rw [hrest]
  have hbytes : w'.rest.allocator.polyBytes = w.rest.allocator.polyBytes := by rw [hrest]
  change w'.config = w.config at hconfig
  change w'.allocator.allocSet = w.allocator.allocSet at hlive
  change w'.allocator.polyBytes = w.allocator.polyBytes at hbytes
  change w'.allocator.shadow a = w.allocator.shadow a at hs
  unfold Resolves DeviceAllocator.components
  rw [hb, hs, hconfig, hlive, hbytes]

section

variable {F : Fhetch P M} {w w' : World P M} {a : DevAddr}

/-- A source that resolves has its value, and is bound afterwards. -/
theorem lookup_run (h : w.Resolves a) :
    ∃ w', lookupOrCreateLocked F a w = (.ok (w.values.value F w.config.ringDim a), w') ∧
      w'.values = w.values.resolve F w.config.ringDim a ∧ w'.rest = w.rest ∧
      w'.inputTags = w.inputTags := by
  rcases hb : w.binding a with _ | poly
  -- The words are promoted, which makes a binding and an input of them.
  · obtain ⟨values, hc⟩ := h.resolve_left (not_not.mpr hb)
    refine ⟨w.act F (.promote a), ?_, ?_, rfl, rfl⟩
    · rw [lookup_promotes hb hc, Values.value]
      change _ = (Except.ok ((w.binding a).getD _), _)
      rw [hb]
      rfl
    · rw [Values.resolve_unbound (v := w.values) hb]
      ext1
      · funext b
        change (w.act F (.promote a)).binding b = _
        rw [binding_act]
        by_cases hba : b = a
        · subst hba
          simp only [if_true, Function.update_self]
          rfl
        · simp only [hba, if_false]
          exact (Function.update_of_ne hba _ _).symm
      · funext b
        change (w.allocator.act (.evict a)).shadow b = _
        rw [shadow_allocator_act]
        by_cases hba : b = a
        · subst hba
          simp only [if_true, Function.update_self]
        · simp only [hba, if_false]
          exact (Function.update_of_ne hba _ _).symm
      · rfl
      · rfl
      · rfl
  -- A bound address is returned as it is.
  · refine ⟨w, ?_, (Values.resolve_bound (v := w.values) ?_).symm, rfl, rfl⟩
    · rw [lookup_bound hb, Values.value]
      change _ = (Except.ok ((w.binding a).getD _), _)
      rw [hb]
      rfl
    · change (w.binding a).isSome = true
      rw [hb]
      rfl

/-- A source that does not resolve is an error. -/
theorem lookup_error (h : ¬ w.Resolves a) : ∃ e w', lookupOrCreateLocked F a w = (.error e, w') := by
  rw [Resolves, not_or, not_not] at h
  obtain ⟨hb, hc⟩ := h
  rcases he : DeviceAllocator.components a w.config.ringDim w.allocator with e | values
  · exact ⟨_, _, lookup_fails hb he⟩
  · exact absurd ⟨values, he⟩ hc

/-- Resolving one source changes for no address whether it resolves. -/
theorem resolves_resolve {b : DevAddr} (ha : w.Resolves a)
    (hv : w'.values = w.values.resolve F w.config.ringDim a) (hrest : w'.rest = w.rest) :
    w'.Resolves b ↔ w.Resolves b := by
  have hbind : w'.binding = (w.values.resolve F w.config.ringDim a).binding :=
    congrArg Values.binding hv
  have hshadow : w'.shadow = (w.values.resolve F w.config.ringDim a).shadow :=
    congrArg Values.shadow hv
  by_cases hba : b = a
  · subst hba
    refine iff_of_true (.inl ?_) ha
    rw [hbind]
    exact Option.isSome_iff_ne_none.mp Values.binding_resolve_self
  · exact resolves_congr hrest (by rw [hbind, Values.binding_resolve_of_ne hba]; rfl)
      (by rw [hshadow, Values.shadow_resolve_of_ne hba]; rfl)

/-- Accesses that bind no result to an address change not whether it resolves. -/
theorem resolves_foldl {xs : List (Access P)} (hread : ∀ b, .resolve b ∈ xs → w.Resolves b)
    (hstore : ∀ p q, .store a p q ∉ xs)
    (hv : w'.values = xs.foldl (Values.access F w.config.ringDim) w.values)
    (hrest : w'.rest = w.rest) : w'.Resolves a ↔ w.Resolves a := by
  rcases Values.kept_foldl (F := F) (n := w.config.ringDim) (v := w.values) hstore with
    ⟨hmem, hsome⟩ | ⟨hbind, hshadow⟩
  · rw [← hv] at hsome
    exact iff_of_true (.inl (Option.isSome_iff_ne_none.mp hsome)) (hread a hmem)
  · rw [← hv] at hbind hshadow
    exact resolves_congr hrest hbind hshadow

/-- What is held after a result was bound. -/
theorem values_store (d : DevAddr) (poly : P) (q : UInt64) (w : World P M) :
    ({ w with epoch := w.epoch.storeComputeResultLocked d poly q } : World P M).values =
      w.values.store d poly q := by
  ext1
  · funext b
    change AList.lookup b (AList.insert d poly w.epoch.polyMap) =
      Function.update w.binding d (some poly) b
    rw [UMap.lookup_insert_ite, Function.update_apply]
    rfl
  · rfl
  · funext b
    change AList.lookup b (if q ≠ kCopyModulus then AList.insert d q w.epoch.addrModulus
      else AList.erase d w.epoch.addrModulus) = Function.update w.values.modulus d
        (if q ≠ kCopyModulus then some q else none) b
    rw [Function.update_apply]
    split_ifs with hq hb hb
    · rw [hb, AList.lookup_insert]
    · exact AList.lookup_insert_ne hb
    · rw [hb, AList.lookup_erase]
    · exact AList.lookup_erase_ne hb
  · rfl
  · rfl

/-- A session changes nothing that is held for an address. -/
theorem values_session (F : Fhetch P M) (env : CompilerReplies P) (w : World P M) :
    (w.act F (.session env)).values = w.values := by
  obtain ⟨recording, initialized, cs, -, he⟩ := session_frame (F := F) env w
  rw [he]
  rfl

/-- Opening a session resolves nothing new. -/
theorem resolves_session (F : Fhetch P M) (env : CompilerReplies P) (w : World P M) (a : DevAddr) :
    (w.act F (.session env)).Resolves a ↔ w.Resolves a := by
  obtain ⟨recording, initialized, cs, -, he⟩ := session_frame (F := F) env w
  rw [he]
  rfl

end

end World

end Haze
