import Haze.Lib.Writes
import Haze.Runtime.Invariant
import Haze.Runtime.Residues

/-!
# What an address holds

`World.held` is the polynomial that an address resolves to: its binding, or else its words as an
input. Resolving sources moves words into bindings, which changes what no address holds (`ReadsTo`).
Binding destinations replaces what they hold (`StoresTo`), and `RecordsTo` has both: which words are
left, and what every address is bound to.

A reachable state has words only where resolving takes them (`Stocked`), so that the two relations
say exactly which words have left the allocator, whether or not the source that was resolved is
missing.
-/

namespace Haze

variable {P M : Type}

open World (takePtrs)

/-- The moduli, the tags and the groups of the addresses. -/
def EpochState.marks (s : EpochState P) : (DevAddr → Option UInt64) × UMap DevAddr ProbeName ×
    UMap ProbeName MrpGroup × USet ProbeName × UMap DevAddr (USet ProbeName) :=
  ((AList.lookup · s.addrModulus), s.pendingOutputs, s.knownMrpGroups, s.pendingMrpGroups,
    s.addrToMrpGroups)

namespace World

/-- The polynomial that an address resolves to, if it resolves: its binding, or else its words. -/
def held (F : Fhetch P M) (w : World P M) (a : DevAddr) : Option P :=
  match w.binding a with
  | some poly => some poly
  | none =>
    match DeviceAllocator.components a w.config.ringDim w.allocator with
    | .ok values => some (F.fromData values w.config.ringDim)
    | .error _ => none

/-- Words are at live addresses, under a ring dimension, of which an allocation has the size. -/
def Stocked (w : World P M) : Prop :=
  ∀ a, w.shadow a ≠ none → a ∈ w.allocator.allocSet ∧ w.config.ringDim ≠ 0 ∧
    ¬ w.allocator.polyBytes < w.config.ringDim * 8

/-- The addresses that are looked up where several are in order: those up to the first that has
nothing. -/
def lookedUp (v : DevAddr → Option P) : List DevAddr → List DevAddr
  | [] => []
  | a :: addrs => a :: if (v a).isSome then lookedUp v addrs else []

section

variable {F : Fhetch P M} {w w' w₀ : World P M} {srcs : List DevAddr} {a : DevAddr}

/-- The marks are part of what is held for the addresses and of what naming an input keeps. -/
theorem marks_congr (hvalues : w'.values = w.values) (hrest : w'.rest = w.rest) :
    w'.epoch.marks = w.epoch.marks := by
  have hmodulus : w'.values.modulus = w.values.modulus := congrArg _ hvalues
  have hpending : w'.rest.epoch.pendingOutputs = w.rest.epoch.pendingOutputs := by rw [hrest]
  have hknown : w'.rest.epoch.knownMrpGroups = w.rest.epoch.knownMrpGroups := by rw [hrest]
  have htagged : w'.rest.epoch.pendingMrpGroups = w.rest.epoch.pendingMrpGroups := by rw [hrest]
  have hindex : w'.rest.epoch.addrToMrpGroups = w.rest.epoch.addrToMrpGroups := by rw [hrest]
  exact Prod.ext hmodulus (Prod.ext hpending (Prod.ext hknown (Prod.ext htagged hindex)))

/-- A bound address holds its polynomial. -/
theorem held_bound {poly : P} (h : w.binding a = some poly) : w.held F a = some poly := by
  unfold held
  rw [h]

/-- An address with words alone holds the polynomial of these. -/
theorem held_words {values : List UInt64} (h : w.binding a = none)
    (hc : DeviceAllocator.components a w.config.ringDim w.allocator = .ok values) :
    w.held F a = some (F.fromData values w.config.ringDim) := by
  unfold held
  rw [h]
  dsimp only
  rw [hc]

/-- An address with neither holds nothing. -/
theorem held_none {e : HazeInternalError} (h : w.binding a = none)
    (hc : DeviceAllocator.components a w.config.ringDim w.allocator = .error e) :
    w.held F a = none := by
  unfold held
  rw [h]
  dsimp only
  rw [hc]

/-- An address without a binding and without words holds nothing. -/
theorem held_wordless (h : w.binding a = none) (hs : w.shadow a = none) : w.held F a = none := by
  rcases hc : DeviceAllocator.components a w.config.ringDim w.allocator with e | values
  · exact held_none h hc
  · exact absurd ((components_ok hc).2.2.1.symm.trans hs) (Option.some_ne_none values)

/-- What holds nothing is not bound. -/
theorem binding_of_held (h : w.held F a = none) : w.binding a = none := by
  rcases hb : w.binding a with _ | poly
  · rfl
  · exact absurd ((held_bound hb).symm.trans h) (Option.some_ne_none poly)

/-- What an address holds depends on its binding, its words and the configured size. -/
theorem held_congr (hb : w'.binding a = w.binding a) (hs : w'.shadow a = w.shadow a)
    (hdim : w'.config.ringDim = w.config.ringDim)
    (hlive : w'.allocator.allocSet = w.allocator.allocSet)
    (hbytes : w'.allocator.polyBytes = w.allocator.polyBytes) : w'.held F a = w.held F a := by
  change w'.allocator.shadow a = w.allocator.shadow a at hs
  unfold held DeviceAllocator.components
  rw [hb, hs, hdim, hlive, hbytes]

/-- The components of words of which only the number is left to check. -/
theorem components_words (hw : w.Stocked) {values : List UInt64} (hs : w.shadow a = some values) :
    DeviceAllocator.components a w.config.ringDim w.allocator =
      if values.length ≠ w.config.ringDim.toNat then .error .shadowSizeMismatch else .ok values := by
  obtain ⟨hlive, hdim, hsize⟩ := hw a (hs ▸ Option.some_ne_none values)
  change w.allocator.shadow a = some values at hs
  unfold DeviceAllocator.components
  rw [if_neg hdim, if_neg (not_not.mpr hlive), if_neg hsize, hs]

/-- What is not bound holds its words, if they are as many as the ring dimension. -/
theorem held_unbound (hw : w.Stocked) (hb : w.binding a = none) :
    w.held F a = (w.shadow a).bind fun values =>
      if values.length = w.config.ringDim.toNat then some (F.fromData values w.config.ringDim)
      else none := by
  rcases hs : w.shadow a with _ | values
  · exact held_wordless hb hs
  · have hc := components_words hw hs
    rw [Option.bind_some]
    by_cases hlen : values.length = w.config.ringDim.toNat
    · rw [if_neg (not_not.mpr hlen)] at hc
      rw [held_words hb hc, if_pos hlen]
    · rw [if_pos hlen] at hc
      rw [held_none hb hc, if_neg hlen]

/-! ## Reading to the host -/

/-- What is copied to the host depends on the words, which addresses are live and their size. -/
theorem copyToHost_congr (hs : w'.shadow a = w.shadow a)
    (hlive : w'.allocator.allocSet = w.allocator.allocSet)
    (hbytes : w'.allocator.polyBytes = w.allocator.polyBytes) (dst : Bool) (count : UInt64) :
    DeviceAllocator.copyToHost dst a count w'.allocator =
      DeviceAllocator.copyToHost dst a count w.allocator := by
  change w'.allocator.shadow a = w.allocator.shadow a at hs
  unfold DeviceAllocator.copyToHost DeviceAllocator.checkRange
  rw [hs, hlive, hbytes]

/-- What is copied to the host of a live address with words. -/
theorem copyToHost_words (hlive : a ∈ w.allocator.allocSet) {values : List UInt64}
    (hs : w.shadow a = some values) {count : UInt64} (hcount : count ≤ w.allocator.polyBytes) :
    DeviceAllocator.copyToHost true a count w.allocator =
      .ok ((Limbs.bytesOf values).takeD count.toNat 0) := by
  have hrange : DeviceAllocator.checkRange a count w.allocator = .ok () := by
    unfold DeviceAllocator.checkRange
    rw [if_neg (not_not.mpr hlive), if_neg (UInt64.not_lt.mpr hcount)]
  change w.allocator.shadow a = some values at hs
  unfold DeviceAllocator.copyToHost
  rw [hrange, hs]
  rfl

/-- A live address without words cannot be read. -/
theorem copyToHost_zero (hlive : a ∈ w.allocator.allocSet) :
    DeviceAllocator.copyToHost true a 0 w.allocator = .error .outputNotFlushed ↔
      w.shadow a = none := by
  rcases hs : w.shadow a with _ | values
  · have hrange : DeviceAllocator.checkRange a 0 w.allocator = .ok () := by
      unfold DeviceAllocator.checkRange
      rw [if_neg (not_not.mpr hlive), if_neg UInt64.not_lt_zero]
    change w.allocator.shadow a = none at hs
    unfold DeviceAllocator.copyToHost
    rw [hrange, hs]
    exact ⟨fun _ => rfl, fun _ => rfl⟩
  · rw [copyToHost_words hlive hs UInt64.zero_le]
    exact ⟨fun h => (nomatch h), fun h => (nomatch h)⟩

/-! ## Sources in order -/

/-- When every source has a value all are looked up. -/
theorem lookedUp_all {v : DevAddr → Option P} (h : ∀ a ∈ srcs, (v a).isSome) :
    lookedUp v srcs = srcs := by
  induction srcs with
  | nil => rfl
  | cons a srcs ih =>
    rw [lookedUp, if_pos (h a (List.mem_cons_self ..)),
      ih fun b hb => h b (List.mem_cons_of_mem _ hb)]

/-- More sources are looked up when those before all have a value. -/
theorem lookedUp_append {v : DevAddr → Option P} (srcs' : List DevAddr) :
    lookedUp v (srcs ++ srcs') =
      if ∀ a ∈ srcs, (v a).isSome then srcs ++ lookedUp v srcs' else lookedUp v srcs := by
  induction srcs with
  | nil => simp
  | cons a srcs ih =>
    rw [List.cons_append, lookedUp, ih, lookedUp]
    simp only [List.forall_mem_cons]
    by_cases ha : (v a).isSome = true
    · by_cases hall : ∀ b ∈ srcs, (v b).isSome = true
      · rw [if_pos ha, if_pos hall, if_pos ⟨ha, hall⟩, List.cons_append]
      · rw [if_pos ha, if_neg hall, if_pos ha, if_neg fun h => hall h.2]
    · rw [if_neg ha, if_neg ha, if_neg fun h => ha h.1]

/-! ## Resolving sources -/

/-- The second state is reached from the first by looking `srcs` up: each is bound to what it held,
and the words of those that were not bound have left. -/
structure ReadsTo (F : Fhetch P M) (w₀ : World P M) (srcs : List DevAddr) (w : World P M) : Prop where
  config : w.config = w₀.config
  allocSet : w.allocator.allocSet = w₀.allocator.allocSet
  polyBytes : w.allocator.polyBytes = w₀.allocator.polyBytes
  marks : w.epoch.marks = w₀.epoch.marks
  binding : ∀ a, w.binding a = if a ∈ srcs then w₀.held F a else w₀.binding a
  shadow : ∀ a, w.shadow a = if a ∈ srcs ∧ w₀.binding a = none then none else w₀.shadow a

namespace ReadsTo

/-- Reading nothing leaves the state. -/
theorem refl (F : Fhetch P M) (w : World P M) : ReadsTo F w [] w where
  config := rfl
  allocSet := rfl
  polyBytes := rfl
  marks := rfl
  binding _ := (if_neg List.not_mem_nil).symm
  shadow _ := (if_neg fun h => List.not_mem_nil h.1).symm

/-- Resolving sources changes what no address holds. -/
theorem held (h : ReadsTo F w₀ srcs w) (a : DevAddr) : w.held F a = w₀.held F a := by
  have hb := h.binding a
  have hs := h.shadow a
  by_cases ha : a ∈ srcs
  · rw [if_pos ha] at hb
    rcases hheld : w₀.held F a with _ | poly
    · -- The words, if there were any, were not those of a polynomial, and are dropped.
      rw [if_pos ⟨ha, binding_of_held hheld⟩] at hs
      exact held_wordless (hb.trans hheld) hs
    · exact held_bound (hb.trans hheld)
  · rw [if_neg ha] at hb
    rw [if_neg fun hmem => ha hmem.1] at hs
    exact held_congr hb hs (congrArg _ h.config) h.allocSet h.polyBytes

/-- Two readings are one of both lists. -/
theorem trans {w₁ w₂ : World P M} {srcs' : List DevAddr} (h : ReadsTo F w₀ srcs w₁)
    (h' : ReadsTo F w₁ srcs' w₂) : ReadsTo F w₀ (srcs ++ srcs') w₂ where
  config := h'.config.trans h.config
  allocSet := h'.allocSet.trans h.allocSet
  polyBytes := h'.polyBytes.trans h.polyBytes
  marks := h'.marks.trans h.marks
  binding a := by
    rw [h'.binding, h.held, h.binding]
    by_cases ha' : a ∈ srcs'
    · rw [if_pos ha', if_pos (List.mem_append_right _ ha')]
    · simp only [List.mem_append, ha', or_false, if_false]
  shadow a := by
    rw [h'.shadow, h.binding, h.shadow]
    by_cases ha : a ∈ srcs
    · by_cases hb : w₀.binding a = none
      · simp [ha, hb]
      · obtain ⟨poly, hp⟩ := Option.ne_none_iff_exists'.mp hb
        simp [ha, hp, held_bound hp]
    · simp [ha]

/-- A change of neither the bindings nor the words. -/
theorem frame (h : ReadsTo F w₀ srcs w) (hb : w'.binding = w.binding) (hs : w'.shadow = w.shadow)
    (hconfig : w'.config = w.config) (hlive : w'.allocator.allocSet = w.allocator.allocSet)
    (hbytes : w'.allocator.polyBytes = w.allocator.polyBytes)
    (hmarks : w'.epoch.marks = w.epoch.marks) : ReadsTo F w₀ srcs w' where
  config := hconfig.trans h.config
  allocSet := hlive.trans h.allocSet
  polyBytes := hbytes.trans h.polyBytes
  marks := hmarks.trans h.marks
  binding a := by
    rw [hb]
    exact h.binding a
  shadow a := by
    rw [hs]
    exact h.shadow a

/-- Words of the dimension's size are there after a reading too. -/
theorem stocked (h : ReadsTo F w₀ srcs w) (hw : w₀.Stocked) : w.Stocked := by
  intro a ha
  rw [h.shadow] at ha
  split_ifs at ha with hleft
  · exact absurd rfl ha
  · rw [h.allocSet, h.config, h.polyBytes]
    exact hw a ha

end ReadsTo

/-- Looking up an address that has nothing leaves it without words. -/
theorem lookup_readsTo_one (hw : w.Stocked) (a : DevAddr) :
    (∃ poly w', lookupOrCreateLocked F a w = (.ok poly, w') ∧ w.held F a = some poly ∧
        ReadsTo F w [a] w') ∨
      ∃ e w', lookupOrCreateLocked F a w = (.error e, w') ∧ w.held F a = none ∧ ReadsTo F w [a] w' := by
  -- The words of `a` leave, and the other addresses are as they were.
  have hleaves : ∀ (s : EpochState P) (cs : List (CompilerCall P M)), w.binding a = none →
      s.marks = w.epoch.marks →
      (∀ b, AList.lookup b s.polyMap = if b = a then w.held F a else w.binding b) →
      ReadsTo F w [a] { w with
        allocator := w.allocator.act (.evict a), epoch := s, compiler := cs } := by
    intro s cs hb hmarks hs
    refine ⟨rfl, rfl, rfl, hmarks, fun b => ?_, fun b => ?_⟩
    · refine (hs b).trans ?_
      by_cases hba : b = a
      · rw [if_pos hba, if_pos (List.mem_singleton.mpr hba), hba]
      · rw [if_neg hba, if_neg fun h => hba (List.mem_singleton.mp h)]
    · change (w.allocator.act (.evict a)).shadow b = _
      rw [shadow_allocator_act]
      dsimp only
      by_cases hba : b = a
      · rw [if_pos hba, hba, if_pos ⟨List.mem_cons_self .., hb⟩]
      · rw [if_neg hba, if_neg fun h => hba (List.mem_singleton.mp h.1)]
        rfl
  -- `a` has no words, or is bound, and nothing changes.
  have hstays : w.held F a = w.binding a → (w.binding a = none → w.shadow a = none) →
      ReadsTo F w [a] w := by
    intro hb hs
    refine ⟨rfl, rfl, rfl, rfl, fun b => ?_, fun b => ?_⟩
    · split_ifs with hba
      · rw [List.mem_singleton.mp hba, hb]
      · rfl
    · split_ifs with hba
      · rw [List.mem_singleton.mp hba.1]
        exact hs (List.mem_singleton.mp hba.1 ▸ hba.2)
      · rfl
  rcases hb : w.binding a with _ | poly
  · rcases hc : DeviceAllocator.components a w.config.ringDim w.allocator with e | values
    · have hnone := held_none (F := F) hb hc
      refine .inr ⟨_, _, lookup_fails hb hc, hnone, ?_⟩
      split_ifs with he
      · refine hleaves w.epoch w.compiler hb rfl fun b => ?_
        rw [hnone]
        split_ifs with hba
        · rw [hba]
          exact hb
        · rfl
      · refine hstays (hnone.trans hb.symm) fun _ => ?_
        -- Words would be taken, since they are of a live address and of the size of an allocation.
        by_contra hs
        obtain ⟨hlive, hdim, hsize⟩ := hw a hs
        obtain ⟨values, hs⟩ := Option.ne_none_iff_exists'.mp hs
        change w.allocator.shadow a = some values at hs
        unfold DeviceAllocator.components at hc
        rw [if_neg hdim, if_neg (not_not.mpr hlive), if_neg hsize, hs] at hc
        dsimp only at hc
        split_ifs at hc
        · exact he (Except.error.inj hc).symm
    · have hpoly : w.held F a = some (w.shadowPoly F a) := by
        rw [held_words hb hc, shadowPoly, World.shadow, (components_ok hc).2.2.1, Option.getD_some]
      refine .inl ⟨_, _, lookup_promotes hb hc, hpoly, ?_⟩
      refine hleaves _ _ hb rfl fun b => ?_
      rw [hpoly]
      exact UMap.lookup_insert_ite ..
  · have hheld := held_bound (F := F) hb
    refine .inl ⟨poly, w, lookup_bound hb, hheld, hstays (hheld.trans hb.symm) fun h => ?_⟩
    exact absurd (hb.symm.trans h) (Option.some_ne_none poly)

/-- Resolving a source returns what it holds. -/
theorem lookup_readsTo (hw : w₀.Stocked) (a : DevAddr) (srcs : List DevAddr) :
    Expected.Triple (ReadsTo F w₀ srcs) (lookupOrCreateLocked F a)
      (fun poly w => w₀.held F a = some poly ∧ ReadsTo F w₀ (srcs ++ [a]) w)
      (fun _ w => w₀.held F a = none ∧ ReadsTo F w₀ (srcs ++ [a]) w) := by
  intro w h
  rcases lookup_readsTo_one (F := F) (h.stocked hw) a with
    ⟨poly, w', hrun, hheld, hone⟩ | ⟨e, w', hrun, hheld, hone⟩
  · rw [hrun]
    exact ⟨(h.held a).symm.trans hheld, h.trans hone⟩
  · rw [hrun]
    exact ⟨(h.held a).symm.trans hheld, h.trans hone⟩

/-- A session resolves no source. -/
theorem session_readsTo (F : Fhetch P M) (env : CompilerReplies P) (w : World P M) :
    ReadsTo F w [] (w.act F (.session env)) := by
  obtain ⟨recording, initialized, cs, -, he⟩ := session_frame (F := F) env w
  rw [he]
  exact (ReadsTo.refl F w).frame rfl rfl rfl rfl rfl rfl

/-! ## Binding destinations -/

/-- The second state is reached from the first by binding destinations. -/
structure StoresTo (w₁ : World P M) (writes : List (DevAddr × P)) (w : World P M) : Prop where
  config : w.config = w₁.config
  allocSet : w.allocator.allocSet = w₁.allocator.allocSet
  polyBytes : w.allocator.polyBytes = w₁.allocator.polyBytes
  binding : w.binding = Writes.all w₁.binding writes
  shadow : w.shadow = w₁.shadow

namespace StoresTo

variable {w₁ w₂ : World P M} {writes writes' : List (DevAddr × P)}

/-- Storing nothing leaves what addresses hold. -/
theorem refl (w : World P M) : StoresTo w [] w := ⟨rfl, rfl, rfl, rfl, rfl⟩

/-- Two stores are one of both lists. -/
theorem trans (h : StoresTo w₁ writes w₂) (h' : StoresTo w₂ writes' w) :
    StoresTo w₁ (writes ++ writes') w where
  config := h'.config.trans h.config
  allocSet := h'.allocSet.trans h.allocSet
  polyBytes := h'.polyBytes.trans h.polyBytes
  binding := by
    rw [h'.binding, h.binding, Writes.all_append]
  shadow := h'.shadow.trans h.shadow

end StoresTo

/-- Binding one destination. -/
theorem store_storesTo (w : World P M) (dst : DevAddr) (poly : P) (q : UInt64) :
    StoresTo w [(dst, poly)]
      { w with epoch := w.epoch.storeComputeResultLocked dst poly q } where
  config := rfl
  allocSet := rfl
  polyBytes := rfl
  binding := congrArg Values.binding (values_store dst poly q w)
  shadow := rfl

/-- Binding residues in order. -/
theorem storeResidues_storesTo (m : M) (residues : List (DevAddr × UInt64)) (w : World P M) :
    StoresTo w (residues.map fun r => (r.1, F.residue m r.2))
      { w with epoch := storeResidues F m residues w.epoch } := by
  induction residues generalizing w with
  | nil => exact .refl w
  | cons r rs ih =>
    exact (store_storesTo w r.1 (F.residue m r.2) r.2).trans
      (ih { w with epoch := w.epoch.storeComputeResultLocked r.1 (F.residue m r.2) r.2 })

/-- Registering a group binds nothing. -/
theorem registerGroup_storesTo {addrs : List DevAddr} {base : List UInt64}
    (hlen : addrs.length = base.length) (w : World P M) :
    ∃ w', registerGroup addrs base w = (.ok (), w') ∧ StoresTo w [] w' := by
  obtain ⟨hok, hv, -, -⟩ := registerGroup_spec hlen w
  have hallocator := registerGroup_allocator hlen w
  have hconfig : (registerGroup addrs base w).2.config = w.config := by
    by_cases hlong : 1 < base.length
    · obtain ⟨name, s, hs, -, -⟩ := outputName_spec (addrs.headD .null) w.epoch
      rw [registerGroup_named hlen hlong hs]
    · unfold registerGroup
      rw [if_neg hlong]
      rfl
  refine ⟨(registerGroup addrs base w).2, Prod.ext hok rfl, hconfig, ?_, ?_, ?_, ?_⟩
  · rw [hallocator]
  · rw [hallocator]
  · exact congrArg Values.binding hv
  · exact congrArg Values.shadow hv

/-! ## Sources and destinations -/

/-- The second state is reached from the first by writes of destinations, in order, after or between
lookups of sources; `looked` were looked up before they were written. -/
structure RecordsTo (F : Fhetch P M) (w₀ : World P M) (looked : List DevAddr)
    (writes : List (DevAddr × P)) (w : World P M) : Prop where
  config : w.config = w₀.config
  allocSet : w.allocator.allocSet = w₀.allocator.allocSet
  polyBytes : w.allocator.polyBytes = w₀.allocator.polyBytes
  binding : ∀ a, w.binding a =
    (Writes.last writes a).or (if a ∈ looked then w₀.held F a else w₀.binding a)
  shadow : ∀ a, w.shadow a = if a ∈ looked ∧ w₀.binding a = none then none else w₀.shadow a

namespace RecordsTo

variable {w₁ w₂ : World P M} {looked looked' : List DevAddr} {writes writes' : List (DevAddr × P)}

/-- Lookups of sources first, then the writes. -/
theorem of_stores (h : ReadsTo F w₀ srcs w₁) (h' : StoresTo w₁ writes w) :
    RecordsTo F w₀ srcs writes w where
  config := h'.config.trans h.config
  allocSet := h'.allocSet.trans h.allocSet
  polyBytes := h'.polyBytes.trans h.polyBytes
  binding a := by
    rw [h'.binding, Writes.all_eq, h.binding]
  shadow a := by
    rw [h'.shadow]
    exact h.shadow a

/-- A reading records no write. -/
theorem of_reads (h : ReadsTo F w₀ srcs w) : RecordsTo F w₀ srcs [] w :=
  of_stores h (.refl w)

/-- The written addresses hold what was written, the others what they held. -/
theorem held (h : RecordsTo F w₀ looked writes w) : w.held F = Writes.all (w₀.held F) writes := by
  funext a
  have hb := h.binding a
  have hs := h.shadow a
  rw [Writes.all_eq]
  rcases hlast : Writes.last writes a with _ | poly <;> rw [hlast] at hb
  · rw [Option.none_or] at hb ⊢
    by_cases ha : a ∈ looked
    · rw [if_pos ha] at hb
      rcases hheld : w₀.held F a with _ | poly
      · rw [if_pos ⟨ha, binding_of_held hheld⟩] at hs
        exact held_wordless (hb.trans hheld) hs
      · exact held_bound (hb.trans hheld)
    · rw [if_neg ha] at hb
      rw [if_neg fun hmem => ha hmem.1] at hs
      exact held_congr hb hs (congrArg _ h.config) h.allocSet h.polyBytes
  · exact held_bound hb

/-- A written address is bound to what was written to it last. -/
theorem written (h : RecordsTo F w₀ looked writes w) {poly : P}
    (ha : Writes.last writes a = some poly) : w.binding a = some poly := by
  rw [h.binding, ha]
  rfl

/-- What matters is which addresses are looked up. -/
theorem congr (h : RecordsTo F w₀ looked writes w) (hlooked : ∀ a, a ∈ looked' ↔ a ∈ looked) :
    RecordsTo F w₀ looked' writes w where
  config := h.config
  allocSet := h.allocSet
  polyBytes := h.polyBytes
  binding a := by
    simp only [hlooked]
    exact h.binding a
  shadow a := by
    simp only [hlooked]
    exact h.shadow a

/-- One sequence of writes after another: what the first has written is bound, and is not taken from
its words by the second. -/
theorem trans (h : RecordsTo F w₀ looked writes w₁) (h' : RecordsTo F w₁ looked' writes' w₂) :
    RecordsTo F w₀ (looked ++ looked'.filter (· ∉ writes.map Prod.fst)) (writes ++ writes') w₂ where
  config := h'.config.trans h.config
  allocSet := h'.allocSet.trans h.allocSet
  polyBytes := h'.polyBytes.trans h.polyBytes
  binding a := by
    rw [h'.binding, Writes.last_append, Option.or_assoc]
    congr 1
    rw [h.held, Writes.all_eq, h.binding]
    -- An address that the first part has not stored to may still be looked up by the second.
    rcases hw : Writes.last writes a with _ | poly
    · have ha := Writes.last_eq_none.mp hw
      simp only [Option.none_or, List.mem_append, List.mem_filter, ha, not_false_eq_true,
        decide_true, and_true]
      by_cases ha' : a ∈ looked'
      · simp only [ha', if_true, or_true]
      · simp only [ha', if_false, or_false]
    · simp only [Option.some_or, ite_self]
  shadow a := by
    rw [h'.shadow, h.binding, h.shadow]
    rcases hw : Writes.last writes a with _ | poly
    · have ha := Writes.last_eq_none.mp hw
      simp only [Option.none_or, List.mem_append, List.mem_filter, ha, not_false_eq_true,
        decide_true, and_true]
      by_cases hl : a ∈ looked
      · by_cases hb : w₀.binding a = none
        · simp [hl, hb]
        · obtain ⟨poly, hp⟩ := Option.ne_none_iff_exists'.mp hb
          simp [hl, hp, held_bound hp]
      · simp [hl]
    -- One that it has stored to was bound when the second part looked for it.
    · have ha : a ∈ writes.map Prod.fst := by
        by_contra hnot
        rw [Writes.last_eq_none.mpr hnot] at hw
        cases hw
      simp [ha]

/-- Words of the dimension's size are there after what is recorded too. -/
theorem stocked (h : RecordsTo F w₀ looked writes w) (hw : w₀.Stocked) : w.Stocked := by
  intro a ha
  rw [h.shadow] at ha
  split_ifs at ha with hleft
  · exact absurd rfl ha
  · rw [h.allocSet, h.config, h.polyBytes]
    exact hw a ha

/-- Words stay where what was looked up is bound or has none. -/
theorem shadow_eq_iff (h : RecordsTo F w₀ looked writes w) :
    (∀ a, w.shadow a = w₀.shadow a) ↔ ∀ a ∈ looked, w₀.binding a ≠ none ∨ w₀.shadow a = none := by
  refine ⟨fun hsame a ha => ?_, fun hkept a => ?_⟩
  · by_contra hnot
    rw [not_or, not_not] at hnot
    have hs := h.shadow a
    rw [if_pos ⟨ha, hnot.1⟩, hsame] at hs
    exact hnot.2 hs
  · rw [h.shadow]
    split_ifs with hleft
    · rcases hkept a hleft.1 with hb | hs
      · exact absurd hleft.2 hb
      · exact hs.symm
    · rfl

end RecordsTo

end

/-! ## Reachable states -/

/-- What is allocated is allocated under a ring dimension. -/
theorem ringDim_act {F : Fhetch P M} {w : World P M} {x : Action P M} (hx : w.Allowed x) (hw : w.Inv)
    (h : w.allocator.allocSet.Nonempty → w.config.ringDim ≠ 0) :
    (w.act F x).allocator.allocSet.Nonempty → (w.act F x).config.ringDim ≠ 0 := by
  cases x with
  -- A new address needs a size, and so a dimension.
  | allocator x =>
    rintro ⟨a, ha⟩ hdim
    have hbytes : w.allocator.polyBytes = 0 := by
      rw [hw.size]
      change w.config.ringDim = 0 at hdim
      rw [hdim]
      rfl
    have hlive : w.allocator.allocSet.Nonempty := by
      cases x with
      | allocateOne => exact absurd hbytes hx
      | freeOne b =>
        refine ⟨a, ?_⟩
        change a ∈ (DeviceAllocator.freeOneLocked b w.allocator).2.allocSet at ha
        unfold DeviceAllocator.freeOneLocked at ha
        split_ifs at ha
        · exact Finset.mem_of_mem_erase ha
        · exact ha
      | _ => exact ⟨a, ha⟩
    exact h hlive hdim
  | ringDimension n =>
    -- The setter refuses a dimension of zero.
    rintro - rfl
    exact absurd hx.1 (by decide)
  | config c =>
    intro hlive hdim
    exact h hlive (hx ▸ hdim)
  | session env =>
    obtain ⟨_, _, _, -, he⟩ := session_frame (F := F) env w
    rw [he]
    exact h
  | reset => exact fun hlive => absurd hlive Finset.not_nonempty_empty
  | _ => exact h

/-- With a live address the dimension is configured. -/
theorem Reachable.ringDim {F : Fhetch P M} {w : World P M} (h : w.Reachable F)
    {a : DevAddr} (ha : a ∈ w.allocator.allocSet) : w.config.ringDim ≠ 0 := by
  obtain ⟨is, rfl⟩ := h
  have hall : ∀ w : World P M, w.Inv → (w.allocator.allocSet.Nonempty → w.config.ringDim ≠ 0) →
      (runAll F w is).allocator.allocSet.Nonempty → (runAll F w is).config.ringDim ≠ 0 := by
    clear ha
    induction is with
    | nil => exact fun _ _ h => h
    | cons i is ih =>
      intro w hw h
      refine ih _ (hw.after i) ?_
      exact ((Call.performs i.env i.call w).preserves
        (I := fun w => w.Inv ∧ (w.allocator.allocSet.Nonempty → w.config.ringDim ≠ 0))
        (fun _ _ hx hv => ⟨hv.1.act hx.2, ringDim_act hx.2 hv.1 hv.2⟩) ⟨hw, h⟩).2
  exact hall _ inv_init (fun h => absurd h Finset.not_nonempty_empty) ⟨a, ha⟩

/-- In a reachable state the words are of the dimension's size. -/
theorem Reachable.stocked {F : Fhetch P M} {w : World P M} (h : w.Reachable F) : w.Stocked := by
  intro a ha
  obtain ⟨values, hs⟩ := Option.ne_none_iff_exists'.mp ha
  have hlive := h.inv.live_of_shadow hs
  refine ⟨hlive, h.ringDim hlive, ?_⟩
  rw [h.inv.size]
  exact UInt64.lt_irrefl _

end World

end Haze
