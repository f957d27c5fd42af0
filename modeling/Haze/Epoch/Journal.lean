import Haze.Epoch.Frame
import Haze.Epoch.Registry
import Haze.Lib.Events

/-!
# The journal of an epoch

What the epoch knows of its addresses, in terms of the events that the calls go through: an address
is resolved, computed into, copied, rotated by an automorphism, uploaded to, tagged, dropped, or
written as one residue of a group. The journal has a cell for each bound address, with the modulus
that the epoch records for it and whether it is an input, the tagged addresses, and the registry of
groups.

Beside what the epoch stores, a cell keeps its history: the modulus of the last event on the current
binding that carries one (`provenance`), and the modulus that the binding was written under
(`written`). `EpochState.Records` relates an epoch to a journal, and each change of the epoch state
is an event.
-/

namespace Haze

/-- What is known of a bound address. -/
structure Cell where
  /-- The modulus that the epoch records, or the copy sentinel. -/
  recorded : UInt64
  /-- Whether the binding is an input. -/
  input : Bool
  /-- The modulus of the last event on the binding that carries one, or the copy sentinel. -/
  provenance : UInt64
  /-- The modulus that the binding was written under by an operation that carries one. -/
  written : Option UInt64
deriving DecidableEq, Repr

/-- The cell of an input, under whatever modulus is recorded. -/
def Cell.raw (recorded : UInt64) : Cell := ⟨recorded, true, kCopyModulus, none⟩

/-- The cell of a result. -/
def Cell.computed (recorded provenance : UInt64) : Cell :=
  ⟨recorded, false, provenance, if recorded = kCopyModulus then none else some recorded⟩

/-- The journal. -/
structure Journal where
  cell : DevAddr → Option Cell
  tagged : DevAddr → Prop
  registry : Registry

/-- What happens to the addresses of an epoch. -/
inductive EpochEvent where
  /-- A reference to an address, which binds its words as an input unless it is bound. -/
  | resolve (addr : DevAddr)
  | compute (addr : DevAddr) (modulus : UInt64)
  /-- A copy; under the copy sentinel it takes the modulus of the source. -/
  | copy (dst src : DevAddr) (modulus : UInt64)
  | rotate (dst src : DevAddr)
  | upload (addr : DevAddr)
  /-- The registration of several destinations as a group. -/
  | register (addrs : List DevAddr) (moduli : List UInt64)
  | tag (addr : DevAddr)
  | invalidate (addr : DevAddr)
  | clear
deriving DecidableEq, Repr

namespace Journal

/-- The journal of an epoch at start. -/
def empty : Journal where
  cell _ := none
  tagged _ := False
  registry := .empty

/-- The modulus recorded for an address. -/
def recorded (l : Journal) (a : DevAddr) : UInt64 := ((l.cell a).map (·.recorded)).getD kCopyModulus

/-- The modulus of the last event on an address's binding that carries one. -/
def provenance (l : Journal) (a : DevAddr) : UInt64 :=
  ((l.cell a).map (·.provenance)).getD kCopyModulus

/-- Replace the cell of an address. -/
def set (a : DevAddr) (c : Cell) (l : Journal) : Journal :=
  { l with cell := fun b => if b = a then some c else l.cell b }

/-- Apply an explicit modulus to an address. -/
def annotate (a : DevAddr) (q : UInt64) (l : Journal) : Journal :=
  { l with cell := fun b => if b = a
      then (l.cell a).map fun c => { c with recorded := q, provenance := q } else l.cell b }

/-- A tagged entry is written in another shape, and so tags its addresses again. -/
def Retags (l : Journal) (addrs : List DevAddr) (moduli : List UInt64) : Prop :=
  ∃ e, l.registry (addrs.headD .null) = some e ∧ e.tagged = true ∧
    ¬ (e.addrs = addrs ∧ e.moduli = moduli)

/-- An address is in one entry with another. -/
def Together (l : Journal) (a b : DevAddr) : Prop :=
  ∃ x e, l.registry x = some e ∧ a ∈ e.addrs ∧ b ∈ e.addrs

/-- A reference to an address. The words that an unbound address is bound to carry no modulus. -/
def resolve (a : DevAddr) (l : Journal) : Journal :=
  match l.cell a with
  | some _ => l
  | none => l.set a (.raw kCopyModulus)

/-- A copy. An explicit modulus is applied to the source as well. -/
def copy (d s : DevAddr) (q : UInt64) (l : Journal) : Journal :=
  if q = kCopyModulus then l.set d (.computed (l.recorded s) (l.provenance s))
  else (l.annotate s q).set d (.computed q q)

/-- An upload. The address loses its tag; a modulus that was recorded for it stays recorded. -/
def upload (a : DevAddr) (l : Journal) : Journal :=
  { l.set a (.raw (l.recorded a)) with tagged := fun b => b ≠ a ∧ l.tagged b }

/-- The registration of a group. -/
def register (addrs : List DevAddr) (moduli : List UInt64) (l : Journal) : Journal :=
  { l with
    tagged := fun b => l.tagged b ∨ b ∈ addrs ∧ l.Retags addrs moduli
    registry := l.registry.write addrs moduli }

/-- The declaration of an output, which a bound address can be, with the group that it is in. -/
def tag (a : DevAddr) (l : Journal) : Journal :=
  match l.cell a with
  | none => l
  | some _ => { l with
    tagged := fun b => l.tagged b ∨ b = a ∨ l.Together a b
    registry := l.registry.tag a }

/-- The end of an address's binding. -/
def invalidate (a : DevAddr) (l : Journal) : Journal where
  cell b := if b = a then none else l.cell b
  tagged b := b ≠ a ∧ l.tagged b
  registry := l.registry.invalidate a

/-- The effect of an event. -/
def apply (l : Journal) : EpochEvent → Journal
  | .resolve a => l.resolve a
  | .compute a q => l.set a (.computed q q)
  | .copy d s q => l.copy d s q
  | .rotate d s => l.set d (.computed (l.recorded s) (l.provenance s))
  | .upload a => l.upload a
  | .register addrs moduli => l.register addrs moduli
  | .tag a => l.tag a
  | .invalidate a => l.invalidate a
  | .clear => empty

/-! ### Cells after an event -/

/-- The cell that is set is that of the address. -/
theorem cell_set (a : DevAddr) (c : Cell) (l : Journal) (b : DevAddr) :
    (l.set a c).cell b = if b = a then some c else l.cell b := rfl

/-- A lookup leaves a bound address, and makes an input of one that is not. -/
theorem cell_resolve (a : DevAddr) (l : Journal) (b : DevAddr) : (l.resolve a).cell b =
    if b = a then some ((l.cell a).getD (.raw kCopyModulus)) else l.cell b := by
  unfold resolve
  rcases hc : l.cell a with _ | c
  · rfl
  · by_cases hb : b = a
    · rw [if_pos hb, hb, hc]
      rfl
    · rw [if_neg hb]

/-- An annotation changes the modulus of a bound address. -/
theorem cell_annotate (a : DevAddr) (q : UInt64) (l : Journal) (b : DevAddr) :
    (l.annotate a q).cell b = if b = a
      then (l.cell a).map fun c => { c with recorded := q, provenance := q } else l.cell b := rfl

/-- A tag changes no cell. -/
theorem cell_tag (a : DevAddr) (l : Journal) : (l.tag a).cell = l.cell := by
  unfold tag
  rcases l.cell a with _ | c <;> rfl

/-- An invalidated address has no cell. -/
theorem cell_invalidate (a : DevAddr) (l : Journal) (b : DevAddr) :
    (l.invalidate a).cell b = if b = a then none else l.cell b := rfl

/-- Two journals tell the same epoch, with whatever history. -/
structure Same (l l' : Journal) : Prop where
  cell : ∀ a, (l.cell a).map (fun c => (c.recorded, c.input)) =
    (l'.cell a).map fun c => (c.recorded, c.input)
  tagged : ∀ a, l.tagged a ↔ l'.tagged a
  registry : l.registry = l'.registry

namespace Same

variable {l l' : Journal}

/-- Agreement is symmetric. -/
theorem symm (h : l.Same l') : l'.Same l :=
  ⟨fun a => (h.cell a).symm, fun a => (h.tagged a).symm, h.registry.symm⟩

/-- Journals that agree have the same addresses bound. -/
theorem isSome (h : l.Same l') (a : DevAddr) : (l.cell a).isSome = (l'.cell a).isSome := by
  have hcell := congrArg Option.isSome (h.cell a)
  rwa [Option.isSome_map, Option.isSome_map] at hcell

/-- Journals that agree have the same moduli recorded. -/
theorem recorded (h : l.Same l') (a : DevAddr) : l.recorded a = l'.recorded a := by
  have hcell := congrArg (fun o => (o.map Prod.fst).getD kCopyModulus) (h.cell a)
  rwa [Option.map_map, Option.map_map] at hcell

/-- Setting cells that agree keeps the journals in agreement. -/
theorem set (h : l.Same l') (d : DevAddr) {c c' : Cell} (hr : c.recorded = c'.recorded)
    (hi : c.input = c'.input) : (l.set d c).Same (l'.set d c') where
  cell b := by
    rw [cell_set, cell_set]
    split_ifs
    · rw [Option.map_some, Option.map_some, hr, hi]
    · exact h.cell b
  tagged := h.tagged
  registry := h.registry

/-- An annotation keeps the journals in agreement. -/
theorem annotate (h : l.Same l') (d : DevAddr) (q : UInt64) :
    (l.annotate d q).Same (l'.annotate d q) where
  cell b := by
    rw [cell_annotate, cell_annotate]
    split_ifs
    · have hcell := congrArg (fun o => o.map fun f => (q, f.2)) (h.cell d)
      rw [Option.map_map, Option.map_map] at hcell ⊢
      exact hcell
    · exact h.cell b
  tagged := h.tagged
  registry := h.registry

/-- Two journals that tell the same epoch do so after an event. -/
theorem apply (h : l.Same l') (e : EpochEvent) : (l.apply e).Same (l'.apply e) := by
  -- Both journals agree on what is bound, so they take the same branch.
  cases e with
  | resolve a =>
    have ha := h.isSome a
    change (l.resolve a).Same (l'.resolve a)
    unfold resolve
    rcases hc : l.cell a with _ | c <;> rcases hc' : l'.cell a with _ | c' <;> rw [hc, hc'] at ha
    · exact h.set a rfl rfl
    · cases ha
    · cases ha
    · exact h
  | compute a q => exact h.set a rfl rfl
  | copy d s q =>
    change (l.copy d s q).Same (l'.copy d s q)
    unfold copy
    split_ifs
    · exact h.set d (h.recorded s) rfl
    · exact (h.annotate s q).set d rfl rfl
  | rotate d s => exact h.set d (h.recorded s) rfl
  | upload a =>
    have hset : (l.set a (.raw (l.recorded a))).Same (l'.set a (.raw (l'.recorded a))) :=
      h.set a (h.recorded a) rfl
    exact ⟨hset.cell, fun b => and_congr_right fun _ => h.tagged b, hset.registry⟩
  | register addrs moduli =>
    refine ⟨h.cell, fun b => or_congr (h.tagged b) ?_,
      congrArg (Registry.write addrs moduli) h.registry⟩
    unfold Retags
    rw [h.registry]
  | tag a =>
    have ha := h.isSome a
    change (l.tag a).Same (l'.tag a)
    unfold tag
    rcases hc : l.cell a with _ | c <;> rcases hc' : l'.cell a with _ | c' <;> rw [hc, hc'] at ha
    · exact h
    · cases ha
    · cases ha
    · refine ⟨h.cell, fun b => or_congr (h.tagged b) (or_congr_right ?_),
        congrArg (Registry.tag a) h.registry⟩
      unfold Together
      rw [h.registry]
  | invalidate a =>
    refine ⟨fun b => ?_, fun b => and_congr_right fun _ => h.tagged b,
      congrArg (Registry.invalidate a) h.registry⟩
    change ((l.invalidate a).cell b).map _ = ((l'.invalidate a).cell b).map _
    rw [cell_invalidate, cell_invalidate]
    split_ifs
    · rfl
    · exact h.cell b
  | clear => exact ⟨fun _ => rfl, fun _ => Iff.rfl, rfl⟩

end Same

/-- The events on a journal, where `words` says why an unbound address cannot be resolved to its
words, if it cannot. -/
def machine (words : DevAddr → Option HazeInternalError) :
    EventMachine Journal EpochEvent HazeInternalError where
  apply := apply
  refuse l
    | .resolve a => if (l.cell a).isSome then none else words a
    | _ => none

/-- What happens of a plan depends on the epoch alone. -/
theorem Same.performed {l l' : Journal} (h : l.Same l') (words : DevAddr → Option HazeInternalError)
    (es : List EpochEvent) : (machine words).performed l es = (machine words).performed l' es ∧
      (machine words).refusal l es = (machine words).refusal l' es := by
  induction es generalizing l l' with
  | nil => exact ⟨rfl, rfl⟩
  | cons e es ih =>
    have hrefuse : (machine words).refuse l e = (machine words).refuse l' e := by
      cases e with
      | resolve a =>
        change (if (l.cell a).isSome then none else words a) = _
        rw [h.isSome a]
        rfl
      | _ => rfl
    obtain ⟨hperformed, hrefusal⟩ := ih (h.apply e)
    unfold EventMachine.performed EventMachine.refusal
    rw [hrefuse]
    rcases (machine words).refuse l' e with _ | x
    · exact ⟨congrArg (e :: ·) hperformed, hrefusal⟩
    · exact ⟨rfl, rfl⟩

end Journal

namespace EpochState

variable {P : Type}

/-- The modulus recorded for a bound address, and whether it is an input. -/
def facts (s : EpochState P) (a : DevAddr) : Option (UInt64 × Bool) :=
  if a ∈ s.polyMap then some (s.recordedModulusLocked a, decide (a ∈ s.inputAddrs)) else none

/-- What the epoch itself knows of its addresses, without their history. -/
def journal (s : EpochState P) : Journal where
  cell a := (s.facts a).map fun f => ⟨f.1, f.2, f.1, none⟩
  tagged a := a ∈ s.pendingOutputs
  registry := s.registry

/-- The epoch is what the journal says. -/
structure Records (s : EpochState P) (l : Journal) : Prop where
  valid : s.Valid
  cell : ∀ a, (l.cell a).map (fun c => (c.recorded, c.input)) = s.facts a
  tagged : ∀ a, l.tagged a ↔ a ∈ s.pendingOutputs
  registry : s.registry = l.registry
  /-- The addresses that lead named groups are bound. -/
  named : ∀ a, a ∈ s.groupNames.1 ∨ a ∈ s.groupNames.2 → a ∈ s.polyMap

/-! ## The facts after an action -/

/-- The facts depend on three of the maps. -/
theorem facts_congr {s t : EpochState P} (hb : t.bindings = s.bindings)
    (hm : t.addrModulus = s.addrModulus) (a : DevAddr) : t.facts a = s.facts a := by
  unfold bindings at hb
  simp only [Prod.mk.injEq] at hb
  unfold facts recordedModulusLocked
  rw [hb.1, hb.2.1, hm]

/-- An unbound address has no facts. -/
theorem facts_unbound {s : EpochState P} {a : DevAddr} : s.facts a = none ↔ a ∉ s.polyMap := by
  unfold facts
  split_ifs with h <;> simp [h]

/-- A bound input keeps the modulus that is recorded for the address. -/
theorem facts_bindInput (a : DevAddr) (poly : P) (s : EpochState P) (b : DevAddr) :
    (s.bindInput a poly).facts b =
      if b = a then some (s.recordedModulusLocked a, true) else s.facts b := by
  have hmem : b ∈ (s.bindInput a poly).polyMap ↔ b = a ∨ b ∈ s.polyMap := AList.mem_insert _
  have hin : b ∈ (s.bindInput a poly).inputAddrs ↔ b = a ∨ b ∈ s.inputAddrs := Finset.mem_insert
  unfold facts
  by_cases hb : b = a
  · rw [if_pos hb, if_pos (hmem.mpr (.inl hb)), decide_eq_true (hin.mpr (.inl hb)), hb]
    rfl
  · rw [if_neg hb]
    simp only [hmem, hin, hb, false_or]
    rfl

/-- A store records its modulus for its address. -/
theorem recorded_store (a : DevAddr) (poly : P) (q : UInt64) (s : EpochState P) (b : DevAddr) :
    (s.storeComputeResultLocked a poly q).recordedModulusLocked b =
      if b = a then q else s.recordedModulusLocked b := by
  unfold recordedModulusLocked storeComputeResultLocked
  dsimp only
  split_ifs with hq hb hb
  · rw [UMap.lookup_insert_ite, if_pos hb]
    rfl
  · rw [UMap.lookup_insert_ite, if_neg hb]
  · rw [UMap.lookup_erase_ite, if_pos hb]
    exact (not_not.mp hq).symm
  · rw [UMap.lookup_erase_ite, if_neg hb]

/-- A stored result is under its modulus, and no input. -/
theorem facts_store (a : DevAddr) (poly : P) (q : UInt64) (s : EpochState P) (b : DevAddr) :
    (s.storeComputeResultLocked a poly q).facts b =
      if b = a then some (q, false) else s.facts b := by
  have hmem : b ∈ (s.storeComputeResultLocked a poly q).polyMap ↔ b = a ∨ b ∈ s.polyMap :=
    AList.mem_insert _
  have hin : b ∈ (s.storeComputeResultLocked a poly q).inputAddrs ↔ b ≠ a ∧ b ∈ s.inputAddrs :=
    Finset.mem_erase
  unfold facts
  rw [recorded_store]
  by_cases hb : b = a
  · rw [if_pos hb, if_pos (hmem.mpr (.inl hb)), if_pos hb,
      decide_eq_false fun h => (hin.mp h).1 hb]
  · simp only [hmem, hin, hb, if_false, false_or, ne_eq, not_false_eq_true, true_and]

/-- The modulus of one address is recorded. -/
theorem recorded_recordModulus (a : DevAddr) (q : UInt64) (s : EpochState P) (b : DevAddr) :
    (s.recordModulus a q).recordedModulusLocked b =
      if b = a then q else s.recordedModulusLocked b := by
  unfold recordedModulusLocked recordModulus
  dsimp only
  rw [UMap.lookup_insert_ite]
  split_ifs <;> rfl

/-- Recording a modulus changes the facts of a bound address. -/
theorem facts_recordModulus (a : DevAddr) (q : UInt64) (s : EpochState P) (b : DevAddr) :
    (s.recordModulus a q).facts b =
      if b = a then (s.facts a).map fun f => (q, f.2) else s.facts b := by
  have hmem : b ∈ (s.recordModulus a q).polyMap ↔ b ∈ s.polyMap := Iff.rfl
  unfold facts
  rw [recorded_recordModulus]
  by_cases hb : b = a
  · subst hb
    simp only [hmem, if_true]
    split_ifs <;> rfl
  · simp only [hmem, hb, if_false]
    rfl

/-- An invalidated address has no facts. -/
theorem facts_invalidate (a : DevAddr) (s : EpochState P) (b : DevAddr) :
    (s.invalidate a).facts b = if b = a then none else s.facts b := by
  have hbind := s.evictGroupsOf_bindings a
  have hmod := apart_addrModulus.evictGroupsOf a s
  rw [← facts_congr hbind hmod b]
  unfold invalidate facts recordedModulusLocked
  dsimp only
  by_cases hb : b = a
  · simp [hb]
  · simp [hb, AList.mem_erase]

/-- The facts are apart from the registry. -/
theorem apart_facts (b : DevAddr) : Apart fun s : EpochState P => s.facts b where
  registry h := facts_congr (apart_bindings.registry h) (apart_addrModulus.registry h) b
  tags h := facts_congr (apart_bindings.tags h) (apart_addrModulus.tags h) b

/-- Naming a group changes no facts. -/
theorem facts_nameGroup (output : Bool) (leading : DevAddr) (s : EpochState P) (b : DevAddr) :
    (mrpGroupNameLocked output leading s).2.facts b = s.facts b := by
  refine facts_congr (nameGroup_bindings output leading s) ?_ b
  unfold mrpGroupNameLocked
  split_ifs
  · rcases AList.lookup leading s.mrpOutNames with _ | name <;> rfl
  · rcases AList.lookup leading s.mrpInNames with _ | name <;> rfl

/-! ## The tags after an action -/

/-- What tagging a group tags. -/
theorem tagGroup_tags (s : EpochState P) (name : ProbeName) :
    (∀ b, b ∈ (s.tagGroup name).pendingOutputs ↔ b ∈ s.pendingOutputs ∨ s.Member name b) ∧
      (s.tagGroup name).knownMrpGroups = s.knownMrpGroups := by
  refine ⟨fun b => ?_, (tagGroup_registry s name).2.1⟩
  unfold tagGroup Member
  rcases AList.lookup name s.knownMrpGroups with _ | group
  · simp
  · dsimp only
    rw [(tagAll_spec s group.addrs).keys b]
    simp

/-- Tagging groups tags their members. -/
theorem tagGroups_tags (s : EpochState P) (names : List ProbeName) (b : DevAddr) :
    b ∈ (names.foldl tagGroup s).pendingOutputs ↔
      b ∈ s.pendingOutputs ∨ ∃ n ∈ names, s.Member n b := by
  induction names generalizing s with
  | nil => simp
  | cons name names ih =>
    obtain ⟨htags, hknown⟩ := tagGroup_tags s name
    have hmember : ∀ n, (s.tagGroup name).Member n b ↔ s.Member n b := fun n => by
      unfold Member
      rw [hknown]
    rw [List.foldl_cons, ih, htags, or_assoc]
    simp only [hmember, List.mem_cons, exists_eq_or_imp]

/-- Declaring a bound address an output tags the address and the group that it is in. -/
theorem tagOutput_tags {s : EpochState P} (hs : s.Valid) {a : DevAddr} (ha : a ∈ s.polyMap)
    (b : DevAddr) : b ∈ (tagOutputLocked a s).2.pendingOutputs ↔
      b ∈ s.pendingOutputs ∨ b = a ∨ ∃ n, s.Member n a ∧ s.Member n b := by
  have hindexed := hs.consistent.indexed
  unfold tagOutputLocked
  rw [if_neg (not_not.mpr ha)]
  rcases hl : AList.lookup a s.addrToMrpGroups with _ | names
  · have hnone : ∀ n, ¬ s.Member n a := fun n hm => by
      obtain ⟨names, hnames, -⟩ := hindexed.member_iff.mp hm
      rw [hl] at hnames
      cases hnames
    rw [(tagIfUntagged_spec s a).keys b]
    simp [hnone]
  · have hmember : ∀ n, s.Member n a ↔ n ∈ names.keys := fun n => by
      rw [hindexed.member_iff, hl]
      simp [AList.mem_keys]
    -- The group of an address contains it.
    have hself : b = a → ∃ n ∈ names.keys, s.Member n b := by
      rintro rfl
      have hne := hindexed.noEmpty b names hl
      obtain ⟨n, hn⟩ : ∃ n, n ∈ names := by
        by_contra hnone
        exact hne (UMap.eq_empty_iff.mpr fun n hn => hnone ⟨n, hn⟩)
      exact ⟨n, AList.mem_keys.mp hn, (hmember n).mpr (AList.mem_keys.mp hn)⟩
    rw [tagGroups_tags]
    simp only [hmember]
    refine or_congr_right ⟨fun ⟨n, hn, hm⟩ => .inr ⟨n, hn, hm⟩, ?_⟩
    rintro (hb | ⟨n, hn, hm⟩)
    · exact hself hb
    · exact ⟨n, hn, hm⟩

/-- A registration tags the group's addresses when it changes the shape of a tagged group. -/
theorem register_tags {s : EpochState P} (hs : s.Valid) {addrs : List DevAddr}
    {moduli : List UInt64} (hlen : addrs.length = moduli.length) (name : ProbeName) (b : DevAddr) :
    b ∈ (registerMrpOutputGroupLocked addrs moduli name s).2.pendingOutputs ↔
      b ∈ s.pendingOutputs ∨ b ∈ addrs ∧ name ∈ s.pendingMrpGroups ∧
        AList.lookup name s.knownMrpGroups ≠ some ⟨addrs, moduli⟩ := by
  -- The sweep takes other groups only, so this name is pending after it exactly when it was before.
  have hsweep := sweep_spec hs.consistent.indexed name addrs
  unfold registerMrpOutputGroupLocked
  rw [if_neg (not_not.mpr hlen)]
  have hframe := hsweep.frame
  have hpending := hsweep.pending name
  unfold RegistryOnly at hframe
  rcases hg : AList.lookup name s.knownMrpGroups with _ | existing
  · have hnot : name ∉ s.pendingMrpGroups := fun hp =>
      UMap.notMem_iff_lookup.mpr hg (hs.consistent.pending_known name hp)
    dsimp only [claimGroup]
    rw [hframe]
    simp [hnot]
  dsimp only
  -- The same group again tags nothing; a group that was pending passes its tag on to all members.
  split_ifs with he hp
  · simp [he]
  · rw [(tagAll_spec _ addrs).keys b]
    dsimp only [claimGroup, withdrawClaims] at hp ⊢
    rw [hframe]
    have hp' := (hpending.mp hp).1
    simp [hp', he, and_true]
  · dsimp only [claimGroup, withdrawClaims] at hp ⊢
    have hnot : name ∉ s.pendingMrpGroups := fun h => hp (hpending.mpr ⟨h, fun hg => hg.1.1 rfl⟩)
    rw [hframe]
    simp [hnot]

/-! ## Events -/

/-- The state at start is what the empty journal says. -/
theorem records_init : (init : EpochState P).Records .empty where
  valid := valid_init
  cell _ := rfl
  tagged a := ⟨fun h => h.elim, fun h => absurd h (AList.notMem_empty a)⟩
  registry := rfl
  named a h := absurd h (not_or.mpr ⟨AList.notMem_empty a, AList.notMem_empty a⟩)

namespace Records

variable {s : EpochState P} {l : Journal}

/-- The addresses without a cell are the unbound ones. -/
theorem unbound_iff (h : s.Records l) {a : DevAddr} : l.cell a = none ↔ a ∉ s.polyMap := by
  rw [← facts_unbound, ← h.cell a, Option.map_eq_none_iff]

/-- The addresses with a cell are the bound ones. -/
theorem bound_iff (h : s.Records l) {a : DevAddr} : (l.cell a).isSome = true ↔ a ∈ s.polyMap := by
  rw [Option.isSome_iff_ne_none, ne_eq, h.unbound_iff, not_not]

/-- The journal tells what the epoch itself knows. -/
theorem same (h : s.Records l) : l.Same s.journal where
  cell a := by
    rw [h.cell a]
    change _ = ((s.facts a).map _).map _
    rw [Option.map_map]
    exact (Option.map_id' ..).symm
  tagged := h.tagged
  registry := h.registry.symm

/-- The journal has the modulus that the epoch records, for a bound address or not. -/
theorem recorded (h : s.Records l) (a : DevAddr) : l.recorded a = s.recordedModulusLocked a := by
  have hcell := h.cell a
  unfold facts at hcell
  unfold Journal.recorded
  split_ifs at hcell with ha
  · obtain ⟨c, hc, heq⟩ := Option.map_eq_some_iff.mp hcell
    rw [hc]
    exact congrArg Prod.fst heq
  · rw [Option.map_eq_none_iff.mp hcell]
    have hnone : a ∉ s.addrModulus := fun hm => ha (h.valid.consistent.modulus_bound a hm)
    unfold recordedModulusLocked
    rw [UMap.notMem_iff_lookup.mp hnone]
    rfl

/-- A change of one cell. -/
theorem set (h : s.Records l) {t : EpochState P} {a : DevAddr} {c : Cell} (hv : t.Valid)
    (hfacts : ∀ b, t.facts b = if b = a then some (c.recorded, c.input) else s.facts b)
    (htags : t.pendingOutputs = s.pendingOutputs) (hregistry : t.registry = s.registry)
    (hnames : t.groupNames = s.groupNames) :
    t.Records (l.set a c) where
  valid := hv
  cell b := by
    rw [hfacts b]
    unfold Journal.set
    dsimp only
    split_ifs
    · rfl
    · exact h.cell b
  tagged b := by
    rw [htags]
    exact h.tagged b
  registry := hregistry.trans h.registry
  -- A name stays bound, since only `a` can have changed and it is bound now.
  named b hb := by
    rw [hnames] at hb
    have hbound := h.named b hb
    by_contra hnot
    have hfact := hfacts b
    rw [facts_unbound.mpr hnot] at hfact
    split_ifs at hfact
    exact facts_unbound.mp hfact.symm hbound

/-- The first reference to an unbound address. -/
theorem bindInput (h : s.Records l) {a : DevAddr} (ha : a ∉ s.polyMap) (poly : P) :
    (s.bindInput a poly).Records (l.resolve a) := by
  have hrecorded := h.recorded a
  unfold Journal.recorded at hrecorded
  rw [h.unbound_iff.mpr ha] at hrecorded
  unfold Journal.resolve
  rw [h.unbound_iff.mpr ha]
  refine h.set (h.valid.bindInput a poly) (fun b => ?_) rfl rfl rfl
  rw [facts_bindInput, ← hrecorded]
  rfl

/-- A further reference to a bound address. -/
theorem resolve_bound (h : s.Records l) {a : DevAddr} (ha : a ∈ s.polyMap) :
    l.resolve a = l := by
  obtain ⟨c, hc⟩ := Option.isSome_iff_exists.mp (h.bound_iff.mpr ha)
  unfold Journal.resolve
  rw [hc]

/-- An upload is journalled as one. -/
theorem upload (h : s.Records l) (a : DevAddr) (poly : P) :
    ((s.bindInput a poly).dropTag a).Records (l.upload a) := by
  have hset : (s.bindInput a poly).Records (l.set a (.raw (l.recorded a))) := by
    refine h.set (h.valid.bindInput a poly) (fun b => ?_) rfl rfl rfl
    rw [facts_bindInput, h.recorded a]
    rfl
  refine ⟨hset.valid.dropTag a, hset.cell, fun b => ?_, hset.registry, hset.named⟩
  unfold Journal.upload dropTag
  dsimp only
  rw [AList.mem_erase]
  exact and_congr_right fun _ => hset.tagged b

/-- A store is journalled as a computed cell. -/
theorem store (h : s.Records l) (a : DevAddr) (poly : P) (q p : UInt64) :
    (s.storeComputeResultLocked a poly q).Records (l.set a (.computed q p)) :=
  h.set (h.valid.store a poly q) (facts_store a poly q s) rfl rfl rfl

/-- Recording a modulus for a bound address. -/
theorem annotate (h : s.Records l) {a : DevAddr} (ha : a ∈ s.polyMap) (q : UInt64) :
    (s.recordModulus a q).Records (l.annotate a q) where
  valid := h.valid.recordModulus q ha
  cell b := by
    rw [facts_recordModulus]
    unfold Journal.annotate
    dsimp only
    split_ifs
    · rw [← h.cell a, Option.map_map, Option.map_map]
      rfl
    · exact h.cell b
  tagged := h.tagged
  registry := h.registry
  named := h.named

/-- Recording what is recorded changes nothing. -/
theorem recordModulus_self (h : s.Records l) {a : DevAddr} (ha : a ∈ s.polyMap) :
    (s.recordModulus a (s.recordedModulusLocked a)).Records l where
  valid := h.valid.recordModulus _ ha
  cell b := by
    rw [facts_recordModulus]
    split_ifs with hb
    · subst hb
      rw [h.cell b]
      unfold facts
      rw [if_pos ha]
      rfl
    · exact h.cell b
  tagged := h.tagged
  registry := h.registry
  named := h.named

/-- An invalidation is journalled as one. -/
theorem invalidate (h : s.Records l) (a : DevAddr) :
    (s.invalidate a).Records (l.invalidate a) where
  valid := h.valid.invalidate a
  cell b := by
    rw [facts_invalidate]
    unfold Journal.invalidate
    dsimp only
    split_ifs
    · rfl
    · exact h.cell b
  tagged b := by
    have hpend : (s.invalidate a).pendingOutputs = AList.erase a s.pendingOutputs := by
      have hframe := (evictGroupsOf_spec h.valid.consistent.indexed a).frame
      unfold RegistryOnly at hframe
      unfold EpochState.invalidate
      rw [hframe]
    rw [hpend, AList.mem_erase]
    exact and_congr_right fun _ => h.tagged b
  registry := by
    rw [registry_invalidate h.valid a, h.registry]
    rfl
  named b hb := by
    -- The names that the address leads are dropped with it.
    have hbind := s.evictGroupsOf_bindings a
    have hnames := apart_groupNames.evictGroupsOf a s
    simp only [groupNames, Prod.mk.injEq] at hnames
    simp only [bindings, Prod.mk.injEq] at hbind
    simp only [EpochState.invalidate, groupNames, hnames, hbind, AList.mem_erase] at hb ⊢
    refine ⟨?_, h.named b (hb.imp And.right And.right)⟩
    rcases hb with hb | hb
    · exact hb.1
    · exact hb.1

/-- A change of the registry and of the tags leaves the named groups' addresses bound. -/
theorem named_apart (h : s.Records l) {t : EpochState P} (hbind : t.bindings = s.bindings)
    (hnames : t.groupNames = s.groupNames) (a : DevAddr)
    (ha : a ∈ t.groupNames.1 ∨ a ∈ t.groupNames.2) : a ∈ t.polyMap := by
  have hmap : t.polyMap = s.polyMap := congrArg Prod.fst hbind
  rw [hnames] at ha
  exact hmap ▸ h.named a ha

/-- Two addresses are together in an entry when they are members of one group. -/
theorem together_iff (h : s.Records l) {a b : DevAddr} :
    l.Together a b ↔ ∃ n, s.Member n a ∧ s.Member n b := by
  unfold Journal.Together
  rw [← h.registry]
  constructor
  · rintro ⟨x, e, he, ha, hb⟩
    obtain ⟨n, -, hg, -⟩ := registry_eq_some.mp he
    exact ⟨n, ⟨_, hg, ha⟩, ⟨_, hg, hb⟩⟩
  · rintro ⟨n, ⟨g, hg, ha⟩, ⟨g', hg', hb⟩⟩
    rw [hg] at hg'
    cases hg'
    obtain ⟨x, e, he, -, heq, -⟩ := h.valid.refines.group n g hg
    exact ⟨x, e, he, heq ▸ ha, heq ▸ hb⟩

/-- Tagging a bound output is journalled as a tag. -/
theorem tag (h : s.Records l) {a : DevAddr} (ha : a ∈ s.polyMap) :
    (tagOutputLocked a s).2.Records (l.tag a) := by
  obtain ⟨c, hc⟩ := Option.isSome_iff_exists.mp (h.bound_iff.mpr ha)
  unfold Journal.tag
  rw [hc]
  refine ⟨h.valid.tagOutput a, fun b => ?_, fun b => ?_, ?_,
    h.named_apart (tagOutput_bindings a s) (apart_groupNames.tagOutput a s)⟩
  · exact (h.cell b).trans ((apart_facts b).tagOutput a s).symm
  · dsimp only
    rw [tagOutput_tags h.valid ha, h.tagged b, h.together_iff]
  · rw [registry_tagOutput h.valid a, h.registry]

/-- The destinations of a multi-residue write are registered under the name of the first. -/
theorem register (h : s.Records l) {addrs : List DevAddr} {moduli : List UInt64} {name : ProbeName}
    (hi : s.Issued (.register addrs moduli name)) :
    (s.act (.register addrs moduli name)).Records (l.register addrs moduli) := by
  obtain ⟨hlen, -, hlead, -⟩ := id hi
  have hregistry := registry_act h.valid (.register addrs moduli name) hi
  -- The group that has this name is the one that the abstract registry holds at its leading
  -- address.
  have hretags : l.Retags addrs moduli ↔ name ∈ s.pendingMrpGroups ∧
      AList.lookup name s.knownMrpGroups ≠ some ⟨addrs, moduli⟩ := by
    unfold Journal.Retags
    rw [← h.registry, registry_named hlead]
    constructor
    · rintro ⟨e, he, htagged, hshape⟩
      obtain ⟨g, hg, rfl⟩ := Option.map_eq_some_iff.mp he
      refine ⟨of_decide_eq_true htagged, fun hsame => hshape ?_⟩
      rw [hg] at hsame
      cases hsame
      exact ⟨rfl, rfl⟩
    · rintro ⟨hp, hshape⟩
      obtain ⟨g, hg⟩ := UMap.mem_iff_lookup.mp (h.valid.consistent.pending_known name hp)
      refine ⟨_, by rw [hg]; rfl, decide_eq_true hp, ?_⟩
      rintro ⟨rfl, rfl⟩
      exact hshape hg
  refine ⟨h.valid.act _ hi, fun b => ?_, fun b => ?_, ?_,
    h.named_apart (register_bindings addrs moduli name s)
      (apart_groupNames.register addrs moduli name s)⟩
  -- No cell changes, the group's tag passes to its members, and the registry is written.
  · exact (h.cell b).trans ((apart_facts b).register addrs moduli name s).symm
  · dsimp only [EpochState.act, Journal.register]
    rw [register_tags h.valid hlen, h.tagged b, hretags]
  · rw [hregistry, h.registry]
    rfl

/-- Naming a group is not seen in the journal. -/
theorem nameGroup (h : s.Records l) (output : Bool) {leading : DevAddr}
    (hleading : leading ∈ s.polyMap) : (s.act (.nameGroup output leading)).Records l where
  valid := h.valid.nameGroup output leading
  cell b := (h.cell b).trans (facts_nameGroup output leading s b).symm
  tagged b := by
    -- Naming a group tags nothing and binds nothing.
    have hpend : (mrpGroupNameLocked output leading s).2.pendingOutputs = s.pendingOutputs := by
      unfold mrpGroupNameLocked
      split_ifs
      · rcases AList.lookup leading s.mrpOutNames with _ | name <;> rfl
      · rcases AList.lookup leading s.mrpInNames with _ | name <;> rfl
    rw [EpochState.act, hpend]
    exact h.tagged b
  registry := (registry_nameGroup h.valid output leading).trans h.registry
  named b hb := by
    have hmap : (s.act (.nameGroup output leading)).polyMap = s.polyMap :=
      congrArg Prod.fst (nameGroup_bindings output leading s)
    rw [hmap]
    by_cases hlead : b = leading
    · exact hlead ▸ hleading
    -- Any other name was there before.
    · refine h.named b ?_
      revert hb
      rw [EpochState.act, mrpGroupNameLocked]
      split_ifs
      · rcases AList.lookup leading s.mrpOutNames with _ | name
        · simp [groupNames, hlead]
        · exact id
      · rcases AList.lookup leading s.mrpInNames with _ | name
        · simp [groupNames, hlead]
        · exact id

/-- What the journal does not speak of. -/
theorem frame (h : s.Records l) (recording : Bool) (names : Finset ProbeName) :
    ({ s with recording := recording, mrpInputTaggedNames := names } : EpochState P).Records l where
  valid := h.valid.of_bindings rfl (fun _ hb => hb) h.valid.consistent.modulus_bound
    h.valid.consistent.input_bound
  cell := h.cell
  tagged := h.tagged
  registry := h.registry
  named := h.named

end Records

end EpochState

end Haze
