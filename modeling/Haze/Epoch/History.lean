import Haze.Epoch.Journal

/-!
# What the history of the bindings says of the epoch

Four properties of a journal, and what each event must meet to keep them: the modulus that is
recorded for a binding is the one that its last event carries (`Sourced`), the members of a group
were written under the moduli that the group has for them (`Coherent`), an address is in the group
that was registered over its last store and in no other (`Only`), and the computed members of a
tagged group are tagged (`Covered`). The last three are about events in their order, since a
multi-residue write stores its residues before it registers them.
-/

namespace Haze

/-- The address that an event stores a result in. -/
def EpochEvent.dst : EpochEvent → Option DevAddr
  | .compute a _ => some a
  | .copy d _ _ => some d
  | .rotate d _ => some d
  | _ => none

/-- The group that an event registers. -/
def EpochEvent.group : EpochEvent → Option (List DevAddr × List UInt64)
  | .register addrs moduli => some (addrs, moduli)
  | _ => none

/-- The first group that is registered in a list of events. -/
def nextGroup (es : List EpochEvent) : Option (List DevAddr × List UInt64) :=
  es.findSome? EpochEvent.group

namespace Journal

/-- The modulus that an event stores its result under. -/
def under (l : Journal) : EpochEvent → UInt64
  | .compute _ q => q
  | .copy _ s q => if q = kCopyModulus then l.recorded s else q
  | .rotate _ s => l.recorded s
  | _ => kCopyModulus

/-- The modulus that the binding of an address was written under. -/
def written (l : Journal) (a : DevAddr) : Option UInt64 := (l.cell a).bind (·.written)

/-- An address is bound to a result. -/
def IsComputed (l : Journal) (a : DevAddr) : Prop := ∃ c, l.cell a = some c ∧ c.input = false

/-- A registered group gives an address a modulus. -/
def Claims (l : Journal) (a : DevAddr) (m : UInt64) : Prop :=
  ∃ x e, l.registry x = some e ∧ (a, m) ∈ e.addrs.zip e.moduli

/-- Every store in a list of events meets a guard, which is given the group that is registered after
it, if one is. -/
def AlongStores (C : Journal → DevAddr → UInt64 → Option (List DevAddr × List UInt64) → Prop) :
    Journal → List EpochEvent → Prop
  | _, [] => True
  | l, e :: es =>
    (∀ a, e.dst = some a → C l a (l.under e) (nextGroup es)) ∧ AlongStores C (l.apply e) es

/-- A group is registered right after results were stored in its addresses `ds` and in no other. -/
def Blocked : List DevAddr → List EpochEvent → Prop
  | _, [] => True
  | ds, .register addrs _ :: es => (∀ a, a ∈ ds ↔ a ∈ addrs) ∧ Blocked [] es
  | ds, e :: es => Blocked (e.dst.toList ++ ds) es

/-! ## Stores -/

section

variable {l : Journal} {e : EpochEvent} {a b : DevAddr}

/-- What a store leaves. A copy under an explicit modulus also changes what is known of its source,
but not how that was written. -/
theorem store_spec (h : e.dst = some a) :
    (∃ p, (l.apply e).cell a = some (.computed (l.under e) p)) ∧
      (∀ b ≠ a, ((l.apply e).cell b).map (fun c => (c.input, c.written)) =
        (l.cell b).map fun c => (c.input, c.written)) ∧
      (l.apply e).tagged = l.tagged ∧ (l.apply e).registry = l.registry ∧ e.group = none := by
  -- A store sets one cell.
  have hset : ∀ (l : Journal) (c : Cell), (l.set a c).cell a = some c ∧
      ∀ b ≠ a, (l.set a c).cell b = l.cell b := fun l c => ⟨if_pos rfl, fun b hb => if_neg hb⟩
  cases e with
  | compute d q =>
    cases h
    exact ⟨⟨q, (hset l _).1⟩, fun b hb => by rw [apply, (hset l _).2 b hb], rfl, rfl, rfl⟩
  | rotate d s =>
    cases h
    exact ⟨⟨l.provenance s, (hset l _).1⟩, fun b hb => by rw [apply, (hset l _).2 b hb],
      rfl, rfl, rfl⟩
  | copy d s q =>
    cases h
    unfold apply under copy
    dsimp only
    split_ifs with hq
    · exact ⟨⟨l.provenance s, (hset l _).1⟩, fun b hb => by rw [(hset l _).2 b hb], rfl, rfl, rfl⟩
    -- The source is annotated first, which changes neither its input nor what was written.
    · refine ⟨⟨q, (hset _ _).1⟩, fun b hb => ?_, rfl, rfl, rfl⟩
      rw [(hset _ _).2 b hb, cell_annotate]
      split_ifs with hs
      · rw [hs, Option.map_map]
        rfl
      · rfl
  | _ => cases h

/-- The modulus of an address that was just stored is that of the store, and not the sentinel. -/
theorem written_store (h : e.dst = some a) {q : UInt64} (hq : (l.apply e).written a = some q) :
    q = l.under e ∧ q ≠ kCopyModulus := by
  obtain ⟨p, hp⟩ := (store_spec (l := l) h).1
  unfold written at hq
  rw [hp] at hq
  change (if l.under e = kCopyModulus then none else some (l.under e)) = some q at hq
  split_ifs at hq with hcopy
  cases hq
  exact ⟨rfl, hcopy⟩

/-- A store writes no other address. -/
theorem written_store_ne (h : e.dst = some a) (hb : b ≠ a) :
    (l.apply e).written b = l.written b := by
  have hmap := congrArg (fun o => o.bind Prod.snd) ((store_spec (l := l) h).2.1 b hb)
  unfold written
  rcases hc : (l.apply e).cell b with _ | c <;> rcases hc' : l.cell b with _ | c' <;>
    rw [hc, hc'] at hmap <;> exact hmap

/-- A store makes no other address computed. -/
theorem isComputed_store_ne (h : e.dst = some a) (hb : b ≠ a) :
    (l.apply e).IsComputed b ↔ l.IsComputed b := by
  have hmap := (store_spec (l := l) h).2.1 b hb
  unfold IsComputed
  rcases hc : (l.apply e).cell b with _ | c <;> rcases hc' : l.cell b with _ | c' <;>
    rw [hc, hc'] at hmap <;> simp_all

/-- Beside a store, no event writes a binding under a modulus. -/
theorem written_quiet (h : e.dst = none) {q : UInt64} (hq : (l.apply e).written b = some q) :
    l.written b = some q := by
  unfold written at hq ⊢
  -- Only an upload, an invalidation or a clear touches a cell, and none of them writes.
  cases e with
  | resolve a =>
    change ((l.resolve a).cell b).bind _ = _ at hq
    rw [cell_resolve] at hq
    split_ifs at hq with hb
    · rcases hc : l.cell a with _ | c <;> rw [hc] at hq
      · cases hq
      · rw [hb, hc]
        exact hq
    · exact hq
  | upload a =>
    change ((l.set a _).cell b).bind _ = _ at hq
    rw [cell_set] at hq
    split_ifs at hq
    · cases hq
    · exact hq
  | register addrs moduli => exact hq
  | tag a =>
    change ((l.tag a).cell b).bind _ = _ at hq
    rwa [cell_tag] at hq
  | invalidate a =>
    change ((l.invalidate a).cell b).bind _ = _ at hq
    rw [cell_invalidate] at hq
    split_ifs at hq
    · cases hq
    · exact hq
  | clear => cases hq
  | _ => cases h

/-- Beside a registration, no event enters a group. -/
theorem registry_quiet (h : e.group = none) {x : DevAddr} {r : RegistryEntry}
    (hr : (l.apply e).registry x = some r) :
    ∃ r', l.registry x = some r' ∧ r'.addrs = r.addrs ∧ r'.moduli = r.moduli := by
  -- A tag marks entries and an invalidation drops some; the members stay what they are.
  cases e with
  | register addrs moduli => cases h
  | resolve a =>
    refine ⟨r, ?_, rfl, rfl⟩
    change (l.resolve a).registry x = some r at hr
    unfold resolve at hr
    rcases hc : l.cell a with _ | c <;> rw [hc] at hr <;> exact hr
  | copy d s q =>
    refine ⟨r, ?_, rfl, rfl⟩
    rwa [(store_spec (l := l) (e := .copy d s q) rfl).2.2.2.1] at hr
  | tag a =>
    change (l.tag a).registry x = some r at hr
    unfold tag at hr
    rcases hc : l.cell a with _ | c <;> rw [hc] at hr
    · exact ⟨r, hr, rfl, rfl⟩
    · obtain ⟨r', hr', rfl⟩ := Option.map_eq_some_iff.mp hr
      exact ⟨r', hr', rfl, rfl⟩
  | invalidate a =>
    obtain ⟨hr', -⟩ := Option.filter_eq_some_iff.mp hr
    exact ⟨r, hr', rfl, rfl⟩
  | clear => cases hr
  | _ => exact ⟨r, hr, rfl, rfl⟩

end

/-! ## Guards on stores -/

section

variable {C : Journal → DevAddr → UInt64 → Option (List DevAddr × List UInt64) → Prop} {l l' : Journal}
  {es : List EpochEvent}

/-- A guard that depends on the epoch alone. -/
theorem AlongStores.same (hC : ∀ {l l' : Journal}, l.Same l' → ∀ a q next, C l a q next → C l' a q next)
    (h : l.Same l') (hs : l.AlongStores C es) : l'.AlongStores C es := by
  induction es generalizing l l' with
  | nil => trivial
  | cons e es ih =>
    have hunder : l.under e = l'.under e := by
      unfold under
      cases e <;> simp only [h.recorded]
    exact ⟨fun a ha => hunder ▸ hC h a _ _ (hs.1 a ha), ih (h.apply e) hs.2⟩

/-- A weaker guard. -/
theorem AlongStores.imp {D : Journal → DevAddr → UInt64 → Option (List DevAddr × List UInt64) → Prop}
    (hCD : ∀ l a q next, C l a q next → D l a q next) (hs : l.AlongStores C es) :
    l.AlongStores D es := by
  induction es generalizing l with
  | nil => trivial
  | cons e es ih => exact ⟨fun a ha => hCD l a _ _ (hs.1 a ha), ih hs.2⟩

/-- The guard of one of the stores. -/
theorem AlongStores.store {fs : List EpochEvent} {e : EpochEvent} {a : DevAddr}
    (hs : l.AlongStores C (es ++ e :: fs)) (ha : e.dst = some a) :
    C (es.foldl apply l) a ((es.foldl apply l).under e) (nextGroup fs) := by
  induction es generalizing l with
  | nil => exact hs.1 a ha
  | cons f es ih => exact ih hs.2

/-- Events without stores meet every guard. -/
theorem alongStores_quiet (h : ∀ e ∈ es, e.dst = none) : l.AlongStores C es := by
  induction es generalizing l with
  | nil => trivial
  | cons e es ih =>
    refine ⟨fun a ha => ?_, ih fun f hf => h f (List.mem_cons_of_mem _ hf)⟩
    rw [h e (List.mem_cons_self ..)] at ha
    cases ha

/-- A guard that holds while no group is registered, where only the last event registers one. -/
theorem alongStores_unregistered (hC : ∀ (l : Journal) a q, (∀ x, l.registry x = none) →
    ∀ next, C l a q next) (h : ∀ x, l.registry x = none) (hes : ∀ e ∈ es.dropLast, e.group = none) :
    l.AlongStores C es := by
  induction es generalizing l with
  | nil => trivial
  | cons e es ih =>
    refine ⟨fun a _ => hC l a _ h _, ?_⟩
    rcases es with _ | ⟨f, fs⟩
    · trivial
    · have he : e.group = none := hes e (List.mem_cons_self ..)
      refine ih (fun x => ?_) fun f hf => hes f (List.mem_cons_of_mem _ hf)
      by_contra hx
      obtain ⟨r, hr⟩ := Option.ne_none_iff_exists'.mp hx
      obtain ⟨r', hr', -⟩ := registry_quiet he hr
      rw [h x] at hr'
      cases hr'

end

/-! ## Provenance -/

/-- The modulus that is recorded for each address is the one of the last event on its binding that
carries one. -/
def Sourced (l : Journal) : Prop := ∀ a, l.recorded a = l.provenance a

section

variable {l : Journal}

/-- In the empty journal there is nothing that has no source. -/
theorem sourced_empty : empty.Sourced := fun _ => rfl

/-- A cell whose two moduli agree. -/
theorem Sourced.set (h : l.Sourced) (a : DevAddr) {c : Cell} (hc : c.recorded = c.provenance) :
    (l.set a c).Sourced := fun b => by
  unfold recorded provenance
  rw [cell_set]
  split_ifs
  · exact hc
  · exact h b

/-- Every event but an upload keeps the agreement. -/
theorem Sourced.apply (h : l.Sourced) {e : EpochEvent} (he : ∀ a, e ≠ .upload a) :
    (l.apply e).Sourced := by
  -- A copy under a modulus annotates its source, and the annotation is no input.
  cases e with
  | resolve a =>
    change (l.resolve a).Sourced
    unfold resolve
    rcases l.cell a with _ | c
    · exact h.set a rfl
    · exact h
  | compute a q => exact h.set a rfl
  | copy d s q =>
    change (l.copy d s q).Sourced
    unfold copy
    split_ifs
    · exact h.set d (h s)
    · have hannotate : (l.annotate s q).Sourced := fun b => by
        unfold recorded provenance
        -- The annotation changes the source's own modulus, and nothing that was recorded.
        rw [cell_annotate]
        split_ifs
        · rcases l.cell s with _ | c <;> rfl
        · exact h b
      exact hannotate.set d rfl
  | rotate d s => exact h.set d (h s)
  | upload a => exact absurd rfl (he a)
  | register addrs moduli => exact h
  | tag a =>
    intro b
    have hb := h b
    unfold recorded provenance at hb ⊢
    change (((l.tag a).cell b).map _).getD _ = (((l.tag a).cell b).map _).getD _
    rw [cell_tag]
    exact hb
  | invalidate a =>
    intro b
    have hb := h b
    unfold recorded provenance at hb ⊢
    change (((l.invalidate a).cell b).map _).getD _ = (((l.invalidate a).cell b).map _).getD _
    rw [cell_invalidate]
    split_ifs
    · rfl
    · exact hb
  | clear => exact sourced_empty

/-- Events without an upload bring no source. -/
theorem Sourced.foldl (h : l.Sourced) {es : List EpochEvent} (hes : ∀ a, .upload a ∉ es) :
    (es.foldl Journal.apply l).Sourced := by
  induction es generalizing l with
  | nil => exact h
  | cons e es ih =>
    have he : ∀ a, e ≠ .upload a := fun a he => hes a (he ▸ List.mem_cons_self ..)
    exact ih (h.apply he) fun a ha => hes a (List.mem_cons_of_mem _ ha)

/-- Uploads keep the recorded moduli. -/
theorem cell_uploads (addrs : List DevAddr) (b : DevAddr) :
    ((addrs.map .upload).foldl Journal.apply l).cell b =
      if b ∈ addrs then some (.raw (l.recorded b)) else l.cell b := by
  -- By induction on the addresses; an upload of one keeps what was recorded for the others.
  induction addrs generalizing l with
  | nil => rfl
  | cons a addrs ih =>
    have hcell : ∀ c, (l.upload a).cell c = if c = a then some (.raw (l.recorded a)) else l.cell c :=
      fun c => rfl
    have hrecorded : (l.upload a).recorded b = l.recorded b := by
      unfold recorded
      rw [hcell]
      split_ifs with hb
      · rw [hb]
        rfl
      · rfl
    rw [List.map_cons, List.foldl_cons, ih]
    change (if b ∈ addrs then some (Cell.raw ((l.upload a).recorded b)) else (l.upload a).cell b) = _
    rw [hrecorded, hcell]
    by_cases hmem : b ∈ addrs
    · rw [if_pos hmem, if_pos (List.mem_cons_of_mem _ hmem)]
    · rw [if_neg hmem]
      by_cases hb : b = a
      · subst hb
        rw [if_pos rfl, if_pos (List.mem_cons_self ..)]
      · rw [if_neg hb, if_neg (by simp [hb, hmem])]

/-- Uploads keep the agreement exactly when no modulus is recorded for their addresses. -/
theorem sourced_uploads_iff (h : l.Sourced) (addrs : List DevAddr) :
    ((addrs.map .upload).foldl Journal.apply l).Sourced ↔
      ∀ a ∈ addrs, l.recorded a = kCopyModulus := by
  constructor
  · intro hs a ha
    have hcell := hs a
    unfold recorded provenance at hcell
    rw [cell_uploads, if_pos ha] at hcell
    exact hcell
  · intro hcopy b
    have hb := h b
    unfold recorded provenance at hb ⊢
    rw [cell_uploads]
    split_ifs with hmem
    · exact hcopy b hmem
    · exact hb

end

/-! ## Coherence -/

/-- The member of a group that was written under a modulus was written under the modulus that the
group has for it. -/
def Coherent (l : Journal) : Prop := ∀ a m, l.Claims a m → ∀ q, l.written a = some q → q = m

/-- A store agrees with the group that is registered after it, or if none is, with the groups that
the address is in. -/
def Agrees (l : Journal) (a : DevAddr) (q : UInt64)
    (next : Option (List DevAddr × List UInt64)) : Prop :=
  q ≠ kCopyModulus → ∀ m, (match next with
    | some g => (a, m) ∈ g.1.zip g.2
    | none => l.Claims a m) → q = m

/-- Journals that agree on the registry agree on which stores do. -/
theorem Agrees.same {l l' : Journal} (h : l.Same l') (a : DevAddr) (q : UInt64)
    (next : Option (List DevAddr × List UInt64)) (hl : l.Agrees a q next) : l'.Agrees a q next := by
  unfold Agrees Claims at hl ⊢
  rwa [← h.registry]

/-- The coherence between the stores of a multi-residue write and its registration: of the addresses
that are stored, `ds`, the new group has the moduli, and of the others the old groups have. -/
structure CoherentBefore (l : Journal) (ds : List DevAddr) (es : List EpochEvent) : Prop where
  old : ∀ a m, l.Claims a m → ∀ q, l.written a = some q → q = m ∨ nextGroup es ≠ none ∧ a ∈ ds
  new : ∀ g, nextGroup es = some g → ∀ a m, (a, m) ∈ g.1.zip g.2 → a ∈ ds →
    ∀ q, l.written a = some q → q = m

section

variable {l : Journal} {ds : List DevAddr} {e : EpochEvent} {es : List EpochEvent}

/-- An event that registers nothing does not matter for the next group. -/
theorem nextGroup_cons (h : e.group = none) : nextGroup (e :: es) = nextGroup es := by
  unfold nextGroup
  rw [List.findSome?_cons, h]

/-- It adds its destination to those that wait for a registration. -/
theorem blocked_cons (h : e.group = none) :
    Blocked ds (e :: es) ↔ Blocked (e.dst.toList ++ ds) es := by
  cases e with
  | register addrs moduli => cases h
  | _ => exact Iff.rfl

/-- A store that agrees keeps the journal coherent but for what waits. -/
theorem CoherentBefore.store (h : l.CoherentBefore ds (e :: es)) {a : DevAddr}
    (he : e.dst = some a) (hagrees : l.Agrees a (l.under e) (nextGroup es)) :
    (l.apply e).CoherentBefore (a :: ds) es := by
  obtain ⟨-, -, -, hregistry, hgroup⟩ := store_spec (l := l) he
  have hclaims : ∀ b m, (l.apply e).Claims b m → l.Claims b m := fun b m hc => by
    unfold Claims at hc ⊢
    rwa [hregistry] at hc
  have hnext : nextGroup (e :: es) = nextGroup es := nextGroup_cons hgroup
  -- What is claimed now, then what the next group is going to claim.
  refine ⟨fun b m hc q hq => ?_, fun g hg b m hm hb q hq => ?_⟩
  · by_cases hb : b = a
    · subst hb
      obtain ⟨rfl, hcopy⟩ := written_store he hq
      rcases hg : nextGroup es with _ | g
      · rw [hg] at hagrees
        exact .inl (hagrees hcopy m (hclaims b m hc))
      · exact .inr ⟨Option.some_ne_none g, List.mem_cons_self ..⟩
    · rw [written_store_ne he hb] at hq
      rcases h.old b m (hclaims b m hc) q hq with hm | ⟨hg, hds⟩
      · exact .inl hm
      · exact .inr ⟨hnext ▸ hg, List.mem_cons_of_mem _ hds⟩
  -- The stored value was written under the modulus that its claims agree on.
  · by_cases hba : b = a
    · subst hba
      obtain ⟨rfl, hcopy⟩ := written_store he hq
      rw [hg] at hagrees
      exact hagrees hcopy m hm
    · rw [written_store_ne he hba] at hq
      exact h.new g (hnext.trans hg) b m hm ((List.mem_cons.mp hb).resolve_left hba) q hq

/-- An event that neither stores nor registers keeps it so. -/
theorem CoherentBefore.quiet (h : l.CoherentBefore ds (e :: es)) (he : e.dst = none)
    (hgroup : e.group = none) : (l.apply e).CoherentBefore ds es := by
  have hnext : nextGroup (e :: es) = nextGroup es := nextGroup_cons hgroup
  refine ⟨fun b m ⟨x, r, hr, hm⟩ q hq => ?_, fun g hg b m hm hb q hq => ?_⟩
  · obtain ⟨r', hr', haddrs, hmoduli⟩ := registry_quiet hgroup hr
    have := h.old b m ⟨x, r', hr', by rwa [haddrs, hmoduli]⟩ q (written_quiet he hq)
    rwa [hnext] at this
  · exact h.new g (hnext.trans hg) b m hm hb q (written_quiet he hq)

/-- A registration over what waits leaves nothing to wait for. -/
theorem CoherentBefore.register {addrs : List DevAddr} {moduli : List UInt64}
    (h : l.CoherentBefore ds (.register addrs moduli :: es)) (hds : ∀ a, a ∈ ds ↔ a ∈ addrs) :
    (l.register addrs moduli).CoherentBefore [] es := by
  refine ⟨fun b m ⟨x, r, hr, hm⟩ q hq => .inl ?_, fun g hg b m hm hb => absurd hb List.not_mem_nil⟩
  have hr' : l.registry.write addrs moduli x = some r := hr
  unfold Registry.write at hr'
  split_ifs at hr' with hx
  · cases hr'
    exact h.new (addrs, moduli) rfl b m hm ((hds b).mpr (List.of_mem_zip hm).1) q hq
  · -- The other groups have none of the addresses that were stored.
    obtain ⟨hold, hall⟩ := Option.filter_eq_some_iff.mp hr'
    have hnot : b ∉ addrs :=
      of_decide_eq_true (List.all_eq_true.mp hall b (List.of_mem_zip hm).1)
    rcases h.old b m ⟨x, r, hold, hm⟩ q hq with hm' | ⟨-, hb⟩
    · exact hm'
    · exact absurd ((hds b).mp hb) hnot

/-- Events whose stores agree with the groups keep the coherence. -/
theorem CoherentBefore.foldl (h : l.CoherentBefore ds es) (hblocked : Blocked ds es)
    (hstores : l.AlongStores Agrees es) : (es.foldl apply l).Coherent := by
  induction es generalizing l ds with
  | nil =>
    intro a m hc q hq
    rcases h.old a m hc q hq with hm | ⟨hnone, -⟩
    · exact hm
    · exact absurd rfl hnone
  | cons e es ih =>
    obtain ⟨hstore, hrest⟩ := hstores
    rcases hd : e.dst with _ | a
    · rcases hg : e.group with _ | g
      · rw [blocked_cons hg, hd] at hblocked
        exact ih (h.quiet hd hg) hblocked hrest
      · cases e with
        | register addrs moduli => exact ih (h.register hblocked.1) hblocked.2 hrest
        | _ => cases hg
    · rw [blocked_cons (store_spec (l := l) hd).2.2.2.2, hd] at hblocked
      exact ih (h.store hd (hstore a hd)) hblocked hrest

end

/-- A coherent journal is so before any events. -/
theorem Coherent.before {l : Journal} (h : l.Coherent) (es : List EpochEvent) :
    l.CoherentBefore [] es where
  old a m hc q hq := .inl (h a m hc q hq)
  new _ _ _ _ _ ha := absurd ha List.not_mem_nil

/-! ## Replacement -/

/-- A store is in one residue of the group that is registered after it, under the modulus that the
group has for it; or if none is, in no residue of a group. -/
def Joins (l : Journal) (a : DevAddr) (q : UInt64)
    (next : Option (List DevAddr × List UInt64)) : Prop :=
  match next with
  | some g => g.1.count a = 1 ∧ (q ≠ kCopyModulus → ∀ m, (a, m) ∈ g.1.zip g.2 → q = m)
  | none => ∀ x r, l.registry x = some r → a ∉ r.addrs

/-- A store that joins its group agrees with it. -/
theorem Joins.agrees {l : Journal} {a : DevAddr} {q : UInt64}
    {next : Option (List DevAddr × List UInt64)} (h : l.Joins a q next) : l.Agrees a q next := by
  rcases next with _ | g
  · rintro - m ⟨x, r, hr, hm⟩
    exact absurd (List.of_mem_zip hm).1 (h x r hr)
  · exact h.2

/-- Journals that agree on the registry agree on which stores join. -/
theorem Joins.same {l l' : Journal} (h : l.Same l') (a : DevAddr) (q : UInt64)
    (next : Option (List DevAddr × List UInt64)) (hl : l.Joins a q next) : l'.Joins a q next := by
  unfold Joins at hl ⊢
  rwa [← h.registry]

/-- Of the registered groups, `g` alone may have an address. -/
def Only (l : Journal) (a : DevAddr) (g : Option (List DevAddr × List UInt64)) : Prop :=
  ∀ x r, l.registry x = some r → a ∈ r.addrs → g = some (r.addrs, r.moduli)

section

variable {l : Journal} {ds : List DevAddr} {es : List EpochEvent} {a : DevAddr}
  {g : Option (List DevAddr × List UInt64)}

/-- An event that registers no group brings an address into none. -/
theorem Only.quiet (h : l.Only a g) {e : EpochEvent} (he : e.group = none) :
    (l.apply e).Only a g := by
  intro x r hr ha
  obtain ⟨r', hr', haddrs, hmoduli⟩ := registry_quiet he hr
  rw [← haddrs, ← hmoduli]
  exact h x r' hr' (haddrs ▸ ha)

/-- Registering a group withdraws its addresses from the others. -/
theorem only_register {addrs : List DevAddr} (moduli : List UInt64) (ha : a ∈ addrs) :
    (l.register addrs moduli).Only a (some (addrs, moduli)) := by
  intro x r hr hmem
  have hr' : l.registry.write addrs moduli x = some r := hr
  unfold Registry.write at hr'
  split_ifs at hr' with hx
  · cases hr'
    rfl
  · obtain ⟨-, hall⟩ := Option.filter_eq_some_iff.mp hr'
    exact absurd ha (of_decide_eq_true (List.all_eq_true.mp hall a hmem))

/-- Registering a group of other addresses. -/
theorem Only.register (h : l.Only a g) {addrs : List DevAddr} (moduli : List UInt64)
    (ha : a ∉ addrs) : (l.register addrs moduli).Only a g := by
  intro x r hr hmem
  have hr' : l.registry.write addrs moduli x = some r := hr
  unfold Registry.write at hr'
  split_ifs at hr' with hx
  · cases hr'
    exact absurd hmem ha
  · exact h x r (Option.filter_eq_some_iff.mp hr').1 hmem

/-- What comes after the last store in an address and the registration over it. -/
theorem Only.foldl (h : l.Only a g) (hblocked : Blocked ds es) (hds : a ∉ ds)
    (hlast : ∀ e ∈ es, e.dst ≠ some a) : (es.foldl apply l).Only a g := by
  induction es generalizing l ds with
  | nil => exact h
  | cons e es ih =>
    have hrest : ∀ f ∈ es, f.dst ≠ some a := fun f hf => hlast f (List.mem_cons_of_mem _ hf)
    rcases hg : e.group with _ | g'
    · rw [blocked_cons hg] at hblocked
      refine ih (h.quiet hg) hblocked (fun hmem => ?_) hrest
      rcases List.mem_append.mp hmem with hmem | hmem
      · exact hlast e (List.mem_cons_self ..) (Option.mem_toList.mp hmem)
      · exact hds hmem
    · cases e with
      | register addrs moduli =>
        exact ih (h.register moduli fun hmem => hds ((hblocked.1 a).mpr hmem)) hblocked.2
          List.not_mem_nil hrest
      | _ => cases hg

/-- What comes after the last store in an address leaves it in the group that is registered over it
alone, or if none is, in the groups that it was in. -/
theorem only_foldl (hblocked : Blocked ds es) (hds : a ∈ ds) (hlast : ∀ e ∈ es, e.dst ≠ some a)
    (h : nextGroup es = none → l.Only a none) : (es.foldl apply l).Only a (nextGroup es) := by
  induction es generalizing l ds with
  | nil => exact h rfl
  | cons e es ih =>
    have hrest : ∀ f ∈ es, f.dst ≠ some a := fun f hf => hlast f (List.mem_cons_of_mem _ hf)
    rcases hg : e.group with _ | g'
    · rw [blocked_cons hg] at hblocked
      rw [nextGroup_cons hg] at h ⊢
      exact ih hblocked (List.mem_append_right _ hds) hrest fun hnone => (h hnone).quiet hg
    · cases e with
      | register addrs moduli =>
        exact (only_register moduli ((hblocked.1 a).mp hds)).foldl hblocked.2 List.not_mem_nil hrest
      | _ => cases hg

/-- The order of the events behind a store. -/
theorem Blocked.store {e : EpochEvent} {fs : List EpochEvent} (hblocked : Blocked ds (es ++ e :: fs))
    (ha : e.dst = some a) : ∃ ds', a ∈ ds' ∧ Blocked ds' fs := by
  induction es generalizing ds with
  | nil =>
    rw [List.nil_append, blocked_cons (store_spec (l := .empty) ha).2.2.2.2, ha] at hblocked
    exact ⟨_, List.mem_cons_self .., hblocked⟩
  | cons f es ih =>
    rw [List.cons_append] at hblocked
    rcases hg : f.group with _ | g
    · rw [blocked_cons hg] at hblocked
      exact ih hblocked
    · cases f with
      | register addrs moduli => exact ih hblocked.2
      | _ => cases hg

/-- Events whose stores join their groups leave every address in the group that was registered over
its last store alone. -/
theorem only_of_joins {e : EpochEvent} {fs : List EpochEvent} (hblocked : Blocked ds (es ++ e :: fs))
    (hstores : l.AlongStores Joins (es ++ e :: fs)) (ha : e.dst = some a)
    (hlast : ∀ f ∈ fs, f.dst ≠ some a) :
    ((es ++ e :: fs).foldl apply l).Only a (nextGroup fs) := by
  obtain ⟨ds', hds, hblocked'⟩ := hblocked.store ha
  have hjoins := hstores.store ha
  rw [List.foldl_append, List.foldl_cons]
  refine only_foldl hblocked' hds hlast fun hnone => ?_
  rw [hnone] at hjoins
  have honly : (es.foldl apply l).Only a none := fun x r hr hmem => absurd hmem (hjoins x r hr)
  exact honly.quiet (store_spec (l := .empty) ha).2.2.2.2

end

/-! ## Coverage -/

/-- The members of a tagged group that are bound to results are tagged. -/
def Covered (l : Journal) : Prop :=
  ∀ x r, l.registry x = some r → r.tagged = true → ∀ b ∈ r.addrs, l.IsComputed b → l.tagged b

/-- A store in an untagged member of a tagged group is followed by the registration of another
group over it. -/
def Reshapes (l : Journal) (a : DevAddr) (_ : UInt64)
    (next : Option (List DevAddr × List UInt64)) : Prop :=
  ∀ x r, l.registry x = some r → r.tagged = true → a ∈ r.addrs →
    (∀ g, next = some g → g = (r.addrs, r.moduli)) → l.tagged a

/-- Journals that agree on the registry agree on which stores reshape. -/
theorem Reshapes.same {l l' : Journal} (h : l.Same l') (a : DevAddr) (q : UInt64)
    (next : Option (List DevAddr × List UInt64)) (hl : l.Reshapes a q next) :
    l'.Reshapes a q next := by
  unfold Reshapes at hl ⊢
  rw [← h.registry, ← h.tagged a]
  exact hl

/-- The coverage between the stores of a multi-residue write and its registration: the addresses
that are stored, `ds`, are tagged when the group gets another shape. -/
def CoveredBefore (l : Journal) (ds : List DevAddr) (es : List EpochEvent) : Prop :=
  ∀ x r, l.registry x = some r → r.tagged = true → ∀ b ∈ r.addrs, l.IsComputed b →
    l.tagged b ∨ ∃ g, nextGroup es = some g ∧ g ≠ (r.addrs, r.moduli) ∧ b ∈ ds

section

variable {l : Journal} {ds : List DevAddr} {e : EpochEvent} {es : List EpochEvent}

/-- A store that reshapes keeps the journal covered but for what waits. -/
theorem CoveredBefore.store (h : l.CoveredBefore ds (e :: es)) {a : DevAddr}
    (he : e.dst = some a) (hreshapes : l.Reshapes a (l.under e) (nextGroup es)) :
    (l.apply e).CoveredBefore (a :: ds) es := by
  obtain ⟨-, -, htagged, hregistry, hgroup⟩ := store_spec (l := l) he
  have hnext : nextGroup (e :: es) = nextGroup es := nextGroup_cons hgroup
  intro x r hr ht b hb hcomputed
  rw [hregistry] at hr
  rw [htagged]
  by_cases hba : b = a
  · subst hba
    by_cases hshape : ∀ g, nextGroup es = some g → g = (r.addrs, r.moduli)
    · exact .inl (hreshapes x r hr ht hb hshape)
    · simp only [not_forall] at hshape
      obtain ⟨g, hg, hne⟩ := hshape
      exact .inr ⟨g, hg, hne, List.mem_cons_self ..⟩
  · rw [isComputed_store_ne he hba] at hcomputed
    rcases h x r hr ht b hb hcomputed with htag | ⟨g, hg, hne, hds⟩
    · exact .inl htag
    · exact .inr ⟨g, hnext ▸ hg, hne, List.mem_cons_of_mem _ hds⟩

/-- An event that neither stores nor registers keeps it so. -/
theorem CoveredBefore.quiet (h : l.CoveredBefore ds (e :: es)) (he : e.dst = none)
    (hgroup : e.group = none) : (l.apply e).CoveredBefore ds es := by
  have hnext : nextGroup (e :: es) = nextGroup es := nextGroup_cons hgroup
  unfold CoveredBefore at h
  rw [hnext] at h
  -- No destination and no group: only the tags, the uploads and the bindings are left.
  cases e with
  | resolve a =>
    change (l.resolve a).CoveredBefore ds es
    unfold resolve
    rcases hc : l.cell a with _ | c
    · -- The words that are bound are an input.
      intro x r hr ht b hb ⟨c, hcell, hinput⟩
      rw [cell_set] at hcell
      split_ifs at hcell
      · cases hcell
        cases hinput
      · exact h x r hr ht b hb ⟨c, hcell, hinput⟩
    · exact h
  | upload a =>
    intro x r hr ht b hb ⟨c, hcell, hinput⟩
    have hcell' : (l.set a (.raw (l.recorded a))).cell b = some c := hcell
    rw [cell_set] at hcell'
    split_ifs at hcell' with hba
    · cases hcell'
      cases hinput
    · exact (h x r hr ht b hb ⟨c, hcell', hinput⟩).imp_left fun htag => ⟨hba, htag⟩
  | tag a =>
    change (l.tag a).CoveredBefore ds es
    unfold tag
    rcases hc : l.cell a with _ | c
    · exact h
    -- Tagging one member tags its group with it.
    · intro x r hr ht b hb hcomputed
      obtain ⟨r', hr', rfl⟩ := Option.map_eq_some_iff.mp hr
      rcases Bool.or_eq_true_iff.mp ht with ht' | ha
      · exact (h x r' hr' ht' b hb hcomputed).imp_left .inl
      · exact .inl (.inr (.inr ⟨x, r', hr', of_decide_eq_true ha, hb⟩))
  | invalidate a =>
    intro x r hr ht b hb ⟨c, hcell, hinput⟩
    obtain ⟨hr', hkept⟩ := Option.filter_eq_some_iff.mp hr
    have hba : b ≠ a := fun hba => of_decide_eq_true hkept (hba ▸ hb)
    have hcell' : (l.invalidate a).cell b = some c := hcell
    rw [cell_invalidate, if_neg hba] at hcell'
    exact (h x r hr' ht b hb ⟨c, hcell', hinput⟩).imp_left fun htag => ⟨hba, htag⟩
  -- Nothing is registered any more.
  | clear => exact fun x r hr => nomatch hr
  | register addrs moduli => cases hgroup
  | _ => cases he

/-- A registration over what waits leaves nothing to wait for. -/
theorem CoveredBefore.register {addrs : List DevAddr} {moduli : List UInt64}
    (h : l.CoveredBefore ds (.register addrs moduli :: es)) (hds : ∀ a, a ∈ ds ↔ a ∈ addrs) :
    (l.register addrs moduli).CoveredBefore [] es := by
  intro x r hr ht b hb hcomputed
  left
  have hr' : l.registry.write addrs moduli x = some r := hr
  unfold Registry.write at hr'
  split_ifs at hr' with hx
  -- The entry of a member of the new group.
  · cases hr'
    rcases hold : l.registry x with _ | r₀
    · rw [hold] at ht
      cases ht
    · rw [hold] at ht
      by_cases hshape : r₀.addrs = addrs ∧ r₀.moduli = moduli
      · -- The group is what it was.
        rcases h x r₀ hold ht b (hshape.1 ▸ hb) hcomputed with htag | ⟨g, hg, hne, -⟩
        · exact .inl htag
        · cases hg
          exact absurd (Prod.ext hshape.1.symm hshape.2.symm) hne
      · exact .inr ⟨hb, r₀, hx ▸ hold, ht, hshape⟩
  -- An entry that stays has no address in common with the new group.
  · obtain ⟨hold, hall⟩ := Option.filter_eq_some_iff.mp hr'
    have hnot : b ∉ addrs := of_decide_eq_true (List.all_eq_true.mp hall b hb)
    rcases h x r hold ht b hb hcomputed with htag | ⟨-, -, -, hmem⟩
    · exact .inl htag
    · exact absurd ((hds b).mp hmem) hnot

/-- Events whose stores meet the guard keep the coverage. -/
theorem CoveredBefore.foldl (h : l.CoveredBefore ds es) (hblocked : Blocked ds es)
    (hstores : l.AlongStores Reshapes es) : (es.foldl apply l).Covered := by
  induction es generalizing l ds with
  | nil =>
    intro x r hr ht b hb hcomputed
    rcases h x r hr ht b hb hcomputed with htag | ⟨g, hg, -⟩
    · exact htag
    · cases hg
  | cons e es ih =>
    obtain ⟨hstore, hrest⟩ := hstores
    rcases hd : e.dst with _ | a
    · rcases hg : e.group with _ | g
      · rw [blocked_cons hg, hd] at hblocked
        exact ih (h.quiet hd hg) hblocked hrest
      · cases e with
        | register addrs moduli => exact ih (h.register hblocked.1) hblocked.2 hrest
        | _ => cases hg
    · rw [blocked_cons (store_spec (l := l) hd).2.2.2.2, hd] at hblocked
      exact ih (h.store hd (hstore a hd)) hblocked hrest

/-- A covered journal is so before any events. -/
theorem Covered.before (h : l.Covered) (es : List EpochEvent) : l.CoveredBefore [] es :=
  fun x r hr ht b hb hcomputed => .inl (h x r hr ht b hb hcomputed)

end

end Journal

end Haze
