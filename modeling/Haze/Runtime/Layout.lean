import Haze.Epoch.Journal
import Haze.Runtime.Decomposition

/-!
# The layout of a digit decomposition

A digit decomposition that succeeds lays its digits out one after the other, each over the source's
base and the auxiliary one in this order. `modUp_layout` says for every pointer of the destination
array what its address is bound to and under which modulus, that no other address is bound, and
which groups there are over the destinations afterwards: one for each digit. Registering a digit
does not remove the groups of the digits before it, because their addresses are distinct.
-/

namespace Haze

variable {P M : Type}

open World (takePtrs fbcVariant fbcCenterShape)

/-! ## Groups that are written in order -/

namespace Registry

/-- An entry that is disjoint from a group stays. -/
theorem writeGroup_keeps {r : Registry} {a : DevAddr} {e : RegistryEntry}
    {group : List DevAddr × List UInt64} (h : r a = some e) (hlead : a ≠ group.1.headD .null)
    (hdisjoint : ∀ b ∈ e.addrs, b ∉ group.1) : r.writeGroup group a = some e := by
  unfold writeGroup
  split_ifs
  · rw [write, if_neg hlead, h, Option.filter_some, if_pos]
    exact List.all_eq_true.mpr fun b hb => decide_eq_true (hdisjoint b hb)
  · exact h

/-- A group of several residues is entered under its leading address. -/
theorem writeGroup_self (r : Registry) {group : List DevAddr × List UInt64}
    (hlong : 1 < group.2.length) :
    ∃ tagged, r.writeGroup group (group.1.headD .null) = some ⟨group.1, group.2, tagged⟩ := by
  unfold writeGroup
  rw [if_pos hlong, write, if_pos rfl]
  exact ⟨_, rfl⟩

/-- An entry afterwards is the group or an earlier entry that is disjoint from it. -/
theorem of_writeGroup {r : Registry} {a : DevAddr} {e : RegistryEntry}
    {group : List DevAddr × List UInt64} (hlong : 1 < group.2.length)
    (h : r.writeGroup group a = some e) :
    (a = group.1.headD .null ∧ e.addrs = group.1 ∧ e.moduli = group.2) ∨
      (r a = some e ∧ ∀ b ∈ e.addrs, b ∉ group.1) := by
  unfold writeGroup at h
  rw [if_pos hlong, write] at h
  split_ifs at h with ha
  · cases h
    exact .inl ⟨ha, rfl, rfl⟩
  · obtain ⟨hr, hall⟩ := Option.filter_eq_some_iff.mp h
    exact .inr ⟨hr, fun b hb => of_decide_eq_true (List.all_eq_true.mp hall b hb)⟩

variable {groups : List (List DevAddr × List UInt64)}

/-- An entry after several writes is one of the groups, or an earlier entry that is disjoint from
all of them. -/
theorem of_writeGroups (hlong : ∀ group ∈ groups, 1 < group.2.length) {r : Registry} {a : DevAddr}
    {e : RegistryEntry} (h : groups.foldl writeGroup r a = some e) :
    (∃ group ∈ groups, a = group.1.headD .null ∧ e.addrs = group.1 ∧ e.moduli = group.2) ∨
      (r a = some e ∧ ∀ group ∈ groups, ∀ b ∈ e.addrs, b ∉ group.1) := by
  induction groups generalizing r with
  | nil => exact .inr ⟨h, fun _ hg => absurd hg List.not_mem_nil⟩
  | cons group groups ih =>
    rw [List.forall_mem_cons] at hlong
    rcases ih hlong.2 h with ⟨g, hg, hentry⟩ | ⟨hr, hrest⟩
    · exact .inl ⟨g, List.mem_cons_of_mem _ hg, hentry⟩
    · rcases of_writeGroup hlong.1 hr with hentry | ⟨hr, hdisjoint⟩
      · exact .inl ⟨group, List.mem_cons_self .., hentry⟩
      · exact .inr ⟨hr, List.forall_mem_cons.mpr ⟨hdisjoint, hrest⟩⟩

/-- Groups that have no address in common are all entered. -/
theorem writeGroups_self (groups : List (List DevAddr × List UInt64))
    (hlong : ∀ group ∈ groups, 1 < group.2.length)
    (hne : ∀ group ∈ groups, group.1 ≠ [])
    (hdisjoint : groups.Pairwise fun g g' => ∀ b ∈ g.1, b ∉ g'.1) (r : Registry) :
    ∀ group ∈ groups, ∃ tagged,
      groups.foldl writeGroup r (group.1.headD .null) = some ⟨group.1, group.2, tagged⟩ := by
  have hkeeps : ∀ (groups : List (List DevAddr × List UInt64)) (r : Registry) (a : DevAddr)
      (e : RegistryEntry), r a = some e → a ∈ e.addrs → (∀ group ∈ groups, group.1 ≠ []) →
      (∀ group ∈ groups, ∀ b ∈ e.addrs, b ∉ group.1) → groups.foldl writeGroup r a = some e := by
    intro groups
    induction groups with
    | nil => exact fun r a e h _ _ _ => h
    | cons group groups ih =>
      intro r a e h ha hne hdisjoint
      rw [List.forall_mem_cons] at hne hdisjoint
      refine ih _ a e (writeGroup_keeps h ?_ hdisjoint.1) ha hne.2 hdisjoint.2
      -- The leading address of the other group is one of its own.
      rintro rfl
      exact hdisjoint.1 _ ha (EpochState.headD_mem hne.1)
  induction groups generalizing r with
  | nil => exact fun _ hg => absurd hg List.not_mem_nil
  | cons group groups ih =>
    rw [List.forall_mem_cons] at hlong hne
    rw [List.pairwise_cons] at hdisjoint
    intro g hg
    rcases List.mem_cons.mp hg with rfl | hg
    · obtain ⟨tagged, hself⟩ := writeGroup_self r hlong.1
      exact ⟨tagged, hkeeps groups _ _ _ hself (EpochState.headD_mem hne.1) hne.2 hdisjoint.1⟩
    · exact ih hlong.2 hne.2 hdisjoint.2 _ g hg

end Registry

/-! ## Blocks of destinations -/

/-- More pointers are the first ones, and then those behind them. -/
theorem takePtrs_add (m n : ℕ) (dst : List DevAddr) :
    takePtrs (m + n) dst = takePtrs m dst ++ takePtrs n (dst.drop m) := by
  unfold takePtrs
  induction m generalizing dst with
  | zero => rw [Nat.zero_add]; rfl
  | succ m ih =>
    rw [Nat.succ_add, List.takeD_succ, List.takeD_succ, ih, List.drop_tail]
    rfl

/-- A pointer that is missing is null. -/
theorem getElem?_takePtrs {n j : ℕ} (h : j < n) (dst : List DevAddr) :
    (takePtrs n dst)[j]? = some (dst.getD j .null) := by
  unfold takePtrs
  induction n generalizing j dst with
  | zero => exact absurd h (Nat.not_lt_zero j)
  | succ n ih =>
    rw [List.takeD_succ]
    rcases j with _ | j
    · rcases dst with _ | ⟨a, dst⟩ <;> rfl
    · rw [List.getElem?_cons_succ, ih (Nat.lt_of_succ_lt_succ h)]
      rcases dst with _ | ⟨a, dst⟩ <;> rfl

/-- Blocks of one length lie one after the other. -/
theorem takePtrs_blocks (n k count : ℕ) (dst : List DevAddr) :
    ((List.range' k count).flatMap fun d => takePtrs n (dst.drop (d * n))) =
      takePtrs (count * n) (dst.drop (k * n)) := by
  induction count generalizing k with
  | zero => rw [Nat.zero_mul]; rfl
  | succ count ih =>
    rw [List.range'_succ, List.flatMap_cons, ih, Nat.add_mul count, Nat.one_mul, Nat.add_comm _ n,
      takePtrs_add, List.drop_drop, Nat.add_mul, Nat.one_mul]

/-- Blocks of distinct pointers have none in common. -/
theorem takePtrs_disjoint {n count : ℕ} {dst : List DevAddr}
    (hdistinct : (takePtrs (count * n) dst).Nodup) :
    ((List.range count).map fun d => takePtrs n (dst.drop (d * n))).Pairwise fun g g' =>
      ∀ a ∈ g, a ∉ g' := by
  have hblocks := takePtrs_blocks n 0 count dst
  rw [Nat.zero_mul, List.drop_zero, ← List.range_eq_range'] at hblocks
  rw [← hblocks, List.flatMap_def, List.nodup_flatten] at hdistinct
  exact hdistinct.2.imp fun h a ha ha' => h ha ha'

/-! ## The moduli of the writes -/

/-- The residues of several digits over one base, digit after digit. -/
def digitResidues (dst : List DevAddr) (base : List UInt64) (k count : ℕ) :
    List (DevAddr × UInt64) :=
  (List.range' k count).flatMap fun d =>
    (takePtrs base.length (dst.drop (d * base.length))).zip base

/-- The residues of the digits lie one block behind the other. -/
theorem map_fst_digitResidues (dst : List DevAddr) (base : List UInt64) (k count : ℕ) :
    (digitResidues dst base k count).map Prod.fst =
      takePtrs (count * base.length) (dst.drop (k * base.length)) := by
  rw [digitResidues, List.map_flatMap, ← takePtrs_blocks]
  exact List.flatMap_congr fun d _ => World.map_fst_zip_takePtrs base _

/-- The residue of a block for one modulus. -/
theorem getElem?_zip_takePtrs {base : List UInt64} {j : ℕ} {q : UInt64} (h : base[j]? = some q)
    (k : ℕ) (dst : List DevAddr) :
    ((takePtrs base.length (dst.drop k)).zip base)[j]? = some (dst.getD (k + j) .null, q) := by
  obtain ⟨hj, -⟩ := List.getElem?_eq_some_iff.mp h
  rw [List.getElem?_zip_eq_some]
  refine ⟨?_, h⟩
  rw [getElem?_takePtrs hj, List.getD_eq_getElem?_getD, List.getD_eq_getElem?_getD,
    List.getElem?_drop]

/-- The residue of a digit is in its block. -/
theorem mem_digitResidues {base : List UInt64} {count d j : ℕ} {q : UInt64} (hd : d < count)
    (h : base[j]? = some q) (dst : List DevAddr) :
    (dst.getD (d * base.length + j) .null, q) ∈ digitResidues dst base 0 count := by
  rw [digitResidues, ← List.range_eq_range', List.mem_flatMap]
  exact ⟨d, List.mem_range.mpr hd, List.mem_of_getElem? (getElem?_zip_takePtrs h _ dst)⟩

namespace World

variable {F : Fhetch P M} {w w' : World P M}

/-- The modulus recorded for an address is that of its last store. -/
theorem recorded_storeResidues (m : M) (residues : List (DevAddr × UInt64)) (s : EpochState P)
    (a : DevAddr) : (storeResidues F m residues s).recordedModulusLocked a =
      (Writes.last residues a).getD (s.recordedModulusLocked a) := by
  induction residues generalizing s with
  | nil => rfl
  | cons r rs ih =>
    refine (ih _).trans ?_
    rw [EpochState.recorded_store, Writes.last_cons]
    rcases Writes.last rs a with _ | q
    · rw [Option.none_or]
      split_ifs <;> rfl
    · rfl

/-- Storing a multi-residue polynomial records its base. -/
theorem recorded_storeMrp (dst : List DevAddr) (m : M) (base : List UInt64) (w : World P M)
    (a : DevAddr) : (storeMrpLocked F dst m base w).2.epoch.recordedModulusLocked a =
      (Writes.last ((takePtrs base.length dst).zip base) a).getD
        (w.epoch.recordedModulusLocked a) := by
  have hstore := forEach_storeResidue (F := F) m ((takePtrs base.length dst).zip base) w
  obtain ⟨-, hv, -, -⟩ := registerGroup_spec (length_takePtrs base.length dst)
    ({ w with epoch := storeResidues F m ((takePtrs base.length dst).zip base) w.epoch } : World P M)
  have hmodulus := congrArg (fun v : Values P => (v.modulus a).getD kCopyModulus) hv
  unfold storeMrpLocked
  rw [Expected.bind_run_ok hstore, ← recorded_storeResidues (F := F) m]
  exact hmodulus

/-- Storing digits over one base records it for each. -/
theorem recorded_storeDigits {lift : List UInt64 → M} {base : List UInt64}
    (hlift : ∀ digitBase, F.base (lift digitBase) = base) (dst : List DevAddr)
    (digitBases : List (List UInt64)) (k : ℕ) (w : World P M) (a : DevAddr) :
    (storeDigits F dst lift k digitBases w).2.epoch.recordedModulusLocked a =
      (Writes.last (digitResidues dst base k digitBases.length) a).getD
        (w.epoch.recordedModulusLocked a) := by
  induction digitBases generalizing k w with
  | nil => rfl
  | cons digitBase digitBases ih =>
    obtain ⟨w₁, hrun, -⟩ := storeMrp_storesTo (F := F) (dst.drop (k * base.length))
      (lift digitBase) base w
    have hone := recorded_storeMrp (F := F) (dst.drop (k * base.length)) (lift digitBase) base w a
    rw [hrun] at hone
    have hsplit : digitResidues dst base k (digitBases.length + 1) =
        (takePtrs base.length (dst.drop (k * base.length))).zip base ++
          digitResidues dst base (k + 1) digitBases.length := by
      rw [digitResidues, List.range'_succ, List.flatMap_cons, digitResidues]
    unfold storeDigits
    dsimp only
    rw [hlift, Expected.bind_run_ok hrun, ih, hone, List.length_cons, hsplit,
      Writes.last_append]
    rcases Writes.last (digitResidues dst base (k + 1) digitBases.length) a with _ | q <;> rfl

/-- A digit decomposition records every destination under the modulus that lies there. -/
theorem recorded_modUp (hF : F.LawfulBase) (env : CompilerReplies P) (dst src : List DevAddr)
    {p : ModUpParams} {srcBase digitBases lens pBase : List UInt64}
    (hp : p.validate = .ok (srcBase, digitBases, lens, pBase)) (hw : w.Stocked) :
    Expected.Triple (ReadsTo F w []) (modUp F env dst src p)
      (fun _ w' => ∀ a, w'.epoch.recordedModulusLocked a =
        (Writes.last (digitResidues dst (srcBase ++ pBase) 0 lens.length) a).getD
          (w.epoch.recordedModulusLocked a)) (fun _ _ => True) := by
  refine .check (fun t ht => ?_) fun _ _ _ _ => trivial
  rw [hp] at ht
  cases ht
  refine .bind (Q := fun _ => ReadsTo F w [])
    (fun v hv => hv.trans (session_readsTo F env v)) fun _ => ?_
  refine .bind ((Sources.buildMrp F src srcBase w [] hw).mono (fun _ h => h) (fun _ _ h => h)
    fun _ _ _ => trivial) fun m => .get_bind fun v hv => ?_
  obtain ⟨hm, -, hreads⟩ := hv
  obtain ⟨pairs, rfl, hpairs⟩ := evalMrp_pairs hm
  rintro w₁ rfl
  have hdigits := recorded_storeDigits (F := F) (fun b => base_lifted hF hpairs
    (F.mrSubset (F.fromPairs pairs) b) pBase (fbcVariant w₁.config) (fbcCenterShape w₁.config)) dst
    (sliceDigits digitBases lens) 0 w₁
  -- The sources were resolved before, which records no modulus.
  have hkept : ∀ a, w₁.epoch.recordedModulusLocked a = w.epoch.recordedModulusLocked a := fun a =>
    congrArg (fun marks => (marks.1 a).getD kCopyModulus) hreads.marks
  rw [length_sliceDigits] at hdigits
  obtain ⟨w', hrun, -⟩ := storeDigits_storesTo (F := F) dst (fun b => F.fastBaseConvert
    (F.mrSubset (F.fromPairs pairs) b) (F.base (F.fromPairs pairs) ++ pBase) (fbcVariant w₁.config)
    (fbcCenterShape w₁.config)) (sliceDigits digitBases lens) 0 w₁
  rw [hrun] at hdigits ⊢
  exact fun a => (hdigits a).trans (by rw [hkept])

/-! ## The layout -/

/-- What a digit decomposition over `base` leaves: digit `d` is the `d`-th block of destinations,
each residue recorded under its modulus; the other addresses hold what they held, sources being
bound to it; and the groups with a destination are one for each digit. -/
structure LaysOut (F : Fhetch P M) (w : World P M) (dst srcs : List DevAddr) (base : List UInt64)
    (count : ℕ) (digit : ℕ → M) (w' : World P M) : Prop where
  placed : ∀ d < count, ∀ j q, base[j]? = some q →
    w'.binding (dst.getD (d * base.length + j) .null) = some (F.residue (digit d) q) ∧
      w'.epoch.recordedModulusLocked (dst.getD (d * base.length + j) .null) = q
  others : ∀ a, a ∉ takePtrs (count * base.length) dst →
    w'.held F a = w.held F a ∧
      w'.binding a = (if a ∈ srcs then w.held F a else w.binding a) ∧
      w'.epoch.recordedModulusLocked a = w.epoch.recordedModulusLocked a
  groups : ∃ names : List ProbeName, names.Nodup ∧ names.length = count ∧
    (∀ d name, names[d]? = some name →
      AList.lookup (dst.getD (d * base.length) .null) w'.epoch.mrpOutNames = some name ∧
        AList.lookup name w'.epoch.knownMrpGroups =
          some ⟨takePtrs base.length (dst.drop (d * base.length)), base⟩) ∧
    ∀ name group, AList.lookup name w'.epoch.knownMrpGroups = some group →
      (∃ a ∈ group.addrs, a ∈ takePtrs (count * base.length) dst) → name ∈ names

/-- The leading pointer of a block is its first. -/
theorem headD_takePtrs {n k : ℕ} (h : 0 < n) (dst : List DevAddr) :
    (takePtrs n (dst.drop k)).headD .null = dst.getD k .null := by
  rw [List.headD_eq_head?_getD, List.head?_eq_getElem?, getElem?_takePtrs h, Option.getD_some,
    List.getD_eq_getElem?_getD, List.getElem?_drop, Nat.add_zero, List.getD_eq_getElem?_getD]

/-- Groups that are written to distinct blocks one after the other are those over the blocks. -/
theorem Holds.blocks {r : Registry} {dst : List DevAddr} {base : List UInt64} {count : ℕ}
    (h : w'.Holds (((List.range count).map fun d =>
      (takePtrs base.length (dst.drop (d * base.length)), base)).foldl Registry.writeGroup r))
    (hlong : 1 < base.length) (hdistinct : (takePtrs (count * base.length) dst).Nodup) :
    ∃ names : List ProbeName, names.Nodup ∧ names.length = count ∧
      (∀ d name, names[d]? = some name →
        AList.lookup (dst.getD (d * base.length) .null) w'.epoch.mrpOutNames = some name ∧
          AList.lookup name w'.epoch.knownMrpGroups =
            some ⟨takePtrs base.length (dst.drop (d * base.length)), base⟩) ∧
      ∀ name group, AList.lookup name w'.epoch.knownMrpGroups = some group →
        (∃ a ∈ group.addrs, a ∈ takePtrs (count * base.length) dst) → name ∈ names := by
  obtain ⟨hvalid, hregistry⟩ := h
  have hrefines := hvalid.refines
  rw [hregistry] at hrefines
  have hpos : 0 < base.length := by omega
  -- Every block is a group under the name of its first pointer.
  have hself := Registry.writeGroups_self ((List.range count).map fun d =>
      (takePtrs base.length (dst.drop (d * base.length)), base)) (by
    simp only [List.forall_mem_map]
    exact fun _ _ => hlong) (by
    simp only [List.forall_mem_map]
    intro d _ hnil
    have hlength := length_takePtrs base.length (dst.drop (d * base.length))
    rw [hnil] at hlength
    exact hpos.ne hlength) (by
    have hblocks := takePtrs_disjoint hdistinct
    rw [List.pairwise_map] at hblocks ⊢
    exact hblocks) r
  simp only [List.forall_mem_map, headD_takePtrs hpos] at hself
  have hnamed : ∀ d < count, ∃ name,
      AList.lookup (dst.getD (d * base.length) .null) w'.epoch.mrpOutNames = some name ∧
        AList.lookup name w'.epoch.knownMrpGroups =
          some ⟨takePtrs base.length (dst.drop (d * base.length)), base⟩ := by
    intro d hd
    obtain ⟨tagged, hentry⟩ := hself d (List.mem_range.mpr hd)
    obtain ⟨-, name, hname, hgroup, -⟩ := hrefines.entry _ _ hentry
    exact ⟨name, hname, hgroup⟩
  have : Nonempty ProbeName := ⟨.hazeMrpOut 0⟩
  choose! nameOf hnameOf hgroupOf using hnamed
  refine ⟨(List.range count).map nameOf, ?_, ?_, fun d name hd => ?_, fun name group hg ht => ?_⟩
  · refine List.nodup_range.map_on fun d hd d' hd' heq => ?_
    rw [List.mem_range] at hd hd'
    -- Two leading pointers with one name are one, and then it is one place of the array.
    have hlead := hvalid.named.injective _ _ _ (hnameOf d hd) (heq ▸ hnameOf d' hd')
    have hplace : ∀ d < count, (takePtrs (count * base.length) dst)[d * base.length]? =
        some (dst.getD (d * base.length) .null) := fun d hd =>
      getElem?_takePtrs (Nat.mul_lt_mul_of_pos_right hd hpos) dst
    have hsame := (List.getElem?_inj (by
      rw [length_takePtrs]
      exact Nat.mul_lt_mul_of_pos_right hd hpos) hdistinct).mp
        ((hplace d hd).trans (hlead ▸ (hplace d' hd').symm))
    exact Nat.eq_of_mul_eq_mul_right hpos hsame
  · rw [List.length_map, List.length_range]
  · rw [List.getElem?_map, Option.map_eq_some_iff] at hd
    obtain ⟨d', hrange, rfl⟩ := hd
    obtain ⟨hd, rfl⟩ := List.getElem?_eq_some_iff.mp hrange
    rw [List.length_range] at hd
    rw [List.getElem_range]
    exact ⟨hnameOf d hd, hgroupOf d hd⟩
  · obtain ⟨a, e, he, hname, haddrs, -⟩ := hrefines.group name group hg
    rcases Registry.of_writeGroups (by
      simp only [List.forall_mem_map]
      exact fun _ _ => hlong) he with ⟨block, hblock, rfl, -, -⟩ | ⟨-, hfree⟩
    · obtain ⟨d, hd, rfl⟩ := List.mem_map.mp hblock
      rw [headD_takePtrs hpos, hnameOf d (List.mem_range.mp hd)] at hname
      exact List.mem_map.mpr ⟨d, hd, Option.some.inj hname⟩
    · -- A group that is disjoint from every block has no destination.
      obtain ⟨b, hb, hmem⟩ := ht
      have hblocks := takePtrs_blocks base.length 0 count dst
      rw [Nat.zero_mul, List.drop_zero, ← List.range_eq_range'] at hblocks
      rw [← hblocks, List.mem_flatMap] at hmem
      obtain ⟨d, hd, hmem⟩ := hmem
      exact absurd hmem (hfree _ (List.mem_map.mpr ⟨d, hd, rfl⟩) b (haddrs ▸ hb))

end World

/-! ## Digit decompositions -/

section

variable {F : Fhetch P M} {w : World P M}

/-- A residue of a digit is among the writes, at its place in the digit's block. -/
theorem mem_digitWrites (dst : List DevAddr) {lift : List UInt64 → M} {base : List UInt64}
    (hlift : ∀ digitBase, F.base (lift digitBase) = base) {digitBases : List (List UInt64)} {d : ℕ}
    {digitBase : List UInt64} (h : digitBases[d]? = some digitBase) {j : ℕ} {q : UInt64}
    (hq : base[j]? = some q) (k : ℕ) :
    (dst.getD ((k + d) * base.length + j) .null, F.residue (lift digitBase) q) ∈
      digitWrites F dst lift k digitBases := by
  induction digitBases generalizing d k with
  | nil => cases h
  | cons first digitBases ih =>
    rw [digitWrites, List.mem_append]
    rcases d with _ | d
    · cases h
      rw [hlift]
      exact .inl (List.mem_map.mpr ⟨_, List.mem_of_getElem? (getElem?_zip_takePtrs hq _ dst), rfl⟩)
    · rw [List.getElem?_cons_succ] at h
      have hrest := ih h (k + 1)
      rw [Nat.add_right_comm, Nat.add_assoc] at hrest
      exact .inr hrest

/-- Where all polynomials are there, each is. -/
theorem isSome_of_polysAt {v : DevAddr → Option P} {addrs : List DevAddr} {polys : List P}
    (h : polysAt v addrs = some polys) : ∀ a ∈ addrs, (v a).isSome := by
  induction addrs generalizing polys with
  | nil => exact fun a ha => absurd ha List.not_mem_nil
  | cons a addrs ih =>
    rw [polysAt_cons] at h
    obtain ⟨p, hp, hrest⟩ := Option.bind_eq_some_iff.mp h
    obtain ⟨ps, hps, -⟩ := Option.map_eq_some_iff.mp hrest
    exact List.forall_mem_cons.mpr ⟨hp ▸ rfl, ih hps⟩

/-- A digit decomposition that succeeds writes each of its destinations once, in order, and lays the
digits out over the source's base and the auxiliary one. -/
theorem modUp_layout (hF : F.LawfulBase) (hw : w.Reachable F) (env : CompilerReplies P)
    (dst src : List DevAddr) {p : ModUpParams} {srcBase digitBases lens pBase : List UInt64}
    (hp : p.validate = .ok (srcBase, digitBases, lens, pBase))
    (hdistinct : (takePtrs (lens.length * (srcBase ++ pBase).length) dst).Nodup) :
    let c : Call := .modUp (some dst) (some src) (some p)
    let base := srcBase ++ pBase
    let srcs := takePtrs srcBase.length src
    (c.run F env w).1.code = .success →
    ∃ m writes, evalMrp F (w.held F) src srcBase = some m ∧
      c.eval F w.config (w.held F) = some writes ∧
      writes.map Prod.fst = takePtrs (lens.length * base.length) dst ∧
      w.RecordsTo F srcs writes (c.run F env w).2 ∧
      w.LaysOut F dst srcs base lens.length
        (fun d => F.fastBaseConvert
          (F.mrSubset m ((digitBases.drop (digitOffset lens d)).take (lens.getD d 0).toNat)) base
          (fbcVariant w.config) (fbcCenterShape w.config)) (c.run F env w).2 := by
  intro c base srcs hsuccess
  obtain ⟨hsrcBase, hne, -, -, hpne, -, -⟩ := modUp_bases hp
  have hlong : 1 < base.length := by
    have hs := List.length_pos_iff.mpr hne
    have hq := List.length_pos_iff.mpr hpne
    rw [List.length_append]
    omega
  have hrun := Call.run_eval F env (c := c) trivial w hw.stocked
  dsimp only at hrun
  rcases heval : c.eval F w.config (w.held F) with _ | writes <;> rw [heval] at hrun
  · exact absurd hsuccess hrun.1
  have hwrites : (evalMrp F (w.held F) src srcBase).map (fun m =>
      digitWrites F dst (fun digitBase => F.fastBaseConvert (F.mrSubset m digitBase)
        (F.base m ++ pBase) (fbcVariant w.config) (fbcCenterShape w.config)) 0
        (sliceDigits digitBases lens)) = some writes := by
    rw [← heval]
    simp only [c, Call.eval, hp]
  obtain ⟨m, hm, rfl⟩ := Option.map_eq_some_iff.mp hwrites
  obtain ⟨pairs, rfl, hpairs⟩ := evalMrp_pairs hm
  rw [hF.base_fromPairs, hpairs] at hrun ⊢
  -- Every source was looked up.
  have hlooked : c.looked F w.config (w.held F) = srcs := by
    obtain ⟨polys, hpolys, -⟩ := Option.map_eq_some_iff.mp hm
    have hall : World.lookedUp (w.held F) srcs = srcs :=
      World.lookedUp_all (isSome_of_polysAt hpolys)
    simp only [c, Call.looked, Call.rejected, Call.srcs, hp, hsrcBase, residues]
    exact hall
  rw [hlooked] at hrun
  have hlift : ∀ digitBase, F.base (F.fastBaseConvert (F.mrSubset (F.fromPairs pairs) digitBase)
      base (fbcVariant w.config) (fbcCenterShape w.config)) = base := fun digitBase =>
    hF.base_fastBaseConvert ..
  have hfst : (digitWrites F dst (fun digitBase => F.fastBaseConvert
      (F.mrSubset (F.fromPairs pairs) digitBase) base (fbcVariant w.config)
      (fbcCenterShape w.config)) 0 (sliceDigits digitBases lens)).map Prod.fst = _ :=
    map_fst_digitWrites (fun b => congrArg List.length (hlift b)) 0 (sliceDigits digitBases lens)
  rw [length_sliceDigits, takePtrs_blocks, Nat.zero_mul, List.drop_zero] at hfst
  -- The same run, for the moduli and the groups.
  have hmethod : World.modUp F env dst src p w = (.ok (), (c.run F env w).2) := by
    obtain ⟨_, hok⟩ := Shim.replyWith_success hsuccess
    exact Prod.ext hok (Shim.replyWith_state ..).symm
  have hmoduli := (World.recorded_modUp hF env dst src hp hw.stocked).ok (.refl F w) hmethod
  have hholds := (World.modUp_holds hF env dst src p).ok ⟨hw.inv.epoch, rfl⟩ hmethod
  rw [ModUpParams.writes, hp] at hholds
  have hresidues := map_fst_digitResidues dst base 0 lens.length
  rw [Nat.zero_mul, List.drop_zero] at hresidues
  refine ⟨F.fromPairs pairs, _, hm, rfl, hfst, hrun.2, ?_⟩
  refine ⟨fun d hd j q hq => ⟨hrun.2.written ?_, ?_⟩, fun a ha => ⟨?_, ?_, ?_⟩,
    hholds.blocks hlong hdistinct⟩
  · have hlen : lens[d]? = some (lens.getD d 0) := by
      rw [List.getD_eq_getElem?_getD, List.getElem?_eq_getElem hd, Option.getD_some]
    have hmem := mem_digitWrites dst hlift (getElem?_sliceDigits digitBases hlen) hq 0
    rw [Nat.zero_add] at hmem
    exact Writes.last_of_mem (hfst ▸ hdistinct) hmem
  · rw [hmoduli, Writes.last_of_mem (hresidues ▸ hdistinct) (mem_digitResidues hd hq dst)]
    rfl
  · rw [hrun.2.held, Writes.all_of_notMem (hfst ▸ ha)]
  · rw [hrun.2.binding, Writes.last_eq_none.mpr (hfst ▸ ha), Option.none_or]
  · rw [hmoduli, Writes.last_eq_none.mpr (hresidues ▸ ha)]
    rfl

/-- Two digits of one modulus each. -/
def twoDigits : ModUpParams := ⟨some [17, 19], some [17, 19], 2, some [1, 1], some [23]⟩

/-- Six pointers, of which the first two are the sources. -/
def sixPointers : List DevAddr :=
  [⟨kHbmBase⟩, ⟨kHbmBase + 8⟩, ⟨kHbmBase + 16⟩, ⟨kHbmBase + 24⟩, ⟨kHbmBase + 32⟩, ⟨kHbmBase + 40⟩]

/-- Two digits over the extended base, laid out block by block. -/
theorem modUp_layout_example :
    let w := threeResidues
    let c : Call := .modUp (some sixPointers) (some sixPointers) (some twoDigits)
    let after := (c.run scalarRing scalarReplies w).2
    ∃ m writes, evalMrp scalarRing (w.held scalarRing) sixPointers [17, 19] = some m ∧
      c.eval scalarRing w.config (w.held scalarRing) = some writes ∧
      writes.map Prod.fst = takePtrs 6 sixPointers ∧
      w.RecordsTo scalarRing (takePtrs 2 sixPointers) writes after ∧
      w.LaysOut scalarRing sixPointers (takePtrs 2 sixPointers) [17, 19, 23] 2
        (fun d => scalarRing.fastBaseConvert (scalarRing.mrSubset m
          ((([17, 19] : List UInt64).drop (digitOffset [1, 1] d)).take
            (([1, 1] : List UInt64).getD d 0).toNat)) [17, 19, 23]
          (fbcVariant w.config) (fbcCenterShape w.config)) after :=
  modUp_layout scalarRing_lawfulBase ⟨_, rfl⟩ scalarReplies _ _
    (show twoDigits.validate = .ok ([17, 19], [17, 19], [1, 1], [23]) by decide +kernel)
    (by decide +kernel) (by decide +kernel)

end

end Haze
