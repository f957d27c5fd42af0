import Haze.Runtime.Computing
import Haze.Runtime.Registry
import Mathlib.Algebra.Order.BigOperators.Group.List

/-!
# Rescaling and digit decomposition

The three basis conversions are given arrays and their lengths, and write as many destinations as
the library's results have moduli. The checks of a digit decomposition add the digits' lengths up as
words and look at no modulus, so that they hold the slices within the array and the digits within
the source's base only under `modUp_validates_iff`. The checks of a rescaling let a modulus be
dropped twice, and then more destinations are written than the caller has (`modDown_writes_iff`).
-/

namespace Haze

variable {P M : Type}

open World (takePtrs fbcVariant fbcCenterShape)

/-! ## Slices -/

/-- The sum of the lengths before digit `d`. -/
def digitOffset (lens : List UInt64) (d : ℕ) : ℕ := ((lens.take d).map UInt64.toNat).sum

section

variable {digitBases lens : List UInt64}

/-- Behind the first slice the offsets are those of the other slices. -/
theorem digitOffset_cons (len : UInt64) (lens : List UInt64) (d : ℕ) :
    digitOffset (len :: lens) (d + 1) = len.toNat + digitOffset lens d := by
  rw [digitOffset, List.take_succ_cons, List.map_cons, List.sum_cons, digitOffset]

/-- A digit's base is cut out at the sum of the lengths before it. -/
theorem getElem?_sliceDigits (digitBases : List UInt64) {lens : List UInt64} {d : ℕ} {len : UInt64}
    (h : lens[d]? = some len) : (sliceDigits digitBases lens)[d]? =
      some ((digitBases.drop (digitOffset lens d)).take len.toNat) := by
  induction lens generalizing digitBases d with
  | nil => cases h
  | cons len' lens ih =>
    rcases d with _ | d
    · cases h
      rfl
    · rw [sliceDigits, List.getElem?_cons_succ, ih _ h, List.drop_drop, digitOffset_cons]

/-- A slice ends where the next one begins. -/
theorem digitOffset_end {lens : List UInt64} {d : ℕ} {len : UInt64} (h : lens[d]? = some len) :
    digitOffset lens d + len.toNat = digitOffset lens (d + 1) := by
  rw [digitOffset, digitOffset, List.take_add_one, h, List.map_append, List.sum_append]
  rfl

/-- The slices together are what the lengths reach. -/
theorem flatten_sliceDigits (digitBases lens : List UInt64) :
    (sliceDigits digitBases lens).flatten = digitBases.take (lens.map UInt64.toNat).sum := by
  induction lens generalizing digitBases with
  | nil => rfl
  | cons len lens ih =>
    rw [sliceDigits, List.flatten_cons, ih, List.map_cons, List.sum_cons, List.take_add]

/-- The lengths are added up as words. -/
theorem toNat_foldl_add (lens : List UInt64) (start : UInt64) :
    (lens.foldl (· + ·) start).toNat =
      (start.toNat + (lens.map UInt64.toNat).sum) % UInt64.size := by
  induction lens generalizing start with
  | nil => exact (Nat.mod_eq_of_lt start.toNat_lt_size).symm
  | cons len lens ih =>
    rw [List.foldl_cons, ih, UInt64.toNat_add, List.map_cons, List.sum_cons, ← Nat.add_assoc]
    exact Nat.mod_add_mod ..

end

/-! ## The checks of a digit decomposition -/

section

variable {p : ModUpParams} {srcBase digitBases lens pBase : List UInt64}

/-- Accepted lengths hold every slice within the stated length, and the digits within the source's
base, exactly when their sum does not wrap and the stated part of the array is of the source's
base. -/
theorem modUp_validates_iff (h : p.validate = .ok (srcBase, digitBases, lens, pBase)) :
    ((∀ d len, lens[d]? = some len → digitOffset lens d + len.toNat ≤ p.digitBasesTotalLen.toNat) ∧
      ∀ digitBase ∈ sliceDigits digitBases lens, ∀ q ∈ digitBase, q ∈ srcBase) ↔
    (lens.map UInt64.toNat).sum < UInt64.size ∧
      ∀ q ∈ digitBases.take p.digitBasesTotalLen.toNat, q ∈ srcBase := by
  obtain ⟨-, -, -, -, -, hlens, hsum⟩ := modUp_bases h
  have htotal : p.digitBasesTotalLen.toNat = (lens.map UInt64.toNat).sum % UInt64.size := by
    rw [← hsum, toNat_foldl_add]
    exact congrArg (· % _) (Nat.zero_add _)
  -- The last slice ends where all lengths together end.
  have hlast : (∀ d len, lens[d]? = some len →
      digitOffset lens d + len.toNat ≤ p.digitBasesTotalLen.toNat) ↔
        (lens.map UInt64.toNat).sum ≤ p.digitBasesTotalLen.toNat := by
    constructor
    · intro hall
      have hpos := List.length_pos_iff.mpr hlens
      have hend := hall (lens.length - 1) _ (List.getElem?_eq_getElem (by omega))
      rwa [digitOffset_end (List.getElem?_eq_getElem (by omega)), Nat.sub_add_cancel hpos,
        digitOffset, List.take_length] at hend
    · intro hall d len hlen
      rw [digitOffset_end hlen, digitOffset]
      exact (((List.take_sublist _ lens).map _).sum_le_sum fun _ _ => Nat.zero_le _).trans hall
  have hwraps : (lens.map UInt64.toNat).sum ≤ p.digitBasesTotalLen.toNat ↔
      (lens.map UInt64.toNat).sum < UInt64.size := by
    rw [htotal]
    constructor
    · exact fun hle => hle.trans_lt (Nat.mod_lt _ (by decide))
    · exact fun hlt => (Nat.mod_eq_of_lt hlt).ge
  rw [hlast, hwraps]
  refine and_congr_right fun hsmall => ?_
  have hflat : ∀ q, (∃ digitBase ∈ sliceDigits digitBases lens, q ∈ digitBase) ↔
      q ∈ digitBases.take p.digitBasesTotalLen.toNat := by
    intro q
    rw [htotal, Nat.mod_eq_of_lt hsmall, ← flatten_sliceDigits, List.mem_flatten]
  constructor
  · intro hall q hq
    obtain ⟨digitBase, hdigit, hmem⟩ := (hflat q).mpr hq
    exact hall digitBase hdigit q hmem
  · exact fun hall digitBase hdigit q hq => hall q ((hflat q).mp ⟨digitBase, hdigit, hq⟩)

/-- Two digits whose lengths sum to one as words. -/
def wrappingDigits : ModUpParams :=
  ⟨some [17], some [17], 1, some [18446744073709551615, 2], some [19]⟩

/-- A digit over a modulus that the source does not have. -/
def foreignDigit : ModUpParams := ⟨some [17], some [23], 1, some [1], some [19]⟩

/-- Two digits, of two moduli and of one. -/
def unevenDigits : ModUpParams := ⟨some [17, 19, 23], some [17, 19, 23], 3, some [2, 1], some [29]⟩

/-- The slices of the two digits are within the array and the source's base. -/
theorem modUp_validates_iff_example :
    let (srcBase, digitBases, lens) : List UInt64 × List UInt64 × List UInt64 :=
      ([17, 19, 23], [17, 19, 23], [2, 1])
    let total := unevenDigits.digitBasesTotalLen.toNat
    (∀ d len, lens[d]? = some len → digitOffset lens d + len.toNat ≤ total) ∧
      ∀ digitBase ∈ sliceDigits digitBases lens, ∀ q ∈ digitBase, q ∈ srcBase :=
  (modUp_validates_iff (show unevenDigits.validate =
    .ok ([17, 19, 23], [17, 19, 23], [2, 1], [29]) by decide +kernel)).mpr
      ⟨by decide +kernel, fun _ hq => List.mem_of_mem_take hq⟩

/-- The first slice of the one runs outside the array, and that of the other has a foreign
modulus. -/
theorem modUp_validates_counterexample :
    (∃ srcBase digitBases lens pBase,
      wrappingDigits.validate = .ok (srcBase, digitBases, lens, pBase) ∧
      ¬ ∀ d len, lens[d]? = some len →
        digitOffset lens d + len.toNat ≤ wrappingDigits.digitBasesTotalLen.toNat) ∧
    ∃ srcBase digitBases lens pBase,
      foreignDigit.validate = .ok (srcBase, digitBases, lens, pBase) ∧
      ¬ ∀ digitBase ∈ sliceDigits digitBases lens, ∀ q ∈ digitBase, q ∈ srcBase := by
  refine ⟨⟨[17], [17], [18446744073709551615, 2], [19], by decide +kernel, fun h => ?_⟩,
    ⟨[17], [23], [1], [19], by decide +kernel, fun h => ?_⟩⟩
  · exact absurd (h 0 18446744073709551615 rfl) (by decide +kernel)
  · exact absurd (h [23] (List.mem_singleton.mpr rfl) 23 (List.mem_singleton.mpr rfl)) (by decide)

end

/-! ## The destinations of a rescaling -/

section

variable {F : Fhetch P M} {w : World P M}

/-- The moduli that are kept, and those that are dropped counted once each. -/
theorem length_kept {srcBase rescaleBase : List UInt64} (hdistinct : srcBase.Nodup)
    (hsub : ∀ q ∈ rescaleBase, q ∈ srcBase) :
    srcBase.length = rescaleBase.dedup.length + (srcBase.filter (· ∉ rescaleBase)).length := by
  have hdropped : (srcBase.filter (· ∈ rescaleBase)).length = rescaleBase.dedup.length := by
    refine List.Perm.length_eq ((List.perm_ext_iff_of_nodup (hdistinct.filter _)
      (List.nodup_dedup _)).mpr fun q => ?_)
    rw [List.mem_filter, List.mem_dedup, decide_eq_true_iff]
    exact ⟨fun h => h.2, fun h => ⟨hsub q h, h⟩⟩
  have hsum := List.length_eq_length_filter_add (l := srcBase) fun q => decide (q ∈ rescaleBase)
  have hnot : (srcBase.filter fun q => !decide (q ∈ rescaleBase)) =
      srcBase.filter (· ∉ rescaleBase) := List.filter_congr fun q _ => (decide_not ..).symm
  rwa [hnot, hdropped] at hsum

/-- Filling up a list looks at its first elements alone. -/
theorem takeD_eq_takeD_take {α : Type} {n : ℕ} (xs : List α) (x : α) :
    xs.takeD n x = (xs.take n).takeD n x := by
  induction n generalizing xs with
  | zero => rfl
  | succ n ih =>
    rcases xs with _ | ⟨y, xs⟩
    · rfl
    · rw [List.take_succ_cons, List.takeD_succ, List.takeD_succ, List.tail_cons, List.tail_cons, ← ih]
      rfl

/-- Storing a multi-residue polynomial reads one pointer for each modulus. -/
theorem storeMrpLocked_congr {dst dst' : List DevAddr} {m : M} {base : List UInt64}
    (h : dst'.take base.length = dst.take base.length) :
    World.storeMrpLocked F dst' m base = World.storeMrpLocked F dst m base := by
  have htake : takePtrs base.length dst' = takePtrs base.length dst := by
    rw [takePtrs, takePtrs, takeD_eq_takeD_take dst', takeD_eq_takeD_take dst, h]
  unfold World.storeMrpLocked
  rw [htake]

/-- A rescaling that succeeds makes the documented writes, one for each of the moduli that are kept
as counted by the two lengths, and reads no pointer behind them, exactly when no modulus is dropped
twice. -/
theorem modDown_writes_iff (hF : F.LawfulBase) (hw : w.Reachable F) (env : CompilerReplies P)
    (dst src : List DevAddr) {p : ModDownParams} {srcBase rescaleBase : List UInt64}
    (hp : p.validate = .ok (srcBase, rescaleBase)) (hdistinct : srcBase.Nodup) :
    let c (dst : List DevAddr) : Call := .modDown (some dst) (some src) (some p)
    let documented := srcBase.length - rescaleBase.length
    let kept := srcBase.filter (· ∉ rescaleBase)
    ((c dst).run F env w).1.code = .success →
    ∃ m writes, evalMrp F (w.held F) src srcBase = some m ∧
      w.RecordsTo F ((c dst).looked F w.config (w.held F)) writes ((c dst).run F env w).2 ∧
      (c dst).eval F w.config (w.held F) = some writes ∧
      ((writes = ((takePtrs documented dst).zip kept).map (fun r => (r.1, F.residue
            (F.rescaleFbc m rescaleBase (fbcVariant w.config) (fbcCenterShape w.config)) r.2)) ∧
          ∀ dst' : List DevAddr, dst'.take documented = dst.take documented →
            (c dst').run F env w = (c dst).run F env w) ↔
        rescaleBase.Nodup) := by
  intro c documented kept hsuccess
  obtain ⟨-, -, hsub, hlen⟩ := modDown_bases hp
  -- The moduli that are kept and the distinct rescale moduli make up the source base.
  have hkept : srcBase.length = rescaleBase.dedup.length + kept.length := length_kept hdistinct hsub
  have hsublist := List.dedup_sublist rescaleBase
  have hle := hsublist.length_le
  -- A call that succeeds has evaluated its source.
  have hrun := Call.run_eval F env (c := c dst) trivial w hw.stocked
  dsimp only at hrun
  rcases heval : (c dst).eval F w.config (w.held F) with _ | writes <;> rw [heval] at hrun
  · exact absurd hsuccess hrun.1
  have hwrites : (evalMrp F (w.held F) src srcBase).map (fun m =>
      let result := F.rescaleFbc m rescaleBase (fbcVariant w.config) (fbcCenterShape w.config)
      mrpWrites F dst result (F.base result)) = some writes := by
    rw [← heval]
    simp only [c, Call.eval, hp]
  obtain ⟨m, hm, rfl⟩ := Option.map_eq_some_iff.mp hwrites
  obtain ⟨pairs, rfl, hpairs⟩ := evalMrp_pairs hm
  refine ⟨F.fromPairs pairs, _, hm, hrun.2, rfl, ?_⟩
  dsimp only
  -- The values are written under the base of the result, which is `kept`.
  rw [base_rescaled hF hpairs]
  constructor
  -- The lengths already tell: a repeated modulus is subtracted twice, but filtered once.
  · rintro ⟨hsame, -⟩
    have hlength := congrArg List.length hsame
    rw [mrpWrites, List.length_map, List.length_map, List.length_zip, List.length_zip,
      World.length_takePtrs, World.length_takePtrs] at hlength
    change min kept.length kept.length = min documented kept.length at hlength
    have hdedup : rescaleBase.dedup.length = rescaleBase.length := by omega
    exact List.dedup_eq_self.mp (hsublist.eq_of_length hdedup)
  -- Without a repetition the documented number is the number of moduli kept.
  · intro hnodup
    have hdocumented : kept.length = documented := by
      rw [List.dedup_eq_self.mpr hnodup] at hkept
      omega
    refine ⟨?_, fun dst' htake => ?_⟩
    · rw [mrpWrites, ← hdocumented]
    · -- The pointers are read when the base of the result is known.
      have hmethod : World.modDown F env dst' src p w = World.modDown F env dst src p w := by
        unfold World.modDown
        rw [Expected.query_bind_ok (f := fun _ => p.validate) hp,
          Expected.query_bind_ok (f := fun _ => p.validate) hp]
        change (World.buildMrpLocked F src srcBase >>= _) (w.act F (.session env)) =
          (World.buildMrpLocked F src srcBase >>= _) (w.act F (.session env))
        rcases hb : World.buildMrpLocked F src srcBase (w.act F (.session env)) with ⟨e | m, v⟩
        · rw [Expected.bind_run_error hb, Expected.bind_run_error hb]
        · obtain ⟨pairs', rfl, hpairs'⟩ := World.buildMrp_value hb
          rw [Expected.bind_run_ok hb, Expected.bind_run_ok hb, Expected.get_bind_run,
            Expected.get_bind_run, storeMrpLocked_congr]
          rw [base_rescaled hF hpairs']
          change dst'.take kept.length = dst.take kept.length
          rw [hdocumented]
          exact htake
      change Shim.replyWith (fun _ => Reply.success) (World.modDown F env dst' src p) w =
        Shim.replyWith (fun _ => Reply.success) (World.modDown F env dst src p) w
      unfold Shim.replyWith
      rw [hmethod]

/-- Three residues that were set, and three addresses that have nothing. -/
def threeResidues : World UInt64 (List (UInt64 × UInt64)) :=
  .runAll scalarRing .init (scalarProgram [.setRingDimension 1, .mallocMrp true 6 8,
    .memset ⟨kHbmBase⟩ 5 8, .memset ⟨kHbmBase + 8⟩ 6 8, .memset ⟨kHbmBase + 16⟩ 7 8])

/-- One modulus dropped twice. -/
def droppedTwice : ModDownParams := ⟨some [17, 19, 23], some [17, 17]⟩

/-- The documented number of destinations is one; there is a second pointer. -/
def rescaleTwice : Call :=
  .modDown (some [⟨kHbmBase + 24⟩, ⟨kHbmBase + 32⟩])
    (some [⟨kHbmBase⟩, ⟨kHbmBase + 8⟩, ⟨kHbmBase + 16⟩]) (some droppedTwice)

/-- Whether the second pointer is written depends on how often a modulus is dropped. -/
theorem modDown_writes_iff_example :
    let w := threeResidues
    let dst : List DevAddr := [⟨kHbmBase + 24⟩, ⟨kHbmBase + 32⟩]
    let src : List DevAddr := [⟨kHbmBase⟩, ⟨kHbmBase + 8⟩, ⟨kHbmBase + 16⟩]
    let c (dst : List DevAddr) : Call := .modDown (some dst) (some src) (some droppedTwice)
    ∃ m writes, evalMrp scalarRing (w.held scalarRing) src [17, 19, 23] = some m ∧
      w.RecordsTo scalarRing ((c dst).looked scalarRing w.config (w.held scalarRing)) writes
        ((c dst).run scalarRing scalarReplies w).2 ∧
      (c dst).eval scalarRing w.config (w.held scalarRing) = some writes ∧
      ((writes = ((takePtrs 1 dst).zip ([17, 19, 23].filter (· ∉ [17, 17]))).map (fun r => (r.1,
            scalarRing.residue (scalarRing.rescaleFbc m [17, 17] (fbcVariant w.config)
              (fbcCenterShape w.config)) r.2)) ∧
          ∀ dst' : List DevAddr, dst'.take 1 = dst.take 1 →
            (c dst').run scalarRing scalarReplies w = (c dst).run scalarRing scalarReplies w) ↔
        ([17, 17] : List UInt64).Nodup) :=
  modDown_writes_iff scalarRing_lawfulBase ⟨_, rfl⟩ scalarReplies _ _ (by decide +kernel)
    (by decide +kernel) (by decide +kernel)

/-- The rescaling binds the second pointer. -/
theorem modDown_writes_counterexample :
    let w := threeResidues
    let (reply, after) := rescaleTwice.run scalarRing scalarReplies w
    w.Reachable scalarRing ∧ droppedTwice.validate = .ok ([17, 19, 23], [17, 17]) ∧
      reply.code = .success ∧ w.binding ⟨kHbmBase + 32⟩ = none ∧
      after.binding ⟨kHbmBase + 32⟩ ≠ none :=
  ⟨⟨_, rfl⟩, by decide +kernel, by decide +kernel, by decide +kernel, by decide +kernel⟩

end

end Haze
