import Haze.Core.ScalarRing
import Haze.Runtime.Invariant

/-!
# The two reads of an address's words

`extract_polynomial_components` and `read_polynomial_components` make the same checks, each in a
sequence of its own (`extract_checks`, `read_checks`). The first takes the entry out of the map
before its last check, that of the size, and does not put it back. The reads therefore agree, and
the first changes nothing where it fails, exactly where that check is not reached with an entry of
another size (`reads_agree`). A change of the ring dimension leaves such entries.
-/

namespace Haze

namespace DeviceAllocator

/-- The checks of `extract_polynomial_components` in their order. -/
def extractChecks (addr : DevAddr) (ringDim : UInt64) : Method (List UInt64) := do
  if ringDim = 0 then Expected.fail .notConfigured
  else do
    let s ← Expected.get
    if addr ∉ s.allocSet then Expected.fail .unknownAddress
    else if s.polyBytes < ringDim * 8 then Expected.fail .allocTooSmall
    else match s.shadow addr with
      | none => Expected.fail .noData
      | some components => do
        -- The node leaves the map before its size is looked at.
        Expected.modify fun s => { s with shadowData := AList.erase addr s.shadowData }
        if components.length ≠ ringDim.toNat then Expected.fail .shadowSizeMismatch
        else pure components

/-- The checks of `read_polynomial_components` in their order. -/
def readChecks (addr : DevAddr) (ringDim : UInt64) : Method (List UInt64) := do
  if ringDim = 0 then Expected.fail .notConfigured
  else do
    let s ← Expected.get
    if addr ∉ s.allocSet then Expected.fail .unknownAddress
    else if s.polyBytes < ringDim * 8 then Expected.fail .allocTooSmall
    else match s.shadow addr with
      | none => Expected.fail .noData
      | some components =>
        if components.length ≠ ringDim.toNat then Expected.fail .shadowSizeMismatch
        else pure components

/-- The two reads agree: they return the same, the second changes nothing, and the first takes the
entry of the address out exactly when it succeeds, and else changes nothing. -/
structure ReadsAgree (s : DeviceAllocator) (addr : DevAddr) (ringDim : UInt64) : Prop where
  result : (extractPolynomialComponents addr ringDim s).1 = (readPolynomialComponents addr ringDim s).1
  unchanged : (readPolynomialComponents addr ringDim s).2 = s
  success : ∀ values, (extractPolynomialComponents addr ringDim s).1 = .ok values →
    s.shadow addr = some values ∧ (extractPolynomialComponents addr ringDim s).2 =
      { s with shadowData := AList.erase addr s.shadowData }
  failure : ∀ e, (extractPolynomialComponents addr ringDim s).1 = .error e →
    (extractPolynomialComponents addr ringDim s).2 = s

section

variable (s : DeviceAllocator) (addr : DevAddr) (ringDim : UInt64)

/-- Extracting is its checks, one after the other. -/
theorem extract_checks :
    extractPolynomialComponents addr ringDim s = extractChecks addr ringDim s := by
  -- The checks stand in the same order on both sides; the extract then erases the entry.
  unfold extractPolynomialComponents extractChecks components
  by_cases hdim : ringDim = 0
  · rw [if_pos hdim, if_pos hdim]
    rfl
  rw [if_neg hdim, if_neg hdim, Expected.get_bind_run]
  by_cases hlive : addr ∉ s.allocSet
  · rw [if_pos hlive, if_pos hlive]
    rfl
  rw [if_neg hlive, if_neg hlive]
  by_cases hsize : s.polyBytes < ringDim * 8
  · rw [if_pos hsize, if_pos hsize]
    rfl
  rw [if_neg hsize, if_neg hsize]
  rcases s.shadow addr with _ | values
  · rfl
  dsimp only
  rw [Expected.modify_bind_run]
  by_cases hlength : values.length ≠ ringDim.toNat
  · rw [if_pos hlength, if_pos hlength]
    rfl
  · rw [if_neg hlength, if_neg hlength]
    rfl

/-- Reading is the same checks. -/
theorem read_checks : readPolynomialComponents addr ringDim s = readChecks addr ringDim s := by
  unfold readPolynomialComponents readChecks components
  -- The read makes the same checks, and changes nothing.
  rw [Expected.query_run]
  by_cases hdim : ringDim = 0
  · rw [if_pos hdim, if_pos hdim]
    rfl
  rw [if_neg hdim, if_neg hdim, Expected.get_bind_run]
  by_cases hlive : addr ∉ s.allocSet
  · rw [if_pos hlive, if_pos hlive]
    rfl
  rw [if_neg hlive, if_neg hlive]
  by_cases hsize : s.polyBytes < ringDim * 8
  · rw [if_pos hsize, if_pos hsize]
    rfl
  rw [if_neg hsize, if_neg hsize]
  rcases s.shadow addr with _ | values
  · rfl
  dsimp only
  by_cases hlength : values.length ≠ ringDim.toNat
  · rw [if_pos hlength, if_pos hlength]
    rfl
  · rw [if_neg hlength, if_neg hlength]
    rfl

/-- The result of the sequence that takes the entry out is that of the sequence that does not. -/
theorem extractChecks_fst : (extractChecks addr ringDim s).1 = (readChecks addr ringDim s).1 := by
  -- The erased entry is the only difference, and no check looks at the map after it.
  unfold extractChecks readChecks
  by_cases hdim : ringDim = 0
  · rw [if_pos hdim, if_pos hdim]
  rw [if_neg hdim, if_neg hdim, Expected.get_bind_run, Expected.get_bind_run]
  by_cases hlive : addr ∉ s.allocSet
  · rw [if_pos hlive, if_pos hlive]
  rw [if_neg hlive, if_neg hlive]
  by_cases hsize : s.polyBytes < ringDim * 8
  · rw [if_pos hsize, if_pos hsize]
  rw [if_neg hsize, if_neg hsize]
  rcases s.shadow addr with _ | values
  · rfl
  dsimp only
  rw [Expected.modify_bind_run]
  by_cases hlength : values.length ≠ ringDim.toNat
  · rw [if_pos hlength]
    rfl
  · rw [if_neg hlength]
    rfl

/-- The words of an address that passes the other checks are of another size. -/
theorem components_mismatch_iff : components addr ringDim s = .error .shadowSizeMismatch ↔
    ringDim ≠ 0 ∧ addr ∈ s.allocSet ∧ ringDim * 8 ≤ s.polyBytes ∧
      ∃ values, s.shadow addr = some values ∧ values.length ≠ ringDim.toNat := by
  -- Every earlier check has an error of its own, so the mismatch is the last one.
  unfold components
  by_cases hdim : ringDim = 0
  · rw [if_pos hdim]
    exact iff_of_false (by decide) fun h => h.1 hdim
  by_cases hlive : addr ∈ s.allocSet
  swap
  · rw [if_neg hdim, if_pos hlive]
    exact iff_of_false (by decide) fun h => hlive h.2.1
  by_cases hsize : s.polyBytes < ringDim * 8
  · rw [if_neg hdim, if_neg (not_not.mpr hlive), if_pos hsize]
    exact iff_of_false (by decide) fun h => UInt64.not_lt.mpr h.2.2.1 hsize
  rw [if_neg hdim, if_neg (not_not.mpr hlive), if_neg hsize]
  rcases hs : s.shadow addr with _ | values
  · refine iff_of_false (fun h => by cases h) ?_
    rintro ⟨-, -, -, _, h, -⟩
    cases h
  · dsimp only
    by_cases hlength : values.length = ringDim.toNat
    · rw [if_neg (not_not.mpr hlength)]
      refine iff_of_false (fun h => by cases h) ?_
      rintro ⟨-, -, -, values', hvalues, hne⟩
      cases hvalues
      exact hne hlength
    · rw [if_pos hlength]
      exact iff_of_true rfl ⟨hdim, hlive, UInt64.not_lt.mp hsize, values, rfl, hlength⟩

/-- The reads agree exactly when the last check is not reached with an entry of another size. -/
theorem reads_agree : s.ReadsAgree addr ringDim ↔
    (ringDim ≠ 0 → addr ∈ s.allocSet → ringDim * 8 ≤ s.polyBytes →
      ∀ values, s.shadow addr = some values → values.length = ringDim.toNat) := by
  have hread : (readPolynomialComponents addr ringDim s).2 = s := rfl
  have hresult : (extractPolynomialComponents addr ringDim s).1 =
      (readPolynomialComponents addr ringDim s).1 := by
    rw [extract_checks, read_checks]
    exact extractChecks_fst s addr ringDim
  rcases hc : components addr ringDim s with e | values
  · by_cases hmismatch : e = .shadowSizeMismatch
    · -- The entry has left the map, although the call fails.
      subst hmismatch
      obtain ⟨hdim, hlive, hsize, values, hs, hlength⟩ :=
        (components_mismatch_iff s addr ringDim).mp hc
      refine iff_of_false (fun h => ?_) fun h => hlength (h hdim hlive hsize values hs)
      have hrun : extractPolynomialComponents addr ringDim s = (.error .shadowSizeMismatch,
          { s with shadowData := AList.erase addr s.shadowData }) := by
        unfold extractPolynomialComponents
        rw [hc]
      have hkept := congrArg (fun t : DeviceAllocator => t.shadow addr)
        (h.failure .shadowSizeMismatch (congrArg Prod.fst hrun))
      rw [hrun] at hkept
      change AList.lookup addr (AList.erase addr s.shadowData) = s.shadow addr at hkept
      rw [AList.lookup_erase, hs] at hkept
      cases hkept
    -- Any other error comes before the entry is taken out.
    · have hrun : extractPolynomialComponents addr ringDim s = (.error e, s) := by
        unfold extractPolynomialComponents
        rw [hc]
        cases e <;> first | rfl | exact absurd rfl hmismatch
      refine iff_of_true ⟨hresult, hread, fun values hok => ?_, fun _ _ => congrArg Prod.snd hrun⟩ ?_
      · rw [hrun] at hok
        cases hok
      · intro hdim hlive hsize values hs
        by_contra hlength
        have hm := (components_mismatch_iff s addr ringDim).mpr
          ⟨hdim, hlive, hsize, values, hs, hlength⟩
        exact hmismatch (Except.error.inj (hc.symm.trans hm))
  -- A read that succeeds has found its words, and takes them out.
  · have hrun : extractPolynomialComponents addr ringDim s =
        (.ok values, { s with shadowData := AList.erase addr s.shadowData }) := by
      unfold extractPolynomialComponents
      rw [hc]
    obtain ⟨-, -, hs, hlength⟩ := World.components_ok hc
    refine iff_of_true ⟨hresult, hread, fun values' hok => ?_, fun e herror => ?_⟩ ?_
    · rw [hrun] at hok
      cases hok
      exact ⟨hs, congrArg Prod.snd hrun⟩
    · rw [hrun] at herror
      cases herror
    · intro _ _ _ values' hs'
      cases hs.symm.trans hs'
      exact hlength

end

/-- Words of one component, and then a ring dimension of two. -/
def resizedWords : World UInt64 (List (UInt64 × UInt64)) :=
  .runAll scalarRing .init (scalarProgram [.setRingDimension 1, .malloc true 8,
    .memset ⟨kHbmBase⟩ 5 8, .setRingDimension 2])

/-- The read that evicts fails with the error of the other, and the words are gone. -/
theorem reads_agree_counterexample :
    let s := resizedWords.allocator
    resizedWords.Reachable scalarRing ∧ s.shadow ⟨kHbmBase⟩ = some [0x0505050505050505] ∧
      (readPolynomialComponents ⟨kHbmBase⟩ 2 s).1 = .error .shadowSizeMismatch ∧
      (extractPolynomialComponents ⟨kHbmBase⟩ 2 s).1 = .error .shadowSizeMismatch ∧
      (extractPolynomialComponents ⟨kHbmBase⟩ 2 s).2.shadow ⟨kHbmBase⟩ = none ∧
      ¬ s.ReadsAgree ⟨kHbmBase⟩ 2 := by
  intro s
  have hfails : (extractPolynomialComponents ⟨kHbmBase⟩ 2 s).1 = .error .shadowSizeMismatch := by
    decide +kernel
  have hgone : (extractPolynomialComponents ⟨kHbmBase⟩ 2 s).2.shadow ⟨kHbmBase⟩ = none := by
    decide +kernel
  have hwords : s.shadow ⟨kHbmBase⟩ = some [0x0505050505050505] := by decide +kernel
  refine ⟨⟨_, rfl⟩, hwords, by decide +kernel, hfails, hgone, fun h => ?_⟩
  rw [h.failure _ hfails, hwords] at hgone
  cases hgone

end DeviceAllocator

end Haze
