import Haze.Epoch.Invalidation
import Haze.Epoch.Tagging
import Haze.Runtime.Invariant

/-!
# Tags and invalidations in every reachable state

The epoch's invariant holds after every sequence of critical sections, and there a tag declares
exactly an address's group (`tagOutput_exact`), and an invalidation drops exactly an address and its
groups (`invalidate_exact`).
-/

namespace Haze

variable {P M : Type}

/-- A tag fails exactly for an address that is not bound, and then changes nothing; else it tags
what the address declares. A second tag of any of that changes nothing, and after further tags
nothing but the order of the pending groups. Tags in another order differ in the names of the
outputs at most. -/
theorem tagOutput_exact (F : Fhetch P M) (xs : List (CriticalSection P)) :
    let s := (xs.foldl (CriticalSection.run F) (World.init : World P M)).epoch
    let tag (a : DevAddr) := EpochState.tagOutputLocked (P := P) a
    (∀ a, ((tag a s).1 ≠ .ok () ↔ a ∉ s.polyMap) ∧
      (a ∉ s.polyMap → (tag a s).2 = s) ∧
      (a ∈ s.polyMap → s.Tags (tag a s).2 (s.Declares a) (s.Member · a))) ∧
    (∀ a b, a ∈ s.polyMap → s.Declares a b → tag b (tag a s).2 = (.ok (), (tag a s).2)) ∧
    (∀ as a b, a ∈ as → a ∈ s.polyMap → s.Declares a b → ∃ groups,
      tag b (s.tagOutputs as) = (.ok (), { s.tagOutputs as with pendingMrpGroups := groups }) ∧
        ∀ name, name ∈ groups ↔ name ∈ (s.tagOutputs as).pendingMrpGroups) ∧
    ∀ as bs : List DevAddr, as.Perm bs → (s.tagOutputs as).TagsPermuted (s.tagOutputs bs) := by
  intro s tag
  have h : s.Valid := CriticalSection.runAll_valid xs
  refine ⟨fun a => ?_, fun a b => h.tagOutput_again, fun as a b hmem ha hb => ?_,
    fun as bs hperm => ?_⟩
  · by_cases ha : a ∈ s.polyMap
    · obtain ⟨t, ht, htags⟩ := h.consistent.tagOutput_tags ha
      change tag a s = _ at ht
      rw [ht]
      exact ⟨⟨fun hne => absurd rfl hne, fun hnot => absurd ha hnot⟩, fun hnot => absurd ha hnot,
        fun _ => htags⟩
    · have ht : tag a s = (.error .sourceUnavailable, s) := EpochState.tagOutput_unbound ha
      rw [ht]
      exact ⟨⟨fun _ => ha, fun _ hok => nomatch hok⟩, fun _ => rfl, fun hbound => absurd hbound ha⟩
  · have htags := h.tagOutputs_tags as
    -- What `b` declares was tagged with `a`.
    refine (h.tagOutputs as).consistent.tagOutput_tagged ?_ (fun c hc => ?_) fun name hm => ?_
    · exact htags.polyMap ▸ h.consistent.declares_bound ha hb
    · have hdeclared := (h.consistent.declares_congr hb c).mp (htags.declares.mp hc)
      exact (htags.outputs c).mpr (.inr ⟨a, hmem, ha, hdeclared⟩)
    · have hgroup := h.consistent.declares_member hb (htags.member.mp hm)
      exact (htags.groups name).mpr (.inr ⟨a, hmem, hgroup⟩)
  · have htags := h.tagOutputs_tags bs
    refine (h.tagOutputs_tags as).permuted (htags.congr (fun b => ?_) fun name => ?_)
      (h.tagOutputs as).outputsNamed (h.tagOutputs bs).outputsNamed
    · simp only [hperm.mem_iff]
    · simp only [hperm.mem_iff]

/-- An invalidation takes an address out of every map and its groups out of the registry and the
index, and leaves the other addresses and groups as they are. -/
theorem invalidate_exact (F : Fhetch P M) (xs : List (CriticalSection P)) (a : DevAddr) :
    let s := (xs.foldl (CriticalSection.run F) (World.init : World P M)).epoch
    s.Forgets (s.invalidate a) a :=
  (CriticalSection.runAll_valid xs).consistent.invalidate_forgets a

end Haze
