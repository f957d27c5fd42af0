import Haze.Core.ScalarRing
import Haze.Runtime.Invariant

/-!
# The size of the words of an address

Every write of words sizes them to the current size of an allocation, and every read takes the
current size for granted. The size follows the ring dimension. A change of the ring dimension drops
the pooled addresses, but the live ones keep words of the old size, and a copy to the host then
reads past their end. `shadows_sized` says that this is the only way: the words have the size that
the reads assume in every state of a run exactly when no change of the size finds words stored.

The size in bytes of a ring dimension of `2^61` or more wraps to zero, which a read of components
does not expect.
-/

namespace Haze

variable {P M : Type} {F : Fhetch P M}

namespace World

/-- The words of every live address are as many as the reads assume: a copy to the host that passes
its checks stays within them, and no read of components finds another size. -/
structure Sized (w : World P M) : Prop where
  entry : ∀ a values, a ∈ w.allocator.allocSet → w.shadow a = some values →
    values.length = w.allocator.wantElems
  copy : ∀ dst src count bytes values, w.allocator.copyToHost dst src count = .ok bytes →
    w.shadow src = some values → count.toNat ≤ 8 * values.length
  extract : ∀ a, (DeviceAllocator.extractPolynomialComponents a w.config.ringDim w.allocator).1 ≠
    .error .shadowSizeMismatch
  read : ∀ a, (DeviceAllocator.readPolynomialComponents a w.config.ringDim w.allocator).1 ≠
    .error .shadowSizeMismatch

/-- Words are stored only under a ring dimension whose size in bytes does not wrap. -/
def SizeFits (w : World P M) : Prop :=
  w.config.ringDim.toNat < 2^61 ∨ w.allocator.shadowData = ∅

end World

/-- A change of the ring dimension that is accepted and changes the size of an allocation finds no
words stored. -/
def Invocation.KeepsSizes (w : World P M) (i : Invocation P) : Prop :=
  ∀ n, i.call = .setRingDimension n → Config.isSupportedRingDim n →
    (w.config.configured → w.config.ringDim = n) → w.allocator.polyBytes ≠ n * 8 →
    w.allocator.shadowData = ∅

namespace World

/-! ## Reading words of the current size -/

/-- Every entry has a word for each word of an allocation. -/
def EntriesSized (w : World P M) : Prop :=
  ∀ a values, w.shadow a = some values → values.length = w.allocator.wantElems

/-- A read of components finds words of another size when there is a word for each word of an
allocation but not for each component. -/
theorem components_mismatch_iff {w : World P M} (h : w.Inv) (hsized : w.EntriesSized) (a : DevAddr) :
    DeviceAllocator.components a w.config.ringDim w.allocator = .error .shadowSizeMismatch ↔
      w.shadow a ≠ none ∧ 2^61 ≤ w.config.ringDim.toNat := by
  obtain ⟨hwant, -⟩ := h.wantElems
  -- The words are as many as `polyBytes / 8`, and `ring_dim * 8` wraps exactly from `2^61` on.
  constructor
  · intro hm
    obtain ⟨values, hs, hlen⟩ := components_mismatch hm
    refine ⟨(by rw [shadow, hs]; exact Option.some_ne_none values), ?_⟩
    have := hsized a values hs
    omega
  · rintro ⟨hs, hbig⟩
    obtain ⟨values, hs⟩ := Option.ne_none_iff_exists'.mp hs
    have hlive := h.live_of_shadow hs
    have hlen := hsized a values hs
    have hn : w.config.ringDim ≠ 0 := by
      intro h0
      rw [h0] at hbig
      exact absurd hbig (by decide)
    have hne : values.length ≠ w.config.ringDim.toNat := by omega
    unfold shadow at hs
    unfold DeviceAllocator.components
    rw [if_neg hn, if_neg (not_not.mpr hlive), if_neg (by rw [h.size]; exact UInt64.lt_irrefl _), hs]
    exact if_pos hne

/-- The components that are read, as a result of either method. -/
theorem extract_fst (a : DevAddr) (n : UInt64) (s : DeviceAllocator) :
    (DeviceAllocator.extractPolynomialComponents a n s).1 = DeviceAllocator.components a n s := by
  unfold DeviceAllocator.extractPolynomialComponents
  rcases DeviceAllocator.components a n s with e | values
  · cases e <;> rfl
  · rfl

/-- The reads find what they assume exactly when every entry has the size of an allocation and that
size does not wrap. -/
theorem sized_iff {w : World P M} (h : w.Inv) : w.Sized ↔ w.EntriesSized ∧ w.SizeFits := by
  constructor
  · intro hs
    have hentries : w.EntriesSized := fun a values ha => hs.entry a values (h.live_of_shadow ha) ha
    -- Otherwise some entry could not be read.
    refine ⟨hentries, Classical.byContradiction fun hfit => ?_⟩
    obtain ⟨hbig, hne⟩ := not_or.mp hfit
    obtain ⟨a, ha⟩ : ∃ a, a ∈ w.allocator.shadowData := by
      by_contra hnone
      exact hne (UMap.eq_empty_iff.mpr fun a ha => hnone ⟨a, ha⟩)
    obtain ⟨values, ha⟩ := UMap.mem_iff_lookup.mp ha
    refine hs.read a ((components_mismatch_iff h hentries a).mpr ⟨?_, Nat.not_lt.mp hbig⟩)
    rw [shadow, DeviceAllocator.shadow, ha]
    exact Option.some_ne_none values
  · rintro ⟨hentries, hfit⟩
    have hcomponents : ∀ a, DeviceAllocator.components a w.config.ringDim w.allocator ≠
        .error .shadowSizeMismatch := by
      intro a hm
      obtain ⟨hs, hbig⟩ := (components_mismatch_iff h hentries a).mp hm
      rcases hfit with hsmall | hnone
      · exact absurd hsmall (Nat.not_lt.mpr hbig)
      · rw [shadow, DeviceAllocator.shadow, hnone] at hs
        exact hs rfl
    refine ⟨fun a values _ ha => hentries a values ha, fun dst src count bytes values hok hs => ?_,
      fun a => by rw [extract_fst]; exact hcomponents a, hcomponents⟩
    -- A copy to the host reads `count` bytes, no more than the polynomial has.
    unfold DeviceAllocator.copyToHost at hok
    split_ifs at hok
    rcases hrange : w.allocator.checkRange src count with e | _
    · rw [hrange] at hok
      cases hok
    obtain ⟨-, hcount⟩ := DeviceAllocator.checkRange_ok hrange
    have hbytes := h.wantElems.2
    have hlen := hentries src values hs
    have := UInt64.le_iff_toNat_le.mp hcount
    omega

/-! ## What the calls keep -/

/-- An action keeps the size of every entry, unless it changes the size while words are stored. -/
theorem EntriesSized.act {w : World P M} {x : Action P M} (hx : w.Allowed x)
    (hn : ∀ n, x = .ringDimension n → w.allocator.polyBytes ≠ n * 8 → w.allocator.shadowData = ∅)
    (h : w.EntriesSized) : (w.act F x).EntriesSized := by
  -- Only a write and a change of the size say anything about the length of an entry.
  cases x with
  | allocator x =>
    have hwant : (w.allocator.act x).wantElems = w.allocator.wantElems := by
      unfold DeviceAllocator.wantElems
      rw [w.allocator.polyBytes_act x]
    intro a values hs
    change (w.allocator.act x).shadow a = some values at hs
    change values.length = (w.allocator.act x).wantElems
    rw [shadow_allocator_act] at hs
    rw [hwant]
    cases x with
    | write b words =>
      dsimp only at hs
      split_ifs at hs
      · cases hs
        exact hx.2
      · exact h a values hs
    | evict b =>
      dsimp only at hs
      split_ifs at hs
      exact h a values hs
    | freeOne b =>
      dsimp only at hs
      split_ifs at hs
      exact h a values hs
    | allocateOne => exact h a values hs
  | promote b =>
    intro a values hs
    change (w.allocator.act (.evict b)).shadow a = some values at hs
    rw [shadow_allocator_act] at hs
    dsimp only at hs
    split_ifs at hs
    exact h a values hs
  | ringDimension n =>
    intro a values hs
    change (w.allocator.setPolynomialSize (n * 8)).shadow a = some values at hs
    change values.length = (w.allocator.setPolynomialSize (n * 8)).wantElems
    rcases w.allocator.setPolynomialSize_cases (n * 8) with ⟨-, he⟩ | ⟨hchange, he⟩
    · rw [he] at hs ⊢
      exact h a values hs
    · -- No words survive the change, since there were none.
      rw [he] at hs
      change AList.lookup a (UMap.eraseAll w.allocator.poolFree w.allocator.shadowData) =
        some values at hs
      rw [hn n rfl hchange, UMap.lookup_eraseAll] at hs
      split_ifs at hs
      cases hs
  | session env =>
    obtain ⟨_, _, _, -, he⟩ := session_frame (F := F) env w
    rw [he]
    exact h
  | reset => exact fun a values hs => nomatch hs
  | _ => exact h

/-- Only the call that sets the ring dimension takes the action that does. -/
theorem acts_ringDimension {pending : DevAddr → Prop} {c : Call} {n : UInt64}
    (h : c.Acts F pending (.ringDimension n)) : c = .setRingDimension n := by
  cases c with
  | memcpy transfer count => cases transfer <;> exact h.elim
  | memcpyMrp transfer count base => cases transfer <;> exact h.elim
  | config call =>
    obtain ⟨_, hx⟩ := h
    cases hx
  | tagOutput ptr => cases h
  | deviceReset => cases h
  | setRingDimension m =>
    cases h
    rfl
  | _ => exact h.elim

/-- A change of the size that finds words stored leaves words of another size. -/
theorem change_mismatches {w : World P M} (h : w.Inv) (hsized : w.EntriesSized) {n : UInt64}
    (hchange : w.allocator.polyBytes ≠ n * 8) (hwords : w.allocator.shadowData ≠ ∅) :
    ¬ (w.act F (.ringDimension n)).EntriesSized := by
  intro hafter
  obtain ⟨a, ha⟩ : ∃ a, a ∈ w.allocator.shadowData := by
    by_contra hnone
    exact hwords (UMap.eq_empty_iff.mpr fun a ha => hnone ⟨a, ha⟩)
  have hpool : a ∉ w.allocator.poolFree := fun hp =>
    h.allocator.pool_dead a hp (h.allocator.shadow_live a ha)
  obtain ⟨values, ha⟩ := UMap.mem_iff_lookup.mp ha
  have hlen := hsized a values ha
  -- The address is live, so its words are not dropped with the pool.
  have hafterwards : (w.act F (.ringDimension n)).allocator =
      { w.allocator.clearPoolLocked with polyBytes := n * 8 } :=
    ((w.allocator.setPolynomialSize_cases (n * 8)).resolve_left fun hs => hchange hs.1).2
  have hkept : (w.act F (.ringDimension n)).shadow a = some values := by
    rw [shadow, hafterwards]
    change AList.lookup a (UMap.eraseAll w.allocator.poolFree w.allocator.shadowData) = _
    rw [UMap.lookup_eraseAll, if_neg hpool, ha]
  have hlen' := hafter a values hkept
  rw [hlen, hafterwards] at hlen'
  -- Both sizes are multiples of eight, so that one word count means one size.
  have hbytes := h.wantElems.2
  have hwant : (n * 8).toNat = 8 * w.allocator.wantElems := by
    rw [hlen', DeviceAllocator.wantElems, UInt64.toNat_div, UInt64.toNat_mul]
    have h8 : (8 : UInt64).toNat = 8 := rfl
    rw [h8]
    omega
  exact hchange (UInt64.toNat_inj.mp (hbytes.trans hwant.symm))

/-- A call keeps the size of every entry exactly when it does not change the size while words are
stored. -/
theorem keepsSizes_iff {w : World P M} {i : Invocation P} (h : w.Inv) (hsized : w.EntriesSized) :
    i.KeepsSizes w ↔ (w.after F i).EntriesSized := by
  obtain ⟨env, call⟩ := i
  -- Only the setter can break the sizes, and it does where words are left behind.
  by_cases hcall : ∃ n, call = .setRingDimension n
  · obtain ⟨n, rfl⟩ := hcall
    have hafter : w.after F ⟨env, .setRingDimension n⟩ = (setRingDimension n w).2 :=
      Shim.replyWith_state _ _ w
    rw [hafter]
    rcases setRingDimension_cases (F := F) n w with ⟨hallowed, he⟩ | ⟨hrejected, he⟩
    · rw [he]
      constructor
      · intro hi
        refine hsized.act (F := F) (x := .ringDimension n) hallowed fun m hm hchange => ?_
        cases hm
        exact hi n rfl hallowed.1 hallowed.2 hchange
      · rintro hsized' m ⟨⟩ - - hchange
        by_contra hwords
        exact change_mismatches (F := F) h hsized hchange hwords hsized'
    · rw [he]
      refine ⟨fun _ => hsized, fun _ m hm hn hc => ?_⟩
      cases hm
      exact absurd ⟨hn, hc⟩ hrejected
  -- Any other call writes words of the size that is current.
  · refine ⟨fun _ => ?_, fun _ n hn => absurd ⟨n, hn⟩ hcall⟩
    refine (Call.performs env call w).preserves (fun v x hx hv => hv.act hx.2 fun n hn => ?_) hsized
    exact absurd ⟨n, acts_ringDimension (hn ▸ hx.1)⟩ hcall

end World

open World

/-- In a run, the words of the live addresses have the size that the reads assume in every state
reached exactly when every change of the size of an allocation finds no words stored, and no state
reached has words under a ring dimension whose size in bytes wraps. -/
theorem shadows_sized (F : Fhetch P M) (is : List (Invocation P)) :
    (∀ js, js <+: is → (World.runAll F .init js).Sized) ↔
      Expected.Along (World.after F) (fun w i => i.KeepsSizes w) .init is ∧
        ∀ js, js <+: is → (World.runAll F .init js).SizeFits := by
  -- At the start there are no words; every step keeps the sizes exactly when its call does.
  have hinit : (World.init : World P M).EntriesSized := fun a values hs => nomatch hs
  have hinv : ∀ (w : World P M) i, w.Inv → (World.after F w i).Inv := fun w i hw => hw.after i
  have hkeeps : ∀ (w : World P M) i, w.Inv → w.EntriesSized →
      (Invocation.KeepsSizes w i ↔ (World.after F w i).EntriesSized) := fun w i => keepsSizes_iff
  have halong : Expected.Along (World.after F) (fun w i => i.KeepsSizes w) .init is ↔
      ∀ js, js <+: is → (World.runAll F .init js).EntriesSized :=
    Expected.along_iff_prefix hinv hkeeps inv_init hinit
  have hsized : ∀ js, (World.runAll F .init js).Sized ↔
      (World.runAll F .init js).EntriesSized ∧ (World.runAll F .init js).SizeFits :=
    fun js => sized_iff (inv_init.runAll js)
  rw [halong]
  constructor
  · intro h
    exact ⟨fun js hjs => ((hsized js).mp (h js hjs)).1, fun js hjs => ((hsized js).mp (h js hjs)).2⟩
  · rintro ⟨hentries, hfits⟩ js hjs
    exact (hsized js).mpr ⟨hentries js hjs, hfits js hjs⟩

/-! ## Words of an earlier size -/

/-- An upload of one word, followed by a ring dimension of two. -/
def grownAllocation : List (Invocation UInt64) :=
  scalarProgram [.setRingDimension 1, .malloc true 8,
    .memcpy (.hostToDevice ⟨kHbmBase⟩ (some [5, 0, 0, 0, 0, 0, 0, 0])) 8, .setRingDimension 2]

/-- A copy of two words to the host passes its checks, and there is one word. -/
theorem shadows_sized_counterexample :
    (World.runAll scalarRing .init grownAllocation).Reachable scalarRing ∧
      ¬ (World.runAll scalarRing .init grownAllocation).Sized := by
  refine ⟨⟨_, rfl⟩, fun h => ?_⟩
  have hcount := h.copy true ⟨kHbmBase⟩ 16 [5, 0, 0, 0, 0, 0, 0, 0, 0, 0, 0, 0, 0, 0, 0, 0] [5]
    (by decide +kernel) (by decide +kernel)
  exact absurd hcount (by decide +kernel)

end Haze
