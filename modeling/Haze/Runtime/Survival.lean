import Haze.Runtime.Effects

/-!
# Values across epochs

An address that was written by bytes holds the polynomial of its words. Calls that neither write nor
free it leave the polynomial as it is until the epoch ends, and the end of the epoch drops the
bindings, so that the address is left with its words. An upload binds an address and keeps its
words. The first reference to an address that is not bound takes them: if it is referenced once in
an epoch, its polynomial is lost with that epoch.

So a value that is uploaded and used in three epochs is lost at the end of the second
(`value_survives_counterexample`), and a value survives a sequence of calls exactly when each epoch
that they end leaves its words where they are (`value_survives_iff`).
-/

namespace Haze

variable {P M : Type}

open World (storedWords)

/-- The words of an address are there, as many as the ring dimension. -/
def World.Spare (w : World P M) (a : DevAddr) : Prop :=
  ∃ values, w.shadow a = some values ∧ values.length = w.config.ringDim.toNat

/-- A source that resolves to `v`: an operation that can be evaluated on `v` there succeeds, and
records the results of that evaluation. -/
structure World.ReadsAs (F : Fhetch P M) (w : World P M) (a : DevAddr) (v : P) : Prop where
  resolves : (World.lookupOrCreateLocked F a w).1 = .ok v
  reads : ∀ (env : CompilerReplies P) (c : Call) (writes : List (DevAddr × P)), c.Operates →
    c.eval F w.config (Function.update (w.held F) a (some v)) = some writes →
    (c.run F env w).1.code = .success ∧
      w.RecordsTo F (c.looked F w.config (w.held F)) writes (c.run F env w).2

/-- The words of an address, if it has any, are those of `v`. -/
def World.WordsOf (F : Fhetch P M) (w : World P M) (a : DevAddr) (v : P) : Prop :=
  ∀ values, w.shadow a = some values → ∃ n : UInt64, values.length = n.toNat ∧ F.fromData values n = v

/-- A change of the ring dimension leaves the binding of an address, and its words or none. -/
structure World.Rescales (w : World P M) (a : DevAddr) (w' : World P M) : Prop where
  dimension : w'.config.ringDim ≠ w.config.ringDim
  binding : w'.binding a = w.binding a
  words : w'.shadow a = w.shadow a ∨ w'.shadow a = none

namespace Invocation

/-- The call succeeds, and neither writes the address nor frees it. A flush may read it back. -/
def Leaves (F : Fhetch P M) (a : DevAddr) (w : World P M) (i : Invocation P) : Prop :=
  (i.run F w).1.code = .success ∧ i.call ≠ .deviceReset ∧
    (i.call = .flush ∨ a ∉ (i.call.written F i.env w).map Prod.fst)

/-- A call that ends a recorded epoch finds the words of the address there, or reads the words of
`v` back to it, and the ring dimension changes only where the address is bound. -/
def Saves (F : Fhetch P M) (a : DevAddr) (v : P) (w : World P M) (i : Invocation P) : Prop :=
  match i.call with
  | .flush => w.epoch.recording = true →
    (∀ name, AList.lookup a w.epoch.pendingOutputs = some name →
      inputOf F w.config.ringDim (storedWords i.env w ⟨a, name⟩) = some v) ∧
    (AList.lookup a w.epoch.pendingOutputs = none → w.Spare a)
  | .writeProgram => w.epoch.recording = true → w.Spare a
  | .setRingDimension n => n = w.config.ringDim ∨ w.binding a ≠ none
  | _ => True

end Invocation

namespace World

variable {F : Fhetch P M} {w w' : World P M} {a : DevAddr} {v : P}

/-- What an address holds is what it resolves to, and what operations read there. -/
theorem readsAs_iff (hw : w.Stocked) : w.ReadsAs F a v ↔ w.held F a = some v := by
  have hlookup := lookup_readsTo_one (F := F) hw a
  constructor
  · intro h
    rcases hlookup with ⟨poly, w', hrun, hheld, -⟩ | ⟨e, w', hrun, -, -⟩
    · have hsame : (Except.ok poly : Except HazeInternalError P) = .ok v :=
        (congrArg Prod.fst hrun).symm.trans h.resolves
      rw [hheld, Except.ok.inj hsame]
    · cases (congrArg Prod.fst hrun).symm.trans h.resolves
  · intro h
    refine ⟨?_, fun env c writes hc heval => ?_⟩
    · rcases hlookup with ⟨poly, w', hrun, hheld, -⟩ | ⟨e, w', hrun, hheld, -⟩
      · rw [hrun, Option.some.inj (hheld.symm.trans h)]
      · cases hheld.symm.trans h
    · rw [← h, Function.update_eq_self] at heval
      obtain ⟨hcode, hrecords⟩ := Call.run_operates F env hc hw
      exact ⟨hcode.mpr (by rw [heval]; rfl), hrecords writes heval⟩

/-- Words that are as many as the ring dimension are its polynomial. -/
theorem inputOf_eq_some {n : UInt64} {values : List UInt64} :
    inputOf F n values = some v ↔ values.length = n.toNat ∧ F.fromData values n = v := by
  unfold inputOf
  split_ifs with hlen
  · rw [Option.some.injEq, and_iff_right hlen]
  · exact ⟨nofun, fun h => absurd h.1 hlen⟩

/-- Words of `v` that are as many as the ring dimension are `v`. -/
theorem WordsOf.inputOf (hv : w.WordsOf F a v) {n : UInt64} :
    (w.shadow a).bind (Haze.inputOf F n) = some v ↔
      ∃ values, w.shadow a = some values ∧ values.length = n.toNat := by
  rw [Option.bind_eq_some_iff]
  refine exists_congr fun values => and_congr_right fun hs => ?_
  rw [inputOf_eq_some, and_iff_left_iff_imp]
  intro hlen
  obtain ⟨m, hm, hpoly⟩ := hv values hs
  rw [← UInt64.toNat_inj.mp (hm.symm.trans hlen)]
  exact hpoly

/-- Words that stay, or are taken, are still those of `v`. -/
theorem WordsOf.mono (hv : w.WordsOf F a v) (h : w'.shadow a = w.shadow a ∨ w'.shadow a = none) :
    w'.WordsOf F a v := by
  intro values hs
  rcases h with h | h
  · exact hv values (h.symm.trans hs)
  · cases h.symm.trans hs

/-- Setting the ring dimension, where it succeeds. -/
theorem setRingDimension_ok {n : UInt64} (h : (setRingDimension n w).1 = .ok ()) :
    (setRingDimension n w).2 = { w with
      config := { w.config with ringDim := n }
      allocator := w.allocator.setPolynomialSize (n * 8) } := by
  unfold setRingDimension at h ⊢
  split_ifs at h ⊢
  rfl

/-- Setting another ring dimension. -/
theorem setRingDimension_rescales {n : UInt64} (h : (setRingDimension n w).1 = .ok ())
    (hn : n ≠ w.config.ringDim) (a : DevAddr) : w.Rescales a (setRingDimension n w).2 := by
  rw [setRingDimension_ok h]
  refine ⟨hn, rfl, ?_⟩
  change AList.lookup a (w.allocator.setPolynomialSize (n * 8)).shadowData = w.shadow a ∨
    AList.lookup a (w.allocator.setPolynomialSize (n * 8)).shadowData = none
  rcases w.allocator.setPolynomialSize_cases (n * 8) with ⟨-, he⟩ | ⟨-, he⟩
  · rw [he]
    exact .inl rfl
  · rw [he]
    change AList.lookup a (UMap.eraseAll w.allocator.poolFree w.allocator.shadowData) = _ ∨
      AList.lookup a (UMap.eraseAll w.allocator.poolFree w.allocator.shadowData) = none
    rw [UMap.lookup_eraseAll]
    split_ifs
    · exact .inr rfl
    · exact .inl rfl

/-- Setting the ring dimension that is set changes nothing. -/
theorem setRingDimension_same (hw : w.Inv) : (setRingDimension w.config.ringDim w).2 = w := by
  have hsize : w.allocator.setPolynomialSize (w.config.ringDim * 8) = w.allocator := by
    unfold DeviceAllocator.setPolynomialSize
    rw [if_neg (not_not.mpr hw.size)]
  unfold setRingDimension
  split_ifs
  · rfl
  · rfl
  · rw [hsize]

end World

namespace Invocation

variable {F : Fhetch P M} {w : World P M} {a : DevAddr} {v : P} {i : Invocation P}

/-- A call that leaves an address leaves what it holds, or ends the epoch, or changes the ring
dimension. -/
theorem Leaves.cases (hw : w.Reachable F) (h : i.Leaves F a w) :
    ((∀ v, i.Saves F a v w) ∧ w.Settles F none a (w.after F i)) ∨
      (∃ words, w.EndsWith words (w.after F i) ∧
        ((words a = w.shadow a ∧ ∀ v, i.Saves F a v w ↔ w.Spare a) ∨
          ∃ values, words a = some values ∧
            ∀ v, i.Saves F a v w ↔ inputOf F w.config.ringDim values = some v)) ∨
      w.Rescales a (w.after F i) ∧ ∀ v, i.Saves F a v w ↔ w.binding a ≠ none := by
  obtain ⟨env, c⟩ := i
  obtain ⟨hsuccess, hreset, hwritten⟩ := h
  -- A steady call that does not write the address leaves it settled.
  have hsteady : c.Steady → (∀ v, Saves F a v w ⟨env, c⟩) → c ≠ .flush →
      (∀ v, Saves F a v w ⟨env, c⟩) ∧ w.Settles F none a (w.after F ⟨env, c⟩) := by
    intro hc hsaves hflush
    have hsettles := Invocation.settles hw ⟨env, c⟩ hc hsuccess a
    rw [Writes.last_eq_none.mpr (hwritten.resolve_left hflush)] at hsettles
    exact ⟨hsaves, hsettles⟩
  have hsame : w.after F ⟨env, c⟩ = w → (∀ v, Saves F a v w ⟨env, c⟩) →
      (∀ v, Saves F a v w ⟨env, c⟩) ∧ w.Settles F none a (w.after F ⟨env, c⟩) := by
    intro hidle hsaves
    rw [hidle]
    exact ⟨hsaves, .same hw.stocked hw.stocked rfl rfl rfl⟩
  have hdrop : w.epoch.recording = false → ∀ {p : Prop}, w.epoch.recording = true → p := by
    intro hrec p hrec'
    cases hrec.symm.trans hrec'
  cases c with
  -- A flush and a write end an epoch, where there is one.
  | flush =>
    by_cases hrec : w.epoch.recording = true
    · refine .inr (.inl ⟨_, World.flush_ends hw hrec hsuccess, ?_⟩)
      have hwords : Call.flush.leftWords env w a = ((AList.lookup a w.epoch.pendingOutputs).map
        fun name => storedWords env w ⟨a, name⟩).or (w.shadow a) := rfl
      rw [hwords]
      unfold Saves
      dsimp only
      rcases AList.lookup a w.epoch.pendingOutputs with _ | name
      -- An output gets its words; any other address has to keep a binding or its words.
      · exact .inl ⟨rfl, fun v => ⟨fun hs => (hs hrec).2 rfl, fun hs _ => ⟨nofun, fun _ => hs⟩⟩⟩
      · refine .inr ⟨_, rfl, fun v => ⟨fun hs => (hs hrec).1 name rfl, fun hs _ => ⟨?_, nofun⟩⟩⟩
        rintro _ ⟨⟩
        exact hs
    · have hidle := Bool.eq_false_iff.mpr hrec
      exact .inl (hsame (World.after_idle (.inl rfl) hidle) fun v => hdrop hidle)
  | writeProgram =>
    by_cases hrec : w.epoch.recording = true
    · refine .inr (.inl ⟨_, World.writeProgram_ends hw.inv hrec, .inl ⟨rfl, fun v => ?_⟩⟩)
      exact ⟨fun hs => hs hrec, fun hs _ => hs⟩
    · have hidle := Bool.eq_false_iff.mpr hrec
      exact .inl (hsame (World.after_idle (.inr rfl) hidle) fun v => hdrop hidle)
  | setRingDimension n =>
    obtain ⟨⟨⟩, hok⟩ := Shim.replyWith_success hsuccess
    have hstate : w.after F ⟨env, .setRingDimension n⟩ = (World.setRingDimension n w).2 :=
      Shim.replyWith_state _ (World.setRingDimension n) w
    -- The same dimension changes nothing.
    by_cases hn : n = w.config.ringDim
    · refine .inl (hsame ?_ fun v => .inl hn)
      rw [hstate, hn, World.setRingDimension_same hw.inv]
    · refine .inr (.inr ⟨?_, fun v => or_iff_right hn⟩)
      rw [hstate]
      exact World.setRingDimension_rescales hok hn a
  | deviceReset => exact absurd rfl hreset
  | _ => exact .inl (hsteady trivial (fun v => trivial) nofun)

/-- A call that saves a value leaves the words of no other. -/
theorem Saves.wordsOf (hw : w.Reachable F) (h : i.Leaves F a w) (hs : i.Saves F a v w)
    (hv : w.WordsOf F a v) : (w.after F i).WordsOf F a v := by
  rcases h.cases hw with ⟨-, hsettles⟩ | ⟨words, hends, hleft⟩ | ⟨hrescales, -⟩
  · exact hv.mono hsettles.words
  · rcases hleft with ⟨hsame, -⟩ | ⟨values, hread, hsaves⟩
    · exact hv.mono (.inl ((hends.shadow a).trans hsame))
    · intro values' hvalues
      cases hread.symm.trans ((hends.shadow a).symm.trans hvalues)
      exact ⟨_, World.inputOf_eq_some.mp ((hsaves v).mp hs)⟩
  · exact hv.mono hrescales.words

/-- A call that leaves an address keeps the value that it holds exactly when it saves it. -/
theorem Leaves.saves_iff (hw : w.Reachable F) (h : i.Leaves F a w) (hv : w.WordsOf F a v)
    (hheld : w.held F a = some v) : i.Saves F a v w ↔ (w.after F i).held F a = some v := by
  have hafter := (hw.after i).stocked
  -- The address is settled, has been left by the end of an epoch, or has been rescaled.
  rcases h.cases hw with ⟨hsaves, hsettles⟩ | ⟨words, hends, hleft⟩ | ⟨hrescales, hsaves⟩
  · exact iff_of_true (hsaves v) (hsettles.held.trans hheld)
  · rw [hends.held hafter]
    rcases hleft with ⟨hsame, hsaves⟩ | ⟨values, hread, hsaves⟩
    · rw [hsaves, hsame, hv.inputOf]
      rfl
    · rw [hsaves, hread, Option.bind_some]
  · rw [hsaves]
    rcases hb : w.binding a with _ | poly
    · -- The words of the address are not as many as the new ring dimension.
      rw [World.held_words_of_unbound hw.stocked hb, hv.inputOf] at hheld
      obtain ⟨values, hs, hlen⟩ := hheld
      refine iff_of_false (fun h => h rfl) fun hnow => hrescales.dimension ?_
      rw [World.held_words_of_unbound hafter (hrescales.binding.trans hb),
        (hv.mono hrescales.words).inputOf] at hnow
      obtain ⟨values', hs', hlen'⟩ := hnow
      rcases hrescales.words with hwords | hwords
      · cases hs.symm.trans (hwords.symm.trans hs')
        exact UInt64.toNat_inj.mp (hlen'.symm.trans hlen)
      · cases hwords.symm.trans hs'
    -- A binding stands in front of the words, and survives the change.
    · rw [World.held_bound hb] at hheld
      refine iff_of_true (Option.some_ne_none poly) ?_
      rw [← hheld, World.held_bound (hrescales.binding.trans hb)]

/-- An address that a call wrote with bytes has their words, and holds their polynomial. -/
theorem established (hw : w.Reachable F) (hsuccess : (i.run F w).1.code = .success)
    {content : List UInt8}
    (hwritten : Writes.last (i.call.written F i.env w) a = some (.bytes content)) :
    (w.after F i).shadow a = some (Limbs.limbsOf content) ∧
      (w.after F i).held F a = inputOf F w.config.ringDim (Limbs.limbsOf content) := by
  obtain ⟨env, c⟩ := i
  -- What a steady call writes is there, and is what a read returns.
  have hsteady : c.Steady → (w.after F ⟨env, c⟩).shadow a = some (Limbs.limbsOf content) ∧
      (w.after F ⟨env, c⟩).held F a = inputOf F w.config.ringDim (Limbs.limbsOf content) := by
    intro hc
    have hsettles := Invocation.settles hw ⟨env, c⟩ hc hsuccess a
    rw [hwritten] at hsettles
    exact ⟨hsettles.words, hsettles.held⟩
  cases c with
  | flush =>
    have hmem := Writes.mem_of_last hwritten
    change _ ∈ (if w.epoch.recording then _ else []) at hmem
    split_ifs at hmem with hrec
    · -- The bytes are those of an output that was read back.
      obtain ⟨entry, hentry, heq⟩ := List.mem_map.mp hmem
      cases heq
      have hends := World.flush_ends hw hrec hsuccess
      have hleft : Call.flush.leftWords env w entry.1 = some (storedWords env w entry) := by
        change ((AList.lookup entry.1 w.epoch.pendingOutputs).map _).or _ = _
        rw [World.mem_outputs.mp hentry]
        rfl
      rw [Limbs.limbsOf_bytesOf]
      refine ⟨(hends.shadow entry.1).trans hleft, ?_⟩
      change (hazeFlush F env w).2.held F entry.1 = _
      rw [hends.held (hw.after ⟨env, .flush⟩).stocked, hleft, Option.bind_some]
    · cases hmem
  | writeProgram => cases hwritten
  | deviceReset => cases hwritten
  | setRingDimension n => cases hwritten
  | _ => exact hsteady trivial

end Invocation

/-- A value that a successful call gives an address with its bytes is their polynomial. Under calls
that succeed and neither write nor free the address, it keeps resolving to the value, and operations
keep reading it there, exactly as long as every call saves it. -/
theorem value_survives_iff {F : Fhetch P M} {w : World P M} (hw : w.Reachable F)
    (i : Invocation P) (hsuccess : (i.run F w).1.code = .success) {a : DevAddr}
    {content : List UInt8} {v : P}
    (hwritten : Writes.last (i.call.written F i.env w) a = some (.bytes content))
    (hv : (w.after F i).held F a = some v) (is : List (Invocation P))
    (hleaves : Expected.Along (World.after F) (Invocation.Leaves F a) (w.after F i) is) :
    inputOf F w.config.ringDim (Limbs.limbsOf content) = some v ∧
      (Expected.Along (World.after F) (Invocation.Saves F a v) (w.after F i) is ↔
        ∀ js, js <+: is → (World.runAll F (w.after F i) js).ReadsAs F a v) := by
  obtain ⟨hshadow, hheld⟩ := Invocation.established hw hsuccess hwritten
  have hpoly := hheld.symm.trans hv
  -- The words that are written stand for the value.
  have hwords : (w.after F i).WordsOf F a v := by
    intro values hvalues
    cases hshadow.symm.trans hvalues
    exact ⟨_, World.inputOf_eq_some.mp hpoly⟩
  refine ⟨hpoly, ?_⟩
  -- By the step lemma, over the beginnings of the run.
  have hrun := hleaves.iff_beginnings (C := Invocation.Saves F a v)
    (K := fun u => u.Reachable F ∧ u.WordsOf F a v) (I := fun u => u.held F a = some v)
    (fun u j hj hs hk => ⟨hk.1.after j, hs.wordsOf hk.1 hj hk.2⟩)
    (fun u j hj hk hu => hj.saves_iff hk.1 hk.2 hu) ⟨hw.after i, hwords⟩ hv
  rw [hrun]
  refine forall_congr' fun js => imp_congr_right fun _ => ?_
  exact (World.readsAs_iff ((hw.after i).runAll js).stocked).symm

/-- Two addresses, before an upload. -/
def beforeUpload : List (Invocation UInt64) :=
  scalarProgram [.setRingDimension 1, .config (.setCiphertextModulus 0 17), .malloc true 8,
    .malloc true 8]

/-- A sum of the uploaded value with itself, in an epoch of its own. -/
def sumEpoch : List (Invocation UInt64) :=
  scalarProgram [.pp .add ⟨kHbmBase + 8⟩ ⟨kHbmBase⟩ ⟨kHbmBase⟩ 0, .tagOutput ⟨kHbmBase + 8⟩, .flush]

/-- The epoch of the upload finds its words where they were. -/
theorem value_survives_example :
    (World.runAll scalarRing (World.runAll scalarRing .init
      (beforeUpload ++ scalarProgram [uploadFive])) sumEpoch).ReadsAs scalarRing ⟨kHbmBase⟩ 5 :=
  (@value_survives_iff _ _ scalarRing _ ⟨beforeUpload, rfl⟩ ⟨scalarReplies, uploadFive⟩
    (by decide +kernel) ⟨kHbmBase⟩ [5, 0, 0, 0, 0, 0, 0, 0] 5 (by decide +kernel)
    (by decide +kernel) sumEpoch
    ⟨⟨by decide +kernel, nofun, .inr (by decide +kernel)⟩,
      ⟨by decide +kernel, nofun, .inr (by decide +kernel)⟩,
      ⟨by decide +kernel, nofun, .inl rfl⟩, trivial⟩).2.mp
    ⟨trivial, trivial, fun _ => ⟨by decide +kernel, fun _ => ⟨[5], by decide +kernel,
      by decide +kernel⟩⟩, trivial⟩ sumEpoch List.prefix_rfl

/-- In the second epoch the sum takes the words of the uploaded value, and in the third the same sum
fails. Every call before it succeeds and leaves the uploaded value alone. -/
theorem value_survives_counterexample :
    let w := World.runAll scalarRing .init (beforeUpload ++ scalarProgram [uploadFive])
    let w' := World.runAll scalarRing w (sumEpoch ++ sumEpoch)
    w.ReadsAs scalarRing ⟨kHbmBase⟩ 5 ∧
      Expected.Along (World.after scalarRing) (Invocation.Leaves scalarRing ⟨kHbmBase⟩) w
        (sumEpoch ++ sumEpoch) ∧
      ⟨kHbmBase⟩ ∈ w'.allocator.allocSet ∧ ¬ w'.ReadsAs scalarRing ⟨kHbmBase⟩ 5 ∧
      (hazeAdd scalarRing scalarReplies ⟨kHbmBase + 8⟩ ⟨kHbmBase⟩ ⟨kHbmBase⟩ 0 w').1.code =
        .sourceUnavailable := by
  intro w w'
  have hw : w.Stocked := World.Reachable.stocked (F := scalarRing) ⟨_, rfl⟩
  have hw' : w'.Stocked :=
    World.Reachable.stocked (F := scalarRing) (World.Reachable.runAll ⟨_, rfl⟩ _)
  rw [World.readsAs_iff hw, World.readsAs_iff hw']
  refine ⟨by decide +kernel, ?_, by decide +kernel, by decide +kernel, by decide +kernel⟩
  exact ⟨⟨by decide +kernel, nofun, .inr (by decide +kernel)⟩,
    ⟨by decide +kernel, nofun, .inr (by decide +kernel)⟩,
    ⟨by decide +kernel, nofun, .inl rfl⟩,
    ⟨by decide +kernel, nofun, .inr (by decide +kernel)⟩,
    ⟨by decide +kernel, nofun, .inr (by decide +kernel)⟩,
    ⟨by decide +kernel, nofun, .inl rfl⟩, trivial⟩

end Haze
