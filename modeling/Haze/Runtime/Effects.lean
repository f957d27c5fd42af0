import Haze.Runtime.LastWrite
import Haze.Runtime.Parameters

/-!
# What a call leaves the addresses holding

A call that succeeds and neither ends the epoch nor changes the ring dimension leaves every address
that it writes holding what it wrote last, and every other one holding what it held, whether in its
binding or in its words (`Invocation.settles`). The end of an epoch drops the bindings, so that an
address is left with its words (`held_finalized`).
-/

namespace Haze

variable {P M : Type}

open World (takePtrs outputs storedWords Replayed Readable)

/-- The polynomial of words, if they are as many as the ring dimension. -/
def inputOf (F : Fhetch P M) (n : UInt64) (words : List UInt64) : Option P :=
  if words.length = n.toNat then some (F.fromData words n) else none

/-- The polynomial that an address holds after a write. -/
def LastWrite.polynomial (F : Fhetch P M) (n : UInt64) : LastWrite P → Option P
  | .nothing => none
  | .bytes content => inputOf F n (Limbs.limbsOf content)
  | .result poly => some poly

/-- The words of an address after a write: a result leaves those that it finds, or none. -/
def LastWrite.WordsFrom (before after : Option (List UInt64)) : Option (LastWrite P) → Prop
  | some .nothing => after = none
  | some (.bytes content) => after = some (Limbs.limbsOf content)
  | _ => after = before ∨ after = none

/-- A computation, or a copy on the device. -/
def Call.Operates : Call → Prop
  | .memcpyMrp (.deviceToDevice _ _) _ _ => True
  | c => c.Computes

/-- The call neither ends the epoch nor changes the ring dimension. -/
def Call.Steady : Call → Prop
  | .flush => False
  | .writeProgram => False
  | .deviceReset => False
  | .setRingDimension _ => False
  | _ => True

/-- The action changes no binding, no words and no ring dimension. -/
def Action.Distant : Action P M → Prop
  | .epoch (.tagOutput _) => True
  | .config _ => True
  | _ => False

namespace World

section

variable {F : Fhetch P M} {env : CompilerReplies P} {w w' : World P M} {a : DevAddr}

/-- What is not bound holds its words. -/
theorem held_words_of_unbound (hw : w.Stocked) (hb : w.binding a = none) :
    w.held F a = (w.shadow a).bind (inputOf F w.config.ringDim) :=
  held_unbound hw hb

/-- What an address holds is in its binding and its words. -/
theorem held_same (hw : w.Stocked) (hw' : w'.Stocked) (hb : w'.binding a = w.binding a)
    (hs : w'.shadow a = w.shadow a) (hdim : w'.config.ringDim = w.config.ringDim) :
    w'.held F a = w.held F a := by
  rcases hbound : w.binding a with _ | poly
  · rw [held_words_of_unbound hw hbound, held_words_of_unbound hw' (hb.trans hbound), hs, hdim]
  · rw [held_bound hbound, held_bound (hb.trans hbound)]

/-- What an address was written by last is what it holds, and its words are those of the write. -/
structure Settles (F : Fhetch P M) (w : World P M) (last : Option (LastWrite P)) (a : DevAddr)
    (w' : World P M) : Prop where
  held : w'.held F a = match last with
    | some write => write.polynomial F w.config.ringDim
    | none => w.held F a
  words : LastWrite.WordsFrom (w.shadow a) (w'.shadow a) last

/-- An address whose binding and words stay. -/
theorem Settles.same (hw : w.Stocked) (hw' : w'.Stocked) (hb : w'.binding a = w.binding a)
    (hs : w'.shadow a = w.shadow a) (hdim : w'.config.ringDim = w.config.ringDim) :
    w.Settles F none a w' :=
  ⟨held_same hw hw' hb hs hdim, .inl hs⟩

/-- An address without a binding whose words were written. -/
theorem Settles.written (hw' : w'.Stocked) (hb : w'.binding a = none) {content : List UInt8}
    (hs : w'.shadow a = some (Limbs.limbsOf content))
    (hdim : w'.config.ringDim = w.config.ringDim) :
    w.Settles F (some (.bytes content)) a w' := by
  refine ⟨?_, hs⟩
  rw [held_words_of_unbound hw' hb, hs, hdim]
  rfl

/-- An address that is bound to the words that were written. -/
theorem Settles.uploaded {values : List UInt64} {content : List UInt8}
    (hs : w'.shadow a = some values) (hcontent : values = Limbs.limbsOf content)
    (hlen : values.length = w.config.ringDim.toNat)
    (hb : w'.binding a = some (F.fromData values w.config.ringDim)) :
    w.Settles F (some (.bytes content)) a w' := by
  subst hcontent
  refine ⟨?_, hs⟩
  rw [held_bound hb]
  exact (if_pos hlen).symm

/-- An address that was freed. -/
theorem Settles.freed (hb : w'.binding a = none) (hs : w'.shadow a = none) :
    w.Settles F (some .nothing) a w' :=
  ⟨held_wordless hb hs, hs⟩

/-- The writes of operations are results. -/
theorem RecordsTo.settles {looked : List DevAddr} {writes : List (DevAddr × P)}
    (h : w.RecordsTo F looked writes w') (a : DevAddr) :
    w.Settles F (Writes.last (writes.map fun write => (write.1, LastWrite.result write.2)) a) a w' := by
  rw [Writes.last_map fun _ poly => LastWrite.result poly]
  have hheld := congrFun h.held a
  have hwords : w'.shadow a = w.shadow a ∨ w'.shadow a = none := by
    rw [h.shadow]
    split_ifs
    · exact .inr rfl
    · exact .inl rfl
  rw [Writes.all_eq] at hheld
  rcases hlast : Writes.last writes a with _ | poly <;> rw [hlast] at hheld
  · exact ⟨hheld, hwords⟩
  · exact ⟨hheld, hwords⟩

/-! ## Uploads -/

/-- The residues were copied from the host, and each was bound to its words as an input. -/
structure UploadsTo (F : Fhetch P M) (w : World P M) (count : UInt64)
    (residues : List (DevAddr × Option (List UInt8))) (w' : World P M) : Prop where
  copies : w.Copies residues count
  ringDim : w'.config.ringDim = w.config.ringDim
  words : ∀ a, w'.shadow a = w.copiedWords (w.hostCopies count residues) a
  others : ∀ a, a ∉ residues.map Prod.fst →
    w'.binding a = w.binding a ∧ (a ∈ w'.epoch.inputAddrs ↔ a ∈ w.epoch.inputAddrs)
  bound : ∀ a ∈ residues.map Prod.fst, ∃ values, w'.shadow a = some values ∧
    values.length = w.config.ringDim.toNat ∧
      w'.binding a = some (F.fromData values w.config.ringDim)

/-- Tagging addresses in order leaves each of them bound to its words, and binds no other. -/
theorem tagAll_bound {addrs : List DevAddr}
    (h : Expected.forEach (tagH2dInputLocked F) addrs w = (.ok (), w')) :
    w'.allocator = w.allocator ∧ w'.config = w.config ∧
      ∀ a, (a ∉ addrs → w'.binding a = w.binding a ∧
          (a ∈ w'.epoch.inputAddrs ↔ a ∈ w.epoch.inputAddrs)) ∧
        (a ∈ addrs → ∃ values, w.shadow a = some values ∧
          values.length = w.config.ringDim.toNat ∧
            w'.binding a = some (F.fromData values w.config.ringDim)) := by
  -- By induction on the addresses; the first one whose words cannot be read ends the loop.
  induction addrs generalizing w with
  | nil =>
    cases h
    exact ⟨rfl, rfl, fun a => ⟨fun _ => ⟨rfl, Iff.rfl⟩, fun ha => absurd ha List.not_mem_nil⟩⟩
  | cons b addrs ih =>
    rw [Expected.forEach_cons] at h
    rcases hc : DeviceAllocator.components b w.config.ringDim w.allocator with e | values
    · obtain ⟨e', hfails⟩ := tagH2dInput_fails (F := F) hc
      rw [Expected.bind_run_error hfails] at h
      cases h
    rw [Expected.bind_run_ok (tagH2dInput_binds hc)] at h
    obtain ⟨hallocator, hconfig, hrest⟩ := ih h
    refine ⟨hallocator, hconfig, fun a => ⟨fun ha => ?_, fun ha => ?_⟩⟩
    -- An address that is not listed keeps its binding.
    · rw [List.mem_cons, not_or] at ha
      obtain ⟨hbinding, hinput⟩ := (hrest a).1 ha.2
      refine ⟨hbinding.trans (AList.lookup_insert_ne ha.1), hinput.trans ?_⟩
      exact Finset.mem_insert.trans (or_iff_right ha.1)
    -- A listed one is bound to its words by its last occurrence.
    · by_cases hmem : a ∈ addrs
      · exact (hrest a).2 hmem
      · obtain rfl := (List.mem_cons.mp ha).resolve_right hmem
        obtain ⟨-, -, hs, hlen⟩ := components_ok hc
        exact ⟨values, hs, hlen, ((hrest a).1 hmem).1.trans (AList.lookup_insert _)⟩

/-- A copy of several residues from the host that succeeds uploads them all. -/
theorem copyH2dMrp_uploadsTo (hw : w.Reachable F) (env : CompilerReplies P) {dst : List DevAddr}
    {src : List (Option (List UInt8))} {count : UInt64} {len : ℕ}
    (h : copyH2dMrp F env dst src count len w = (.ok (), w')) :
    w.UploadsTo F count ((takePtrs len dst).zip (src.takeD len none)) w' := by
  have hkeys : ((takePtrs len dst).zip (src.takeD len none)).map Prod.fst = takePtrs len dst :=
    List.map_fst_zip (by rw [length_takePtrs, List.takeD_length])
  have hcopied := (copyH2dMrp_copies hw env dst src count len).1
  rw [h] at hcopied
  -- The words are those of the copies, and the tags bind what was copied.
  obtain ⟨s, hs, hok⟩ := copyH2dAll_run count ((takePtrs len dst).zip (src.takeD len none)) w
  unfold copyH2dMrp at h
  rcases hcopy : (Expected.forEach (fun r => onAllocator (DeviceAllocator.copyH2d r.1 r.2 count))
    ((takePtrs len dst).zip (src.takeD len none)) w : _ × World P M) with ⟨e | ⟨⟩, u⟩
  · rw [Expected.bind_run_error hcopy] at h
    cases h
  rw [hcopy] at hs hok
  change u = _ at hs
  subst hs
  rw [Expected.bind_run_ok hcopy] at h
  change Expected.forEach (tagH2dInputLocked F) (takePtrs len dst)
    (World.act F { w with allocator := s } (.session env)) = _ at h
  obtain ⟨hallocator, hconfig, htagged⟩ := tagAll_bound h
  obtain ⟨recording, initialized, cs, -, hsession⟩ :=
    session_frame (F := F) env { w with allocator := s }
  rw [hsession] at hallocator hconfig htagged
  refine ⟨hok.mp rfl, congrArg _ hconfig, hcopied, fun a ha => ?_, fun a ha => ?_⟩
  · rw [hkeys] at ha
    exact (htagged a).1 ha
  · rw [hkeys] at ha
    obtain ⟨values, hvalues, hlen, hbound⟩ := (htagged a).2 ha
    refine ⟨values, ?_, hlen, hbound⟩
    rw [World.shadow, hallocator]
    exact hvalues

/-- An upload leaves the addresses with the bytes that were copied to them last. -/
theorem UploadsTo.settles {count : UInt64} {residues : List (DevAddr × Option (List UInt8))}
    (h : w.UploadsTo F count residues w') (hw : w.Stocked) (hw' : w'.Stocked) (a : DevAddr) :
    w.Settles F (Writes.last (w.hostWrites (w.hostCopies count residues)) a) a w' := by
  have hkeys := map_fst_hostCopies h.copies
  unfold hostWrites
  rw [Writes.last_map fun a bytes => LastWrite.bytes (w.overwritten a bytes)]
  have hwords := h.words a
  rw [copiedWords] at hwords
  rcases hlast : Writes.last (w.hostCopies count residues) a with _ | bytes <;> rw [hlast] at hwords
  · have ha := Writes.last_eq_none.mp hlast
    rw [hkeys] at ha
    exact .same hw hw' (h.others a ha).1 hwords h.ringDim
  · have ha : a ∈ residues.map Prod.fst := by
      by_contra hnot
      rw [Writes.last_eq_none.mpr (hkeys ▸ hnot)] at hlast
      cases hlast
    obtain ⟨values, hvalues, hlen, hbound⟩ := h.bound a ha
    exact .uploaded hvalues (Option.some.inj (hvalues.symm.trans hwords)) hlen hbound

/-! ## Other calls -/

/-- A call of such actions leaves what every address has. -/
theorem Steps.distant {C : Action P M → Prop} (h : Steps F C w w') (hC : ∀ x, C x → x.Distant) :
    w'.binding = w.binding ∧ w'.shadow = w.shadow ∧ w'.config.ringDim = w.config.ringDim := by
  refine h.preserves (I := fun v => v.binding = w.binding ∧ v.shadow = w.shadow ∧
    v.config.ringDim = w.config.ringDim) (fun v x hx hv => ?_) ⟨rfl, rfl, rfl⟩
  have hdistant := hC x hx.1
  cases x with
  | epoch x =>
    cases x with
    | tagOutput b =>
      refine ⟨(funext fun a => ?_).trans hv.1, hv.2⟩
      exact binding_act (F := F) v (.epoch (.tagOutput b)) a
    | _ => exact hdistant.elim
  | config c => exact ⟨hv.1, hv.2.1, hx.2.trans hv.2.2⟩
  | _ => exact hdistant.elim

/-- A set leaves the address with its words, and the others as they were. -/
theorem memset_settles (hw : w.Inv) (hstocked : w.Stocked) (env : CompilerReplies P)
    {devPtr : DevAddr} {value : ℤ} {count : UInt64}
    (hw' : (w.after F ⟨env, .memset devPtr value count⟩).Stocked)
    (hsuccess : ((Call.memset devPtr value count).run F env w).1.code = .success) (a : DevAddr) :
    w.Settles F (Writes.last ((Call.memset devPtr value count).written F env w) a) a
      (w.after F ⟨env, .memset devPtr value count⟩) := by
  have hrun := memset_run (F := F) env devPtr value count w
  -- A null pointer and a range that is too long are refused.
  by_cases hnull : devPtr = .null
  · rw [if_pos hnull] at hrun
    rw [hrun] at hsuccess
    cases hsuccess
  rw [if_neg hnull] at hrun
  rcases hc : w.allocator.checkRange devPtr count with e | ⟨⟩ <;> rw [hc] at hrun
  · rw [hrun] at hsuccess
    exact absurd hsuccess (toPublicError_ne_success e)
  have hafter : w.after F ⟨env, .memset devPtr value count⟩ = _ := congrArg Prod.snd hrun
  have hforgets := hw.epoch.consistent.invalidate_forgets devPtr
  -- The only address that is written is the one that was cleared.
  have hlast : Writes.last ((Call.memset devPtr value count).written F env w) a =
      if a = devPtr then some (.bytes (w.overwritten devPtr
        (List.replicate count.toNat (UInt8.ofInt value)))) else none :=
    (Writes.last_cons ..).trans (Option.none_or ..)
  rw [hlast]
  rw [hafter] at hw' ⊢
  split_ifs with ha
  · subst ha
    exact .written hw' (UMap.notMem_iff_lookup.mp hforgets.gone.1)
      (UMap.lookup_insert_ite.trans (if_pos rfl)) rfl
  · exact .same hstocked hw' (hforgets.others a ha).1
      (UMap.lookup_insert_ite.trans (if_neg ha)) rfl

/-- Addresses that are freed have nothing left, and the others what they had. -/
theorem freeing_settles (hw : w.Stocked) (addrs : List DevAddr) (hinv : (w.freeing addrs).Inv)
    (hw' : (w.freeing addrs).Stocked) (a : DevAddr) :
    w.Settles F (Writes.last ((addrs.filter (· ≠ .null)).map (·, LastWrite.nothing)) a) a
      (w.freeing addrs) := by
  -- The invalidations take the bindings of the listed addresses away, and no others.
  have hbinding : (w.freeing addrs).binding a =
      if a ∈ addrs.filter (· ≠ .null) then none else w.binding a := by
    change AList.lookup a ((addrs.filter (· ≠ .null)).foldl (fun s b => s.invalidate b)
      w.epoch).polyMap = if _ then none else AList.lookup a w.epoch.polyMap
    generalize addrs.filter (· ≠ .null) = bs
    generalize w.epoch = s
    induction bs generalizing s with
    | nil => rfl
    | cons b bs ih =>
      have hone := lookup_epoch_act s (.invalidate b) a
      change AList.lookup a (s.invalidate b).polyMap = if a = b then none else _ at hone
      rw [List.foldl_cons, ih, hone]
      by_cases hab : a = b <;> simp [hab]
  rw [Writes.last_const]
  split_ifs with ha
  -- The free takes their words, since they are not live any more.
  · refine .freed (hbinding.trans (if_pos ha)) ?_
    by_contra hs
    obtain ⟨words, hs⟩ := Option.ne_none_iff_exists'.mp hs
    obtain ⟨hmem, hnull⟩ := List.mem_filter.mp ha
    exact DeviceAllocator.freeEach_dead _ (.inr ⟨hmem, of_decide_eq_true hnull⟩)
      (hinv.live_of_shadow hs)
  · exact .same hw hw' (hbinding.trans (if_neg ha)) (DeviceAllocator.shadow_freeEach _ ha) rfl

end

end World

section

variable {F : Fhetch P M} {w : World P M}

/-- An operation succeeds exactly when it can be evaluated on what the addresses hold, and then
records the writes of the evaluation. -/
theorem Call.run_operates (F : Fhetch P M) (env : CompilerReplies P) {c : Call} (hc : c.Operates)
    (hw : w.Stocked) :
    ((c.run F env w).1.code = .success ↔ (c.eval F w.config (w.held F)).isSome) ∧
      ∀ writes, c.eval F w.config (w.held F) = some writes →
        w.RecordsTo F (c.looked F w.config (w.held F)) writes (c.run F env w).2 := by
  have hcomputed : c.Computes → _ := fun hc => Call.run_computed F env hc hw
  have hrecords : ∀ {looked : List DevAddr} {stored : List (DevAddr × P)} {w' : World P M},
      w.RecordsTo F looked stored w' →
      (∀ writes, c.eval F w.config (w.held F) = some writes → stored = writes) →
      ∀ writes, c.eval F w.config (w.held F) = some writes → w.RecordsTo F looked writes w' :=
    fun h hstored writes heval => hstored writes heval ▸ h
  cases c with
  | memcpyMrp transfer count base =>
    -- A copy of several residues is a loop, and not a computation from values read first.
    cases transfer with
    | deviceToDevice dst src =>
      have hrejected : ∀ {c : Call}, c.run F env w = (.setError .invalidValue, w) →
          c.eval F w.config (w.held F) = none →
          ((c.run F env w).1.code = .success ↔ (c.eval F w.config (w.held F)).isSome) ∧
            ∀ writes, c.eval F w.config (w.held F) = some writes →
              w.RecordsTo F (c.looked F w.config (w.held F)) writes (c.run F env w).2 := by
        intro c hrun hnone
        rw [hrun, hnone]
        exact ⟨iff_of_false nofun nofun, nofun⟩
      rcases dst with _ | dst
      · exact hrejected rfl rfl
      rcases src with _ | src
      · exact hrejected rfl rfl
      rcases base with _ | base
      · exact hrejected rfl rfl
      obtain ⟨hstores, hcode, hstored⟩ := Call.run_copied F env dst src count base hw
      exact ⟨hcode, hrecords hstores hstored⟩
    | _ => exact hc.elim
  | _ =>
    obtain ⟨hstores, hcode⟩ := hcomputed hc
    refine ⟨hcode, hrecords hstores fun writes heval => ?_⟩
    rw [heval]
    rfl

/-- A copy of one residue from the host that succeeds. -/
theorem memcpy_uploads (hw : w.Reachable F) (env : CompilerReplies P) {dst : DevAddr}
    {src : Option (List UInt8)} {count : UInt64}
    (hsuccess : ((Call.memcpy (.hostToDevice dst src) count).run F env w).1.code = .success) :
    w.UploadsTo F count [(dst, src)]
      (w.after F ⟨env, .memcpy (.hostToDevice dst src) count⟩) := by
  have hrej : (dst == .null || src == none) = false := by
    rw [← Bool.not_eq_true]
    intro hrej
    change (Shim.guarded (dst == .null || src == none) _ w).1.code = .success at hsuccess
    rw [hrej] at hsuccess
    cases hsuccess
  have hone : (Call.memcpy (.hostToDevice dst src) count).run F env w = _ :=
    memcpy_run_one hrej count
  obtain ⟨⟨⟩, hok⟩ := Shim.replyWith_success ((congrArg (·.1.code) hone).symm.trans hsuccess)
  have hstate : w.after F ⟨env, .memcpy (.hostToDevice dst src) count⟩ = _ :=
    (congrArg Prod.snd hone).trans (Shim.replyWith_state ..)
  rw [hstate]
  have huploads : w.UploadsTo F count ((takePtrs 1 [dst]).zip ([src].takeD 1 none)) _ :=
    World.copyH2dMrp_uploadsTo hw env (Prod.ext hok rfl)
  exact huploads

/-- A copy of several residues from the host that succeeds. -/
theorem memcpyMrp_uploads (hw : w.Reachable F) (env : CompilerReplies P) {dst : List DevAddr}
    {src : List (Option (List UInt8))} {count : UInt64} {base : List UInt64}
    (hsuccess : ((Call.memcpyMrp (.hostToDevice (some dst) (some src)) count (some base)).run F env
      w).1.code = .success) :
    w.UploadsTo F count ((takePtrs base.length dst).zip (src.takeD base.length none))
      (w.after F ⟨env, .memcpyMrp (.hostToDevice (some dst) (some src)) count (some base)⟩) := by
  have hcall : (Call.memcpyMrp (.hostToDevice (some dst) (some src)) count (some base)).run F env w =
      Shim.setInternalResult (World.copyH2dMrp F env dst src count base.length) w :=
    Shim.guarded_success hsuccess
  obtain ⟨⟨⟩, hok⟩ := Shim.replyWith_success ((congrArg (·.1.code) hcall).symm.trans hsuccess)
  have hstate : w.after F
      ⟨env, .memcpyMrp (.hostToDevice (some dst) (some src)) count (some base)⟩ = _ :=
    (congrArg Prod.snd hcall).trans (Shim.replyWith_state ..)
  rw [hstate]
  exact World.copyH2dMrp_uploadsTo hw env (Prod.ext hok rfl)

/-- A call that succeeds leaves what it wrote, and everything else as it was. -/
theorem Invocation.settles (hw : w.Reachable F) (i : Invocation P) (hsteady : i.call.Steady)
    (hsuccess : (i.run F w).1.code = .success) (a : DevAddr) :
    w.Settles F (Writes.last (i.call.written F i.env w) a) a (w.after F i) := by
  obtain ⟨env, c⟩ := i
  have hstocked := hw.stocked
  have hafter := (hw.after ⟨env, c⟩).stocked
  have hsteps := Call.performs (F := F) env c w
  -- The operations write what they evaluate to.
  have hoperates : c.Operates → (c.written F env w = ((c.eval F w.config (w.held F)).getD []).map
      fun write => (write.1, .result write.2)) →
      w.Settles F (Writes.last (c.written F env w) a) a (w.after F ⟨env, c⟩) := by
    intro hc hwritten
    obtain ⟨hcode, hrecords⟩ := Call.run_operates F env hc hstocked
    obtain ⟨writes, heval⟩ := Option.isSome_iff_exists.mp (hcode.mp hsuccess)
    rw [hwritten, heval]
    exact (hrecords writes heval).settles a
  -- The calls that touch neither a binding nor words.
  have hdistant : (∀ x, c.Acts F (· ∈ w.epoch.pendingOutputs) x → x.Distant) →
      c.written F env w = [] →
      w.Settles F (Writes.last (c.written F env w) a) a (w.after F ⟨env, c⟩) := by
    intro hacts hwritten
    obtain ⟨hb, hs, hdim⟩ := hsteps.distant hacts
    rw [hwritten]
    exact .same hstocked hafter (congrFun hb a) (congrFun hs a) hdim
  -- An allocation keeps both, whatever it hands out.
  have hallocates : c.HandsOut → c.written F env w = [] →
      w.Settles F (Writes.last (c.written F env w) a) a (w.after F ⟨env, c⟩) := by
    intro hc hwritten
    obtain ⟨-, hshadow, hepoch, hconfig⟩ :=
      handedOut_fresh (F := F) hw.inv (i := (⟨env, c⟩ : Invocation P)) hc
    rw [hwritten]
    refine .same hstocked hafter ?_ (congrArg (AList.lookup a) hshadow) (congrArg _ hconfig)
    exact congrArg (fun s : EpochState P => AList.lookup a s.polyMap) hepoch
  -- The calls are then of one of these kinds, or write words.
  cases c with
  | pp op dst src1 src2 modIdx => exact hoperates trivial rfl
  | ps op dst src scalar modIdx => exact hoperates trivial rfl
  | transform op dst src modIdx => exact hoperates trivial rfl
  | automorph dst src index => exact hoperates trivial rfl
  | ppMrp op dst src1 src2 base => exact hoperates trivial rfl
  | psMrp op dst src scalars base => exact hoperates trivial rfl
  | transformMrp op dst src base => exact hoperates trivial rfl
  | indexMrp op dst src index base => exact hoperates trivial rfl
  | basisConvert dst src params => exact hoperates trivial rfl
  | modDown dst src params => exact hoperates trivial rfl
  | modUp dst src params => exact hoperates trivial rfl
  | memcpy transfer count =>
    cases transfer with
    | hostToDevice dst src =>
      exact (memcpy_uploads hw env hsuccess).settles hstocked hafter a
    | deviceToHost dst src => exact hdistant (fun x hx => hx.elim) rfl
    | deviceToDevice dst src => exact hoperates trivial rfl
    | unknownKind => exact hdistant (fun x hx => hx.elim) rfl
  | memcpyMrp transfer count base =>
    cases transfer with
    | hostToDevice dst src =>
      rcases dst with _ | dst
      · cases hsuccess
      rcases src with _ | src
      · cases hsuccess
      rcases base with _ | base
      · cases hsuccess
      exact (memcpyMrp_uploads hw env hsuccess).settles hstocked hafter a
    | deviceToHost dst src => exact hdistant (fun x hx => hx.elim) rfl
    | deviceToDevice dst src =>
      refine hoperates trivial ?_
      rcases dst with _ | dst <;> rcases src with _ | src <;> rcases base with _ | base <;> rfl
    | unknownKind => exact hdistant (fun x hx => hx.elim) rfl
  | memset devPtr value count => exact World.memset_settles hw.inv hstocked env hafter hsuccess a
  | malloc ptr size => exact hallocates trivial rfl
  | mallocMrp ptrs count size => exact hallocates trivial rfl
  | free ptr =>
    have hstate : w.after F ⟨env, .free ptr⟩ = w.freeing [ptr] := free_run env ptr w
    have hinv := hw.inv.after (F := F) ⟨env, .free ptr⟩
    rw [hstate] at hinv hafter ⊢
    exact World.freeing_settles hstocked [ptr] hinv hafter a
  | freeMrp ptrs count =>
    rcases ptrs with _ | ptrs
    · cases hsuccess
    have hstate : w.after F ⟨env, .freeMrp (some ptrs) count⟩ =
        w.freeing (takePtrs count.toNat ptrs) := freeMrp_run env hsuccess
    have hinv := hw.inv.after (F := F) ⟨env, .freeMrp (some ptrs) count⟩
    rw [hstate] at hinv hafter ⊢
    exact World.freeing_settles hstocked _ hinv hafter a
  | tagOutput ptr =>
    refine hdistant (fun x hx => ?_) rfl
    rw [show x = _ from hx]
    trivial
  | config call =>
    refine hdistant (fun x hx => ?_) rfl
    obtain ⟨c, rfl⟩ := hx
    trivial
  | _ => exact hsteady.elim

/-! ## The end of an epoch -/

/-- The words that a call leaves when it ends the epoch: a flush reads the outputs back. -/
def Call.leftWords (env : CompilerReplies P) (w : World P M) : Call → DevAddr → Option (List UInt64)
  | .flush => fun a =>
    ((AList.lookup a w.epoch.pendingOutputs).map fun name => storedWords env w ⟨a, name⟩).or
      (w.shadow a)
  | _ => w.shadow

/-- Nothing is bound any more. -/
structure World.EndsWith (w : World P M) (words : DevAddr → Option (List UInt64))
    (w' : World P M) : Prop where
  epoch : w'.epoch = .init
  config : w'.config = w.config
  shadow : ∀ a, w'.shadow a = words a

namespace World

/-- A flush that succeeds is a finalization that does. -/
theorem flush_finalize {env : CompilerReplies P}
    (hsuccess : (hazeFlush F env w).1.code = .success) :
    finalizeLocked F env true w = (.ok (), (hazeFlush F env w).2) := by
  rcases hformat : w.config.unsupportedDataFormat
  · have hrun : hazeFlush F env w = _ := hazeFlush_run hformat
    obtain ⟨⟨⟩, hok⟩ := Shim.replyWith_success ((congrArg (·.1.code) hrun).symm.trans hsuccess)
    refine Prod.ext hok ?_
    exact ((congrArg Prod.snd hrun).trans (Shim.replyWith_state ..)).symm
  · have hfails : flush F env w = (.error .unsupportedDataFormat, w) := by
      unfold flush
      rw [Expected.get_bind_run, hformat]
      rfl
    unfold hazeFlush Shim.setInternalResult Shim.replyWith at hsuccess
    rw [hfails] at hsuccess
    cases hsuccess

/-- A flush of a recorded epoch that succeeds leaves the words that it reads back. -/
theorem flush_ends (hw : w.Reachable F) {env : CompilerReplies P}
    (hrec : w.epoch.recording = true) (hsuccess : (hazeFlush F env w).1.code = .success) :
    w.EndsWith (Call.flush.leftWords env w) (hazeFlush F env w).2 := by
  obtain ⟨-, hallocator, hepoch, hconfig, -⟩ :=
    finalize_ok hw.inv.epoch.consistent hw.captured hrec (flush_finalize hsuccess)
  refine ⟨hepoch, hconfig, fun a => ?_⟩
  rw [World.shadow, hallocator]
  change _ = ((AList.lookup a w.epoch.pendingOutputs).map fun name =>
    storedWords env w ⟨a, name⟩).or (w.shadow a)
  rcases ha : AList.lookup a w.epoch.pendingOutputs with _ | name
  · refine shadow_populated_of_notMem fun entry hentry heq => ?_
    rw [mem_outputs, ← heq, ha] at hentry
    cases hentry
  · have hentry : (⟨a, name⟩ : Sigma fun _ : DevAddr => ProbeName) ∈ outputs env w :=
      mem_outputs.mpr ha
    exact shadow_populated_of_mem (outputs_keys_nodup env w) hentry

/-- Writing the program of a recorded epoch leaves the words. -/
theorem writeProgram_ends (hw : w.Inv) {env : CompilerReplies P}
    (hrec : w.epoch.recording = true) :
    w.EndsWith (Call.writeProgram.leftWords env w) (w.after F ⟨env, .writeProgram⟩) := by
  obtain ⟨v, -, hends, -, -⟩ := finalize_ends (F := F) env false hw.epoch.consistent hrec
  have hstate : w.after F ⟨env, .writeProgram⟩ = (finalizeLocked F env false w).2 :=
    Shim.replyWith_state _ (finalizeLocked F env false) w
  refine ⟨?_, (config_after (i := ⟨env, .writeProgram⟩) id (by rintro ⟨⟩) w).1, fun a => ?_⟩
  · rw [hstate, hends]
    rfl
  · exact congrArg (DeviceAllocator.shadow · a) (writeProgram_allocator hw)

/-- At the end of an epoch an address is left with the polynomial of its words. -/
theorem EndsWith.held {words : DevAddr → Option (List UInt64)} {w' : World P M}
    (h : w.EndsWith words w') (hw' : w'.Stocked) (a : DevAddr) :
    w'.held F a = (words a).bind (inputOf F w.config.ringDim) := by
  have hb : w'.binding a = none := by
    unfold binding
    rw [h.epoch]
    rfl
  rw [held_words_of_unbound hw' hb, h.shadow, h.config]

/-- Where nothing is recorded, the end of an epoch changes nothing. -/
theorem after_idle {i : Invocation P} (hcall : i.call = .flush ∨ i.call = .writeProgram)
    (hrec : w.epoch.recording = false) : w.after F i = w := by
  obtain ⟨env, c⟩ := i
  rcases hcall with rfl | rfl
  · change (Shim.replyWith _ (World.flush F env) w).2 = w
    rw [Shim.replyWith_state]
    unfold World.flush
    rw [Expected.get_bind_run]
    split_ifs
    · rfl
    · rw [finalize_idle true hrec]
  · change (Shim.replyWith _ (finalizeLocked F env false) w).2 = w
    rw [Shim.replyWith_state, finalize_idle false hrec]

end World

end

end Haze
