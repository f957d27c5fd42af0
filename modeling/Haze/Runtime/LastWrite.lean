import Haze.Allocation.Recycle
import Haze.Epoch.Invalidation
import Haze.Runtime.Copies
import Haze.Runtime.Readback

/-!
# The last write of an address

What an address was last written by: bytes of the host or of an output that was read back, or the
result of an operation, which has no bytes until a flush reads it back. The words of an address are
never compared with its binding, so that a result that is stored over words leaves them, and a copy
to the host returns bytes that were written before it.

`World.Tracks` says that the words of every address are its last write's. A call keeps it when it
stores no result over words, and when it either succeeds or writes nothing
(`Invocation.KeepsCurrent`). In a run of such calls a copy to the host returns what was written last
or is refused (`copies_lastWrite`).
-/

namespace Haze

variable {P M : Type}

open World (takePtrs outputs storedWords storedOutputs Replayed Readable)

/-- What was written last to an address. -/
inductive LastWrite (P : Type) where
  /-- Nothing since it was freed. -/
  | nothing
  /-- Bytes of the host, or of an output that was read back. -/
  | bytes (content : List UInt8)
  /-- The result of an operation. -/
  | result (poly : P)
deriving DecidableEq, Repr

/-- What a write of the first bytes of an address leaves there: the bytes behind them are those that
it had, or zeros. -/
def World.overwritten (w : World P M) (a : DevAddr) (src : List UInt8) : List UInt8 :=
  src ++ (Limbs.bytesOf (w.allocator.sizedShadow a)).drop src.length

section

variable (F : Fhetch P M) (env : CompilerReplies P)

/-- The bytes that copies from the host leave, in order. -/
def World.hostWrites (w : World P M) (copies : List (DevAddr × List UInt8)) :
    List (DevAddr × LastWrite P) :=
  copies.map fun copy => (copy.1, .bytes (w.overwritten copy.1 copy.2))

/-- What a call writes when it succeeds, in order. -/
def Call.written (w : World P M) : Call → List (DevAddr × LastWrite P)
  | .free ptr => ([ptr].filter (· ≠ .null)).map (·, .nothing)
  | .freeMrp (some ptrs) count => ((takePtrs count.toNat ptrs).filter (· ≠ .null)).map (·, .nothing)
  | .memcpy (.hostToDevice dst src) count =>
    w.hostWrites (w.hostCopies count [(dst, src)])
  | .memcpyMrp (.hostToDevice (some dst) (some src)) count (some base) =>
    w.hostWrites
      (w.hostCopies count ((takePtrs base.length dst).zip (src.takeD base.length none)))
  | .memset devPtr value count =>
    w.hostWrites [(devPtr, List.replicate count.toNat (UInt8.ofInt value))]
  | .flush => if w.epoch.recording then
      (outputs env w).map fun entry =>
        (entry.1, .bytes (Limbs.bytesOf (storedWords env w entry)))
    else []
  | c => ((c.eval F w.config (w.held F)).getD []).map fun write => (write.1, .result write.2)

/-- What the addresses were written by after a call. A call that fails is no write. -/
def LastWrite.after (w : World P M) (m : DevAddr → LastWrite P) (i : Invocation P) :
    DevAddr → LastWrite P :=
  if (i.run F w).1.code = .success then
    match i.call with
    | .deviceReset => fun _ => .nothing
    | c => fun a => (Writes.last (c.written F i.env w) a).getD (m a)
  else m

/-- What the addresses were written by after a program. -/
def LastWrite.runAll : World P M → (DevAddr → LastWrite P) → List (Invocation P) →
    DevAddr → LastWrite P
  | _, m, [] => m
  | w, m, i :: is => runAll (w.after F i) (LastWrite.after F w m i) is

/-- The results that a call binds, whether it succeeds or fails. -/
def Call.stored (c : Config) (v : DevAddr → Option P) : Call → List (DevAddr × P)
  | .memcpyMrp (.deviceToDevice (some dst) (some src)) _ (some base) =>
    if base = [] then []
    else copiesMade F v ((takePtrs base.length dst).zip (takePtrs base.length src))
  | call => (call.eval F c v).getD []

/-- A copy from the host copies every residue, or none. -/
def World.CopiesWhole (w : World P M) (count : UInt64)
    (residues : List (DevAddr × Option (List UInt8))) : Prop :=
  w.hostCopies count residues = [] ∨
    w.Copies residues count ∧ w.config.ringDim.toNat < 2^61

/-- A call leaves no bytes that are not the last write's. A copy from the host copies all or
nothing, and so does a flush that reads outputs back. An operation that fails has bound nothing, and
a destination of one has no words, unless the operation takes them as a source's first. -/
def Invocation.KeepsCurrent (w : World P M) (i : Invocation P) : Prop :=
  match i.call with
  | .memcpy (.hostToDevice dst src) count => w.CopiesWhole count [(dst, src)]
  | .memcpyMrp (.hostToDevice (some dst) (some src)) count (some base) =>
    w.CopiesWhole count ((takePtrs base.length dst).zip (src.takeD base.length none))
  | .flush => Replayed i.env w → (∀ entry ∈ outputs i.env w, Readable i.env w entry) ∨
      storedOutputs i.env w = []
  | c =>
    (c.eval F w.config (w.held F) = none → c.stored F w.config (w.held F) = []) ∧
      ∀ d ∈ (c.stored F w.config (w.held F)).map Prod.fst,
        w.shadow d = none ∨ w.binding d = none ∧ d ∈ c.looked F w.config (w.held F)

end

namespace Action

/-- The action writes no words. -/
def Wordless : Action P M → Prop
  | .allocator (.write _ _) => False
  | _ => True

/-- The action binds no address. -/
def Unbinding : Action P M → Prop
  | .epoch (.bindInput _ _) => False
  | .epoch (.store _ _ _) => False
  | .promote _ => False
  | _ => True

end Action

namespace World

/-- The words of an address are those of its last write, and a result is bound or lost. -/
structure Tracks (w : World P M) (m : DevAddr → LastWrite P) : Prop where
  words : ∀ a words, w.shadow a = some words → m a = .bytes (Limbs.bytesOf words)
  bound : ∀ a poly poly', m a = .result poly → w.binding a = some poly' → poly' = poly

section

variable {F : Fhetch P M} {env : CompilerReplies P} {w w' : World P M} {m : DevAddr → LastWrite P}

/-- Words that are copied to the host are those of a live address. -/
theorem copyToHost_ok {dst : Bool} {a : DevAddr} {count : UInt64} {s : DeviceAllocator}
    {bytes : List UInt8} (h : DeviceAllocator.copyToHost dst a count s = .ok bytes) :
    ∃ words, s.shadow a = some words ∧ bytes = (Limbs.bytesOf words).takeD count.toNat 0 := by
  unfold DeviceAllocator.copyToHost at h
  split_ifs at h
  rcases hc : DeviceAllocator.checkRange a count s with e | ⟨⟩ <;> rw [hc] at h
  · cases h
  rcases hs : s.shadow a with _ | words <;> rw [hs] at h
  · cases h
  · exact ⟨words, rfl, (Except.ok.inj h).symm⟩

/-- The reply of a copy to the host. -/
theorem memcpy_toHost (env : CompilerReplies P) (a : DevAddr) (count : UInt64) (w : World P M) :
    (hazeMemcpy F env (.deviceToHost true a) count w).1 = if a = .null then .setError .invalidValue
      else match DeviceAllocator.copyToHost true a count w.allocator with
        | .ok bytes => { Reply.setError .success with bytes := [bytes] }
        | .error e => .setError (toPublicError e) := by
  by_cases ha : a = .null
  · rw [if_pos ha, ha]
    rfl
  rw [if_neg ha]
  change (Shim.guarded (a == .null) _ w).1 = _
  rw [beq_eq_false_iff_ne.mpr ha]
  change (Shim.replyWith _ _ w).1 = _
  unfold Shim.replyWith onAllocator
  rw [Expected.zoom_run, Expected.query_run]
  rcases DeviceAllocator.copyToHost true a count w.allocator with e | bytes <;> rfl

/-- No words and no bindings are new. -/
structure Fades (w w' : World P M) : Prop where
  words : ∀ a words, w'.shadow a = some words → w.shadow a = some words
  binding : ∀ a poly, w'.binding a = some poly → w.binding a = some poly

/-- What fades is tracked. -/
theorem Tracks.fades (h : w.Tracks m) (hfades : w.Fades w') : w'.Tracks m where
  words a words hs := h.words a words (hfades.words a words hs)
  bound a poly poly' hm hb := h.bound a poly poly' hm (hfades.binding a poly' hb)

/-- An action that writes no words leaves no new ones. -/
theorem wordless_act {x : Action P M} (hx : x.Wordless) {a : DevAddr} {words : List UInt64}
    (hs : (w.act F x).shadow a = some words) : w.shadow a = some words := by
  -- Words disappear, or stay what they were.
  cases x with
  | allocator x =>
    change (w.allocator.act x).shadow a = some words at hs
    rw [shadow_allocator_act] at hs
    cases x with
    | write b values => exact hx.elim
    | evict b =>
      dsimp only at hs
      split_ifs at hs
      exact hs
    | freeOne b =>
      dsimp only at hs
      split_ifs at hs
      exact hs
    | allocateOne => exact hs
  -- A promotion takes the words of its own address.
  | promote b =>
    change (w.allocator.act (.evict b)).shadow a = some words at hs
    rw [shadow_allocator_act] at hs
    dsimp only at hs
    split_ifs at hs
    exact hs
  | ringDimension n =>
    change (w.allocator.setPolynomialSize (n * 8)).shadow a = some words at hs
    rcases w.allocator.setPolynomialSize_cases (n * 8) with ⟨-, he⟩ | ⟨-, he⟩
    · rw [he] at hs
      exact hs
    -- A change of the size takes those of the free addresses.
    · rw [he] at hs
      change AList.lookup a (UMap.eraseAll w.allocator.poolFree w.allocator.shadowData) =
        some words at hs
      rw [UMap.lookup_eraseAll] at hs
      split_ifs at hs
      exact hs
  | session env =>
    obtain ⟨_, _, _, -, he⟩ := session_frame (F := F) env w
    rw [he] at hs
    exact hs
  | reset => exact nomatch hs
  | _ => exact hs

/-- An action that binds nothing leaves no new binding. -/
theorem unbinding_act {x : Action P M} (hx : x.Unbinding) {a : DevAddr} {poly : P}
    (hb : (w.act F x).binding a = some poly) : w.binding a = some poly := by
  rw [binding_act] at hb
  cases x with
  | epoch x =>
    cases x with
    | bindInput b value => exact hx.elim
    | store b value q => exact hx.elim
    | invalidate b =>
      dsimp only at hb
      split_ifs at hb
      exact hb
    | clear => cases hb
    | _ => exact hb
  | promote b => exact hx.elim
  | clearState => cases hb
  | reset => cases hb
  | _ => exact hb

/-- A call whose actions write no words leaves no new ones. -/
theorem Steps.wordless {C : Action P M → Prop} (h : Steps F C w w') (hC : ∀ x, C x → x.Wordless)
    (a : DevAddr) (words : List UInt64) (hs : w'.shadow a = some words) :
    w.shadow a = some words :=
  h.preserves (I := fun v => v.shadow a = some words → w.shadow a = some words)
    (fun _ x hx hv hact => hv (wordless_act (hC x hx.1) hact)) id hs

/-- A call whose actions bind nothing leaves no new binding. -/
theorem Steps.unbinding {C : Action P M → Prop} (h : Steps F C w w')
    (hC : ∀ x, C x → x.Unbinding) (a : DevAddr) (poly : P) (hb : w'.binding a = some poly) :
    w.binding a = some poly :=
  h.preserves (I := fun v => v.binding a = some poly → w.binding a = some poly)
    (fun _ x hx hv hact => hv (unbinding_act (hC x hx.1) hact)) id hb

/-- A call whose actions neither write words nor bind. -/
theorem Steps.fades {C : Action P M → Prop} (h : Steps F C w w')
    (hC : ∀ x, C x → x.Wordless ∧ x.Unbinding) : w.Fades w' :=
  ⟨h.wordless fun x hx => (hC x hx).1, h.unbinding fun x hx => (hC x hx).2⟩

/-- Addresses without words are written by nothing. -/
theorem Tracks.forgets (h : w.Tracks m) {addrs : List DevAddr}
    (hgone : ∀ a ∈ addrs, w.shadow a = none) :
    w.Tracks fun a => (Writes.last (addrs.map (·, .nothing)) a).getD (m a) := by
  have hlast : ∀ a, (Writes.last (addrs.map (·, LastWrite.nothing)) a).getD (m a) =
      if a ∈ addrs then .nothing else m a := by
    intro a
    rw [Writes.last_const]
    split_ifs <;> rfl
  simp only [hlast]
  refine ⟨fun a words hs => ?_, fun a poly poly' hm hb => ?_⟩
  · rw [if_neg fun ha => Option.some_ne_none words (hs.symm.trans (hgone a ha))]
    exact h.words a words hs
  · split_ifs at hm
    exact h.bound a poly poly' hm hb

/-! ## Operations -/

/-- Results that are stored where there are no words are what is written last. -/
theorem Tracks.records (h : w.Tracks m) {looked : List DevAddr} {writes : List (DevAddr × P)}
    (hrecords : w.RecordsTo F looked writes w')
    (hclear : ∀ d ∈ writes.map Prod.fst,
      w.shadow d = none ∨ w.binding d = none ∧ d ∈ looked) :
    w'.Tracks fun a =>
      (Writes.last (writes.map fun write => (write.1, .result write.2)) a).getD (m a) := by
  simp only [Writes.last_map fun _ poly => LastWrite.result poly]
  constructor
  · intro a words hs
    rw [hrecords.shadow] at hs
    split_ifs at hs with hleft
    -- The words of `a` stay, so that nothing was stored there.
    have ha : a ∉ writes.map Prod.fst := by
      intro ha
      rcases hclear a ha with hnone | hgone
      · exact Option.some_ne_none words (hs.symm.trans hnone)
      · exact hleft hgone.symm
    rw [Writes.last_eq_none.mpr ha]
    exact h.words a words hs
  · intro a poly poly' hm hb
    rw [hrecords.binding] at hb
    rcases hlast : Writes.last writes a with _ | poly'' <;> rw [hlast] at hm hb
    · rw [Option.none_or] at hb
      change m a = .result poly at hm
      split_ifs at hb
      · -- A result has no words that a lookup could bind.
        rcases hbinding : w.binding a with _ | bound
        · have hs : w.shadow a = none := by
            rcases hs : w.shadow a with _ | words
            · rfl
            · cases (h.words a words hs).symm.trans hm
          rw [held_wordless hbinding hs] at hb
          cases hb
        · rw [held_bound hbinding] at hb
          exact h.bound a poly poly' hm (hbinding.trans hb)
      · exact h.bound a poly poly' hm hb
    · cases hm
      exact (Option.some.inj hb).symm

/-! ## Copies from the host -/

/-- Words that were copied over the first bytes are what is written last. -/
theorem Tracks.copied (h : w.Tracks m) {copies : List (DevAddr × List UInt8)}
    (hfit : ∀ copy ∈ copies, copy.2.length ≤ 8 * w.allocator.wantElems)
    (hshadow : ∀ a, w'.shadow a = w.copiedWords copies a)
    (hbinding : ∀ a, a ∉ copies.map Prod.fst → ∀ poly, w'.binding a = some poly →
      w.binding a = some poly) :
    w'.Tracks fun a => (Writes.last (w.hostWrites copies) a).getD (m a) := by
  unfold hostWrites
  simp only [Writes.last_map fun a bytes => LastWrite.bytes (w.overwritten a bytes)]
  constructor
  -- Words that were written now are the last write; the others are as they were.
  · intro a words hs
    rw [hshadow, copiedWords] at hs
    rcases hlast : Writes.last copies a with _ | bytes <;> rw [hlast] at hs
    · exact h.words a words hs
    · cases hs
      have hlen := hfit _ (Writes.mem_of_last hlast)
      rw [← DeviceAllocator.length_sizedShadow a] at hlen
      change LastWrite.bytes _ = LastWrite.bytes _
      rw [Limbs.bytesOf_overwrite hlen]
      rfl
  -- What is bound was bound before, and not written by this call.
  · intro a poly poly' hm hb
    rcases hlast : Writes.last copies a with _ | bytes <;> rw [hlast] at hm
    · exact h.bound a poly poly' hm (hbinding a (Writes.last_eq_none.mp hlast) poly' hb)
    · cases hm

/-- Every residue is copied where every one passes its check. -/
theorem hostCopies_all {count : UInt64} {residues : List (DevAddr × Option (List UInt8))}
    (h : w.Copies residues count) : w.hostCopies count residues =
      residues.map fun r => (r.1, (r.2.getD []).takeD count.toNat 0) := by
  induction residues with
  | nil => rfl
  | cons r rs ih =>
    obtain ⟨a, _ | bytes⟩ := r
    · exact absurd rfl (h _ (List.mem_cons_self ..)).1
    have hc := (h _ (List.mem_cons_self ..)).2
    dsimp only at hc
    rw [hostCopies, hc]
    dsimp only
    rw [List.map_cons, ih fun r hr => h r (List.mem_cons_of_mem _ hr)]
    rfl

/-- The copies of an accepted upload are to its destinations. -/
theorem map_fst_hostCopies {count : UInt64} {residues : List (DevAddr × Option (List UInt8))}
    (h : w.Copies residues count) :
    (w.hostCopies count residues).map Prod.fst = residues.map Prod.fst := by
  rw [hostCopies_all h, List.map_map]
  rfl

/-- Tagging uploaded addresses writes no words, and binds no other address. -/
theorem tagUploaded_keeps (addrs : List DevAddr) (v : World P M) :
    Expected.Keeps (fun u : World P M => u.allocator = v.allocator ∧
        ∀ a, a ∉ addrs → u.binding a = v.binding a)
      (Expected.forEach (tagH2dInputLocked F) addrs) := by
  refine .forEach fun b hb => Expected.Keeps.iff_state.mpr fun u hu => ?_
  rcases hc : DeviceAllocator.components b u.config.ringDim u.allocator with e | values
  · obtain ⟨e', he⟩ := tagH2dInput_fails (F := F) hc
    rw [he]
    exact hu
  · rw [tagH2dInput_binds hc]
    refine ⟨hu.1, fun a ha => (AList.lookup_insert_ne ?_).trans (hu.2 a ha)⟩
    rintro rfl
    exact ha hb

/-- A copy of several residues from the host changes the words that it copies, and binds no other
address, whether it succeeds or fails. -/
theorem copyH2dMrp_copies (hw : w.Reachable F) (env : CompilerReplies P) (dst : List DevAddr)
    (src : List (Option (List UInt8))) (count : UInt64) (len : ℕ) :
    let copies := w.hostCopies count ((takePtrs len dst).zip (src.takeD len none))
    let v := (copyH2dMrp F env dst src count len w).2
    (∀ a, v.shadow a = w.copiedWords copies a) ∧
      ∀ a, a ∉ copies.map Prod.fst → v.binding a = w.binding a := by
  intro copies v
  rcases hrun : copyH2dMrp F env dst src count len w with ⟨e | ⟨⟩, w₁⟩
  · have hcopied := copyH2dMrp_fails hw hrun
    have hv : v = w₁ := congrArg Prod.snd hrun
    rw [hv]
    exact ⟨hcopied.shadow, fun a _ => congrFun hcopied.binding a⟩
  obtain ⟨s, hs, -, -, hwords⟩ := copyH2dAll_copies hw.inv.wantElems.2 count
    ((takePtrs len dst).zip (src.takeD len none))
  obtain ⟨_, -, hok⟩ := copyH2dAll_run count ((takePtrs len dst).zip (src.takeD len none)) w
  have hv : v = w₁ := congrArg Prod.snd hrun
  unfold copyH2dMrp at hrun
  rcases hcopy : (Expected.forEach (fun r => onAllocator (DeviceAllocator.copyH2d r.1 r.2 count))
    ((takePtrs len dst).zip (src.takeD len none)) w : _ × World P M) with ⟨e | ⟨⟩, u⟩
  · rw [Expected.bind_run_error hcopy] at hrun
    cases hrun
  rw [hcopy] at hs hok
  change u = _ at hs
  subst hs
  rw [Expected.bind_run_ok hcopy] at hrun
  -- All residues were copied, and the session and the tags leave the words.
  have hkeys : copies.map Prod.fst = takePtrs len dst :=
    (map_fst_hostCopies (hok.mp rfl)).trans
      (List.map_fst_zip (by rw [length_takePtrs, List.takeD_length]))
  have hsession := session_readsTo F env { w with allocator := s }
  have hkept := (tagUploaded_keeps (F := F) (takePtrs len dst)
    (World.act F { w with allocator := s } (.session env))).state ⟨rfl, fun _ _ => rfl⟩
  change Expected.forEach (tagH2dInputLocked F) (takePtrs len dst)
    (World.act F { w with allocator := s } (.session env)) = _ at hrun
  rw [hrun] at hkept
  rw [hv, hkeys]
  refine ⟨fun a => ?_, fun a ha => ?_⟩
  · have hshadow := hsession.shadow a
    rw [if_neg fun h => List.not_mem_nil h.1] at hshadow
    change w₁.allocator.shadow a = _
    rw [hkept.1]
    exact hshadow.trans (hwords a)
  · rw [hkept.2 a ha, hsession.binding, if_neg List.not_mem_nil]
    rfl

/-- A copy from the host copies every residue that passes its check, and tags it. -/
theorem copyH2dMrp_succeeds (hw : w.Reachable F) (env : CompilerReplies P) {dst : List DevAddr}
    {src : List (Option (List UInt8))} {count : UInt64} {len : ℕ}
    (hcopies : w.Copies ((takePtrs len dst).zip (src.takeD len none)) count)
    (hdim : w.config.ringDim.toNat < 2^61) :
    ∃ w', copyH2dMrp F env dst src count len w = (.ok (), w') := by
  -- All copies succeed under the condition, so the tags come next.
  obtain ⟨s, hs, hlive, hbytes, hwords⟩ := copyH2dAll_copies hw.inv.wantElems.2 count
    ((takePtrs len dst).zip (src.takeD len none))
  obtain ⟨_, -, hok⟩ := copyH2dAll_run count ((takePtrs len dst).zip (src.takeD len none)) w
  have hcopy : (Expected.forEach (fun r => onAllocator (DeviceAllocator.copyH2d r.1 r.2 count))
      ((takePtrs len dst).zip (src.takeD len none)) w : _ × World P M) =
        (.ok (), { w with allocator := s }) := Prod.ext (hok.mpr hcopies) hs
  have hcopied : w.CopiedTo (w.hostCopies count ((takePtrs len dst).zip (src.takeD len none)))
      { w with allocator := s } := ⟨rfl, hlive, hbytes, rfl, hwords⟩
  have hsession := session_readsTo F env { w with allocator := s }
  have hstocked := hsession.stocked (hcopied.stocked hw)
  have hfst : ((takePtrs len dst).zip (src.takeD len none)).map Prod.fst = takePtrs len dst :=
    List.map_fst_zip (by rw [length_takePtrs, List.takeD_length])
  -- Every destination has the size of the ring.
  have hwant : s.wantElems = w.config.ringDim.toNat := by
    have hsize := hw.inv.wantElems.1
    rw [Nat.mod_eq_of_lt hdim] at hsize
    rw [← hsize, DeviceAllocator.wantElems, DeviceAllocator.wantElems, hbytes]
  unfold copyH2dMrp
  rw [Expected.bind_run_ok hcopy]
  -- Each address is bound to its words, which are full.
  refine tagAll_binds fun a ha => ?_
  rw [← hfst] at ha
  obtain ⟨r, hr, rfl⟩ := List.mem_map.mp ha
  obtain ⟨values, hvalues, hlen⟩ := copyH2dAll_fills hcopy r hr
  refine ⟨values, ?_⟩
  have hshadow := hsession.shadow r.1
  rw [if_neg fun h => List.not_mem_nil h.1] at hshadow
  refine (components_words hstocked (hshadow.trans hvalues)).trans (if_neg (not_not.mpr ?_))
  rw [hlen, hsession.config]
  exact hwant

end

end World

/-! ## Call by call -/

section

variable {F : Fhetch P M} {env : CompilerReplies P} {w : World P M} {m : DevAddr → LastWrite P}

/-- After a success an address was last written by the call, if that wrote it. -/
theorem LastWrite.after_success {i : Invocation P} (h : (i.run F w).1.code = .success)
    (hreset : i.call ≠ .deviceReset) : LastWrite.after F w m i =
      fun a => (Writes.last (i.call.written F i.env w) a).getD (m a) := by
  obtain ⟨env, c⟩ := i
  rw [LastWrite.after, if_pos h]
  cases c <;> first | rfl | exact absurd rfl hreset

/-- A failure writes nothing. -/
theorem LastWrite.after_failure {i : Invocation P} (h : (i.run F w).1.code ≠ .success) :
    LastWrite.after F w m i = m :=
  if_neg h

/-- A call that writes nothing. -/
theorem World.Tracks.quiet (h : w.Tracks m) {i : Invocation P} (hfades : w.Fades (w.after F i))
    (hwritten : i.call.written F i.env w = []) (hreset : i.call ≠ .deviceReset) :
    (w.after F i).Tracks (LastWrite.after F w m i) := by
  by_cases hsuccess : (i.run F w).1.code = .success
  · rw [LastWrite.after_success hsuccess hreset, hwritten]
    exact h.fades hfades
  · rw [LastWrite.after_failure hsuccess]
    exact h.fades hfades

/-- A compute call, a basis conversion or a copy of one residue stores what it evaluates to. -/
theorem Call.run_computed (F : Fhetch P M) (env : CompilerReplies P) {c : Call} (hc : c.Computes)
    (hw : w.Stocked) :
    w.RecordsTo F (c.looked F w.config (w.held F)) ((c.eval F w.config (w.held F)).getD [])
        (c.run F env w).2 ∧
      ((c.run F env w).1.code = .success ↔ (c.eval F w.config (w.held F)).isSome) := by
  have hrun := c.run_eval F env hc w hw
  dsimp only at hrun
  rcases heval : c.eval F w.config (w.held F) with _ | writes <;> rw [heval] at hrun
  · exact ⟨.of_reads hrun.2, iff_of_false hrun.1 Bool.false_ne_true⟩
  · exact ⟨hrun.2, iff_of_true hrun.1 rfl⟩

/-- A copy of several residues on the device stores those before the first source without a
polynomial. -/
theorem Call.run_copied (F : Fhetch P M) (env : CompilerReplies P) (dst src : List DevAddr)
    (count : UInt64) (base : List UInt64) (hw : w.Stocked) :
    let c : Call := .memcpyMrp (.deviceToDevice (some dst) (some src)) count (some base)
    w.RecordsTo F (c.looked F w.config (w.held F)) (c.stored F w.config (w.held F))
        (c.run F env w).2 ∧
      ((c.run F env w).1.code = .success ↔ (c.eval F w.config (w.held F)).isSome) ∧
      ∀ writes, c.eval F w.config (w.held F) = some writes →
        c.stored F w.config (w.held F) = writes := by
  intro c
  -- Without residues the call is refused.
  by_cases hbase : base = []
  · have hlooked : c.looked F w.config (w.held F) = [] := if_pos hbase
    have hstored : c.stored F w.config (w.held F) = [] := if_pos hbase
    have heval : c.eval F w.config (w.held F) = none := if_pos hbase
    rw [hlooked, hstored, heval]
    subst hbase
    exact ⟨.of_reads (.refl F w), iff_of_false nofun nofun, nofun⟩
  have hlooked : c.looked F w.config (w.held F) = _ := if_neg hbase
  have hstored : c.stored F w.config (w.held F) = _ := if_neg hbase
  have heval : c.eval F w.config (w.held F) = _ := if_neg hbase
  have hrun := memcpyMrp_run_eval (F := F) env dst src count hbase hw
  rw [hlooked, hstored, heval]
  dsimp only at hrun
  -- A source that is not held ends the loop after the copies before it.
  rcases hcopies : evalCopies F (w.held F)
    ((takePtrs base.length dst).zip (takePtrs base.length src)) with _ | writes <;>
    rw [hcopies] at hrun
  · exact ⟨hrun.2, iff_of_false hrun.1 Bool.false_ne_true, nofun⟩
  · rw [(copiesMade_of_eval hcopies).1]
    exact ⟨hrun.2, iff_of_true hrun.1 rfl, fun _ h => Option.some.inj h⟩

/-- An operation that stores only where there are no words keeps the words the last write's. -/
theorem World.Tracks.operation (h : w.Tracks m) {c : Call} (hreset : c ≠ .deviceReset)
    (hrecords : w.RecordsTo F (c.looked F w.config (w.held F)) (c.stored F w.config (w.held F))
      (c.run F env w).2)
    (hcode : (c.run F env w).1.code = .success ↔ (c.eval F w.config (w.held F)).isSome)
    (hstored : ∀ writes, c.eval F w.config (w.held F) = some writes →
      c.stored F w.config (w.held F) = writes)
    (hwritten : c.written F env w = ((c.eval F w.config (w.held F)).getD []).map
      fun write => (write.1, .result write.2))
    (hwhole : c.eval F w.config (w.held F) = none → c.stored F w.config (w.held F) = [])
    (hclear : ∀ d ∈ (c.stored F w.config (w.held F)).map Prod.fst,
      w.shadow d = none ∨ w.binding d = none ∧ d ∈ c.looked F w.config (w.held F)) :
    (w.after F ⟨env, c⟩).Tracks (LastWrite.after F w m ⟨env, c⟩) := by
  -- Everything that is stored is cleared of words, or was looked up.
  have hall := h.records hrecords hclear
  -- A call that fails has stored nothing, one that succeeds what it evaluates to.
  rcases heval : c.eval F w.config (w.held F) with _ | writes
  · have hfails : (c.run F env w).1.code ≠ .success := fun hsuccess => by
      rw [hcode, heval] at hsuccess
      cases hsuccess
    rw [LastWrite.after_failure (i := ⟨env, c⟩) hfails]
    rw [hwhole heval] at hall
    exact hall
  · have hsuccess : (c.run F env w).1.code = .success := hcode.mpr (heval ▸ rfl)
    rw [LastWrite.after_success (i := ⟨env, c⟩) hsuccess hreset, hwritten, heval]
    rw [hstored writes heval] at hall
    exact hall

/-- A copy from the host that copies all of its residues or none. -/
theorem World.Tracks.uploaded (h : w.Tracks m) (hw : w.Reachable F) (env : CompilerReplies P)
    {dst : List DevAddr} {src : List (Option (List UInt8))} {count : UInt64} {len : ℕ}
    (hwhole : w.CopiesWhole count ((takePtrs len dst).zip (src.takeD len none))) :
    let copies := w.hostCopies count ((takePtrs len dst).zip (src.takeD len none))
    let (reply, after) := Shim.setInternalResult (World.copyH2dMrp F env dst src count len) w
    after.Tracks (if reply.code = .success
      then fun a => (Writes.last (w.hostWrites copies) a).getD (m a) else m) := by
  intro copies
  have hcopies := World.copyH2dMrp_copies hw env dst src count len
  have hfit : ∀ copy ∈ copies, copy.2.length ≤ 8 * w.allocator.wantElems := by
    intro copy hcopy
    obtain ⟨-, hlen, hcount⟩ := World.mem_hostCopies hcopy
    rw [hlen, ← hw.inv.wantElems.2]
    exact hcount
  unfold Shim.setInternalResult Shim.replyWith
  rcases hrun : World.copyH2dMrp F env dst src count len w with ⟨e | ⟨⟩, v⟩ <;>
    rw [hrun] at hcopies
  · -- What fails has copied nothing, since otherwise it copies all and succeeds.
    have hnone : copies = [] := by
      rcases hwhole with hnone | ⟨hall, hdim⟩
      · exact hnone
      · obtain ⟨v', hok⟩ := World.copyH2dMrp_succeeds (F := F) hw env hall hdim
        cases hrun.symm.trans hok
    have hkept := h.copied hfit hcopies.1 fun a ha poly hb => (hcopies.2 a ha).symm.trans hb
    rw [hnone] at hkept
    change v.Tracks (if toPublicError e = .success then _ else m)
    rw [if_neg (toPublicError_ne_success e)]
    exact hkept
  -- A call that succeeds has copied every residue.
  · exact h.copied hfit hcopies.1 fun a ha poly hb => (hcopies.2 a ha).symm.trans hb

/-- A call that is rejected changes nothing. -/
theorem World.Tracks.rejected (h : w.Tracks m) {i : Invocation P} {e : HazeError}
    (hrun : i.run F w = (.setError e, w)) (he : e ≠ .success) :
    (w.after F i).Tracks (LastWrite.after F w m i) := by
  have hcode : (i.run F w).1.code ≠ .success := by
    rw [hrun]
    exact he
  rw [LastWrite.after_failure hcode, World.after, hrun]
  exact h

/-- A copy of one residue from the host that is not rejected is the copy of several for one. -/
theorem memcpy_run_one {env : CompilerReplies P} {dst : DevAddr} {src : Option (List UInt8)}
    (hrej : (dst == .null || src == none) = false) (count : UInt64) :
    (Call.memcpy (.hostToDevice dst src) count).run F env w =
      Shim.setInternalResult (World.copyH2dMrp F env [dst] [src] count 1) w := by
  have hone : (World.onAllocator (DeviceAllocator.copyH2d dst src count) >>= fun _ =>
      World.tagH2dInput F env dst : Method P M Unit) =
        World.copyH2dMrp F env [dst] [src] count 1 := by
    unfold World.copyH2dMrp World.tagH2dInput
    change _ = Expected.forEach _ [(dst, src)] >>= fun _ => World.epochSession env >>= fun _ =>
      Expected.forEach _ [dst]
    rw [Expected.forEach_singleton, Expected.forEach_singleton]
  rw [← hone]
  change Shim.guarded _ _ w = _
  rw [hrej]
  rfl

/-- A copy of one residue from the host. -/
theorem World.Tracks.memcpy (h : w.Tracks m) (hw : w.Reachable F) {dst : DevAddr}
    {src : Option (List UInt8)} {count : UInt64} (hwhole : w.CopiesWhole count [(dst, src)]) :
    let c : Call := .memcpy (.hostToDevice dst src) count
    (w.after F ⟨env, c⟩).Tracks (LastWrite.after F w m ⟨env, c⟩) := by
  intro c
  by_cases hrej : (dst == .null || src == none) = true
  · have hrun : (⟨env, c⟩ : Invocation P).run F w = (.setError .invalidValue, w) := by
      change Shim.guarded _ _ w = _
      rw [hrej]
      rfl
    exact h.rejected hrun (by decide)
  rw [Bool.not_eq_true] at hrej
  have huploaded := @World.Tracks.uploaded P M F w m h hw env [dst] [src] count 1 hwhole
  rw [← memcpy_run_one hrej count] at huploaded
  exact huploaded

/-- A set replaces the words of its address and drops it from the epoch, or is rejected. -/
theorem memset_run (env : CompilerReplies P) (devPtr : DevAddr) (value : ℤ) (count : UInt64)
    (w : World P M) :
    (Call.memset devPtr value count).run F env w = if devPtr = .null then
        (.setError .invalidValue, w)
      else match w.allocator.checkRange devPtr count with
        | .error e => (.setError (toPublicError e), w)
        | .ok _ => (.success, { w with
          allocator := DeviceAllocator.writeShadow devPtr
            (List.replicate count.toNat (UInt8.ofInt value)) w.allocator
          epoch := w.epoch.invalidate devPtr }) := by
  change Shim.guarded (devPtr == .null) (Shim.replyWith (fun _ => Reply.success)
    (World.onAllocator (DeviceAllocator.memset devPtr value count) >>= fun _ =>
      World.modifyEpoch (EpochState.invalidate devPtr))) w = _
  -- The null pointer first, then the range.
  by_cases hnull : devPtr = .null
  · rw [if_pos hnull, hnull]
    rfl
  rw [if_neg hnull, beq_eq_false_iff_ne.mpr hnull]
  change Shim.replyWith _ _ w = _
  unfold Shim.replyWith
  rcases hc : w.allocator.checkRange devPtr count with e | ⟨⟩
  · have hfails : (World.onAllocator (DeviceAllocator.memset devPtr value count) w :
        _ × World P M) = (.error e, w) := by
      unfold World.onAllocator DeviceAllocator.memset
      rw [Expected.zoom_run, Expected.query_bind_error hc]
    rw [Expected.bind_run_error hfails]
  · rw [Expected.bind_run_ok (World.memset_writes value hc)]
    rfl

/-- Setting the first bytes. -/
theorem World.Tracks.memset (h : w.Tracks m) (hw : w.Inv) {devPtr : DevAddr} {value : ℤ}
    {count : UInt64} :
    let c : Call := .memset devPtr value count
    (w.after F ⟨env, c⟩).Tracks (LastWrite.after F w m ⟨env, c⟩) := by
  intro c
  have hrun := memset_run (F := F) env devPtr value count w
  by_cases hnull : devPtr = .null
  · rw [if_pos hnull] at hrun
    exact h.rejected (i := ⟨env, c⟩) hrun (by decide)
  rw [if_neg hnull] at hrun
  rcases hc : w.allocator.checkRange devPtr count with e | ⟨⟩ <;> rw [hc] at hrun
  · exact h.rejected (i := ⟨env, c⟩) hrun (toPublicError_ne_success e)
  · have hafter : w.after F ⟨env, c⟩ = _ := congrArg Prod.snd hrun
    have hforgets := hw.epoch.consistent.invalidate_forgets devPtr
    rw [LastWrite.after_success (i := ⟨env, c⟩) (congrArg (·.1.code) hrun) (by rintro ⟨⟩), hafter]
    -- One address is filled, and its binding is taken away with its group.
    refine h.copied (fun copy hcopy => ?_) (fun a => ?_) fun a ha poly hb => ?_
    · rw [List.mem_singleton.mp hcopy, ← hw.wantElems.2, List.length_replicate]
      exact UInt64.le_iff_toNat_le.mp (DeviceAllocator.checkRange_ok hc).2
    · refine (UMap.lookup_insert_ite ..).trans ?_
      rw [World.copiedWords, Writes.last_cons]
      split_ifs with ha
      · rw [ha]
        rfl
      · rfl
    · exact ((hforgets.others a (by simpa using ha)).1.symm.trans hb)

/-- The outputs that a flush reads back are written by it. -/
theorem World.Tracks.readBack (h : w.Tracks m) {w' : World P M}
    (hstored : ∀ entry ∈ outputs env w, w'.shadow entry.1 = some (storedWords env w entry))
    (hrest : ∀ a, (∀ entry ∈ outputs env w, a ≠ entry.1) → w'.shadow a = w.shadow a)
    (hbinding : ∀ a poly, w'.binding a = some poly → w.binding a = some poly) :
    w'.Tracks fun a => (Writes.last ((outputs env w).map fun entry =>
      (entry.1, .bytes (Limbs.bytesOf (storedWords env w entry)))) a).getD (m a) := by
  -- An output occurs once, so its last write is its own.
  have hkeys : ((outputs env w).map fun entry => ((entry.1,
      .bytes (Limbs.bytesOf (storedWords env w entry))) : DevAddr × LastWrite P)).map Prod.fst =
        (outputs env w).map Sigma.fst := by
    rw [List.map_map]
    rfl
  have hlast : ∀ entry ∈ outputs env w, Writes.last ((outputs env w).map fun entry =>
      ((entry.1, .bytes (Limbs.bytesOf (storedWords env w entry))) : DevAddr × LastWrite P))
        entry.1 = some (.bytes (Limbs.bytesOf (storedWords env w entry))) := fun entry hentry =>
    Writes.last_of_mem (hkeys ▸ World.outputs_keys_nodup env w) (List.mem_map_of_mem hentry)
  have hnone : ∀ a, (∀ entry ∈ outputs env w, a ≠ entry.1) →
      Writes.last ((outputs env w).map fun entry =>
        ((entry.1, .bytes (Limbs.bytesOf (storedWords env w entry))) : DevAddr × LastWrite P)) a =
          none := by
    intro a ha
    refine Writes.last_eq_none.mpr fun hmem => ?_
    rw [hkeys] at hmem
    obtain ⟨entry, hentry, heq⟩ := List.mem_map.mp hmem
    exact ha entry hentry heq.symm
  -- An address is an output, whose words have been stored, or keeps what it had.
  constructor
  · intro a words hs
    by_cases ha : ∃ entry ∈ outputs env w, a = entry.1
    · obtain ⟨entry, hentry, rfl⟩ := ha
      rw [hstored entry hentry] at hs
      rw [hlast entry hentry, Option.getD_some, Option.some.inj hs]
    · have hout : ∀ entry ∈ outputs env w, a ≠ entry.1 := fun entry hentry heq =>
        ha ⟨entry, hentry, heq⟩
      rw [hrest a hout] at hs
      rw [hnone a hout]
      exact h.words a words hs
  · intro a poly poly' hm hb
    by_cases ha : ∃ entry ∈ outputs env w, a = entry.1
    · obtain ⟨entry, hentry, rfl⟩ := ha
      rw [hlast entry hentry] at hm
      cases hm
    · rw [hnone a fun entry hentry heq => ha ⟨entry, hentry, heq⟩] at hm
      exact h.bound a poly poly' hm (hbinding a poly' hb)

/-- A flush that stores all of its outputs or none. -/
theorem World.Tracks.flush (h : w.Tracks m) (hw : w.Reachable F)
    (hkeeps : Replayed env w → (∀ entry ∈ outputs env w, Readable env w entry) ∨
      storedOutputs env w = []) :
    (w.after F ⟨env, .flush⟩).Tracks (LastWrite.after F w m ⟨env, .flush⟩) := by
  -- A flush binds nothing.
  have hbinding := (Call.performs (F := F) env .flush w).unbinding fun x hx => by
    cases x <;> trivial
  have hfades : (hazeFlush F env w).2.shadow = w.shadow →
      w.Fades (w.after F ⟨env, .flush⟩) := fun hs =>
    ⟨fun a words hwords => by rwa [← hs], hbinding⟩
  -- Without a replay nothing is stored.
  by_cases hreplayed : Replayed env w
  · by_cases hall : ∀ entry ∈ outputs env w, Readable env w entry
    · have hsuccess : (hazeFlush F env w).1.code = .success :=
        (World.flush_stores hw hreplayed).2.mpr hall
      have hstored : storedOutputs env w = outputs env w :=
        List.takeWhile_eq_self_iff.mpr fun entry hentry => decide_eq_true (hall entry hentry)
      have hwritten : Call.written F env w .flush = _ := if_pos hreplayed.recording
      rw [LastWrite.after_success (i := ⟨env, .flush⟩) hsuccess (by rintro ⟨⟩), hwritten]
      refine h.readBack (fun entry hentry => ?_) (fun a ha => ?_) hbinding
      · exact World.shadow_storedOutput hw hreplayed (hstored ▸ hentry)
      · exact World.shadow_unstored hw hreplayed (hstored ▸ ha)
    · -- The flush fails, and has stored nothing.
      have hfails : (hazeFlush F env w).1.code ≠ .success := fun hsuccess =>
        hall ((World.flush_stores hw hreplayed).2.mp hsuccess)
      have hnone := (hkeeps hreplayed).resolve_left hall
      rw [LastWrite.after_failure (i := ⟨env, .flush⟩) hfails]
      refine h.fades (hfades (funext fun a => World.shadow_unstored hw hreplayed fun _ hentry => ?_))
      rw [hnone] at hentry
      exact absurd hentry List.not_mem_nil
  · obtain ⟨hsame, hpending⟩ :=
      World.flush_unreplayed (F := F) hw.inv.epoch.consistent hreplayed
    have hkept := h.fades (hfades (funext fun a => congrArg (DeviceAllocator.shadow · a) hsame))
    -- It may still succeed, where nothing was tagged.
    by_cases hsuccess : (hazeFlush F env w).1.code = .success
    · have hwritten : Call.written F env w .flush = [] := by
        change (if _ then _ else _) = _
        split_ifs with hrec
        · rw [List.map_eq_nil_iff, List.eq_nil_iff_forall_not_mem]
          intro entry hentry
          have hlookup := World.mem_outputs.mp hentry
          rw [hpending hsuccess hrec] at hlookup
          cases hlookup
        · rfl
      rw [LastWrite.after_success (i := ⟨env, .flush⟩) hsuccess (by rintro ⟨⟩), hwritten]
      exact hkept
    · rw [LastWrite.after_failure (i := ⟨env, .flush⟩) hsuccess]
      exact hkept

/-- The state after addresses were freed: those that are not null are dropped from the epoch. -/
def World.freeing (w : World P M) (addrs : List DevAddr) : World P M := { w with
  allocator := (DeviceAllocator.freeEach addrs (.ok ()) w.allocator).2
  epoch := (addrs.filter (· ≠ .null)).foldl (fun s a => s.invalidate a) w.epoch }

/-- Freeing an address drops its binding and its words. -/
theorem free_run (env : CompilerReplies P) (ptr : DevAddr) (w : World P M) :
    ((Call.free ptr).run F env w).2 = w.freeing [ptr] := by
  have hone := invalidateAll_run (M := M) [ptr] w
  rw [Expected.forEach_singleton] at hone
  change (Shim.setInternalResult _ w).2 = _
  rw [Shim.setInternalResult, Shim.replyWith_state, Expected.bind_run_ok hone]
  by_cases hnull : ptr = .null
  · rw [DeviceAllocator.free, if_pos hnull, World.freeing, DeviceAllocator.freeEach, if_pos hnull]
    rfl
  · rw [DeviceAllocator.free, if_neg hnull, World.freeing, DeviceAllocator.freeEach, if_neg hnull]
    rfl

/-- So does freeing a list that is accepted. -/
theorem freeMrp_run (env : CompilerReplies P) {ptrs : List DevAddr} {count : UInt64}
    (hsuccess : ((Call.freeMrp (some ptrs) count).run F env w).1.code = .success) :
    ((Call.freeMrp (some ptrs) count).run F env w).2 = w.freeing (takePtrs count.toNat ptrs) := by
  have hrun : (Call.freeMrp (some ptrs) count).run F env w = Shim.setInternalResult
      (Expected.forEach invalidateNonNull (takePtrs count.toNat ptrs) >>= fun _ =>
        World.onAllocator (DeviceAllocator.freeMany (takePtrs count.toNat ptrs))) w :=
    Shim.guarded_success hsuccess
  rw [hrun, Shim.setInternalResult, Shim.replyWith_state,
    Expected.bind_run_ok (invalidateAll_run _ w)]
  rfl

/-- Addresses that a call frees have no words. -/
theorem World.Tracks.frees (h : w.Tracks m) (hw : w.Inv) {i : Invocation P} (addrs : List DevAddr)
    (hfades : w.Fades (w.after F i)) (hwritten : i.call.written F i.env w = addrs.map (·, .nothing))
    (hdead : (i.run F w).1.code = .success → ∀ a ∈ addrs, a ∉ (w.after F i).allocator.allocSet)
    (hreset : i.call ≠ .deviceReset) :
    (w.after F i).Tracks (LastWrite.after F w m i) := by
  by_cases hsuccess : (i.run F w).1.code = .success
  · rw [LastWrite.after_success hsuccess hreset, hwritten]
    refine (h.fades hfades).forgets fun a ha => ?_
    by_contra hs
    obtain ⟨words, hs⟩ := Option.ne_none_iff_exists'.mp hs
    exact hdead hsuccess a ha ((hw.after i).live_of_shadow hs)
  · rw [LastWrite.after_failure hsuccess]
    exact h.fades hfades

/-- Writing the program leaves the words. -/
theorem World.writeProgram_allocator (hw : w.Inv) :
    (w.after F ⟨env, .writeProgram⟩).allocator = w.allocator := by
  have hstate : w.after F ⟨env, .writeProgram⟩ = (World.finalizeLocked F env false w).2 :=
    Shim.replyWith_state _ (World.finalizeLocked F env false) w
  rw [hstate]
  rcases hrec : w.epoch.recording
  · rw [World.finalize_idle false hrec]
  by_cases htagged : w.epoch.pendingOutputs = ∅ ∧ w.epoch.pendingMrpGroups = ∅
  · rw [World.finalize_drops false hrec htagged]
    rfl
  rw [World.finalize_run false hw.epoch.consistent hrec htagged, World.doMaterialize_run
    (w := { w with compiler := w.compiler ++ World.tagCalls F env w }) false hrec]
  split_ifs <;> first | rfl | contradiction

/-- A call that keeps the last writes keeps the words theirs. -/
theorem World.Tracks.after (h : w.Tracks m) (hw : w.Reachable F) (i : Invocation P)
    (hkeeps : i.KeepsCurrent F w) : (w.after F i).Tracks (LastWrite.after F w m i) := by
  obtain ⟨env, c⟩ := i
  -- A reset leaves neither words nor bindings.
  by_cases hreset : c = .deviceReset
  · subst hreset
    refine ⟨fun a words hs => ?_, fun a poly poly' hm hb => ?_⟩
    · cases hs
    · cases hb
  have hsteps := Call.performs (F := F) env c w
  -- Allocations and frees write nothing and bind nothing.
  have hallocates : ∀ {x : Action P M}, x.Allocates → x.Wordless ∧ x.Unbinding := by
    intro x hx
    cases x with
    | allocator x => cases x <;> first | exact ⟨trivial, trivial⟩ | exact hx.elim
    | _ => exact hx.elim
  have hfrees : ∀ {x : Action P M} {dst : DevAddr → Prop}, x.Frees dst →
      x.Wordless ∧ x.Unbinding := by
    intro x dst hx
    cases x with
    | allocator x => cases x <;> first | exact ⟨trivial, trivial⟩ | exact hx.elim
    | epoch x => cases x <;> first | exact ⟨trivial, trivial⟩ | exact hx.elim
    | _ => exact hx.elim
  -- A computation stores all of what it evaluates to, or nothing.
  have hcomputed : c.Computes → (c.stored F w.config (w.held F) =
        (c.eval F w.config (w.held F)).getD []) →
      (c.written F env w = ((c.eval F w.config (w.held F)).getD []).map
        fun write => (write.1, .result write.2)) →
      (∀ d ∈ (c.stored F w.config (w.held F)).map Prod.fst,
        w.shadow d = none ∨ w.binding d = none ∧ d ∈ c.looked F w.config (w.held F)) →
      (w.after F ⟨env, c⟩).Tracks (LastWrite.after F w m ⟨env, c⟩) := by
    intro hc hstored hwritten hclear
    obtain ⟨hrecords, hcode⟩ := Call.run_computed F env hc hw.stocked
    rw [← hstored] at hrecords
    refine h.operation hreset hrecords hcode (fun writes heval => ?_) hwritten (fun heval => ?_) hclear
    · rw [hstored, heval]
      rfl
    · rw [hstored, heval]
      rfl
  -- The computations first, then the transfers, then what is left.
  cases c with
  | pp op dst src1 src2 modIdx => exact hcomputed trivial rfl rfl hkeeps.2
  | ps op dst src scalar modIdx => exact hcomputed trivial rfl rfl hkeeps.2
  | transform op dst src modIdx => exact hcomputed trivial rfl rfl hkeeps.2
  | automorph dst src index => exact hcomputed trivial rfl rfl hkeeps.2
  | ppMrp op dst src1 src2 base => exact hcomputed trivial rfl rfl hkeeps.2
  | psMrp op dst src scalars base => exact hcomputed trivial rfl rfl hkeeps.2
  | transformMrp op dst src base => exact hcomputed trivial rfl rfl hkeeps.2
  | indexMrp op dst src index base => exact hcomputed trivial rfl rfl hkeeps.2
  | basisConvert dst src params => exact hcomputed trivial rfl rfl hkeeps.2
  | modDown dst src params => exact hcomputed trivial rfl rfl hkeeps.2
  | modUp dst src params => exact hcomputed trivial rfl rfl hkeeps.2
  | memcpy transfer count =>
    cases transfer with
    | hostToDevice dst src => exact h.memcpy hw hkeeps
    | deviceToHost dst src => exact h.quiet (hsteps.fades fun x hx => hx.elim) rfl hreset
    | deviceToDevice dst src => exact hcomputed trivial rfl rfl hkeeps.2
    | unknownKind => exact h.quiet (hsteps.fades fun x hx => hx.elim) rfl hreset
  | memcpyMrp transfer count base =>
    have hrejected : ∀ {c : Call}, c.run F env w = (.setError .invalidValue, w) →
        (w.after F ⟨env, c⟩).Tracks (LastWrite.after F w m ⟨env, c⟩) := fun hrun =>
      h.rejected (i := ⟨env, _⟩) hrun (by decide)
    cases transfer with
    | hostToDevice dst src =>
      rcases dst with _ | dst
      · exact hrejected rfl
      rcases src with _ | src
      · exact hrejected rfl
      rcases base with _ | ⟨_ | ⟨q, base⟩⟩
      · exact hrejected rfl
      · exact hrejected rfl
      · exact h.uploaded hw env hkeeps
    | deviceToHost dst src => exact h.quiet (hsteps.fades fun x hx => hx.elim) rfl hreset
    | deviceToDevice dst src =>
      rcases dst with _ | dst
      · exact hrejected rfl
      rcases src with _ | src
      · exact hrejected rfl
      rcases base with _ | base
      · exact hrejected rfl
      -- A copy of several residues stores one after the other, so it may stop midway.
      obtain ⟨hrecords, hcode, hstored⟩ := Call.run_copied F env dst src count base hw.stocked
      exact h.operation hreset hrecords hcode hstored rfl hkeeps.1 hkeeps.2
    | unknownKind => exact h.quiet (hsteps.fades fun x hx => hx.elim) rfl hreset
  | memset devPtr value count => exact h.memset hw.inv
  | malloc ptr size =>
    exact h.quiet (hsteps.fades fun x hx => hallocates hx) rfl hreset
  | mallocMrp ptrs count size =>
    exact h.quiet (hsteps.fades fun x hx => hallocates hx) rfl hreset
  | free ptr =>
    refine h.frees hw.inv ([ptr].filter (· ≠ .null))
      (hsteps.fades fun x hx => hfrees hx) rfl (fun _ a ha => ?_) hreset
    obtain ⟨hptr, hnull⟩ := List.mem_filter.mp ha
    have hstate : w.after F ⟨env, .free ptr⟩ = w.freeing [ptr] := free_run env ptr w
    rw [hstate]
    exact DeviceAllocator.freeEach_dead _ (.inr ⟨hptr, of_decide_eq_true hnull⟩)
  | freeMrp ptrs count =>
    rcases ptrs with _ | ptrs
    · exact h.rejected (e := .invalidValue) rfl (by decide)
    refine h.frees hw.inv ((takePtrs count.toNat ptrs).filter (· ≠ .null))
      (hsteps.fades fun x hx => hfrees hx) rfl (fun hsuccess a ha => ?_) hreset
    obtain ⟨hptr, hnull⟩ := List.mem_filter.mp ha
    have hstate : w.after F ⟨env, .freeMrp (some ptrs) count⟩ =
        w.freeing (takePtrs count.toNat ptrs) := freeMrp_run env hsuccess
    rw [hstate]
    exact DeviceAllocator.freeEach_dead _ (.inr ⟨hptr, of_decide_eq_true hnull⟩)
  | tagOutput ptr =>
    refine h.quiet (hsteps.fades fun x hx => ?_) rfl hreset
    rw [show x = _ from hx]
    exact ⟨trivial, trivial⟩
  | flush => exact h.flush hw hkeeps
  -- A write keeps the allocator as it is.
  | writeProgram =>
    refine h.quiet ⟨fun a words hs => ?_, hsteps.unbinding fun x hx => by cases x <;> trivial⟩ rfl
      hreset
    change (w.after F ⟨env, .writeProgram⟩).allocator.shadow a = some words at hs
    rwa [World.writeProgram_allocator hw.inv] at hs
  | deviceReset => exact absurd rfl hreset
  | setRingDimension n =>
    refine h.quiet (hsteps.fades fun x hx => ?_) rfl hreset
    rw [show x = _ from hx]
    exact ⟨trivial, trivial⟩
  | config call =>
    refine h.quiet (hsteps.fades fun x hx => ?_) rfl hreset
    obtain ⟨c, rfl⟩ := hx
    exact ⟨trivial, trivial⟩

end

/-! ## Runs -/

/-- A call leads from a reachable state to one. -/
theorem World.Reachable.after {F : Fhetch P M} {w : World P M} (h : w.Reachable F)
    (i : Invocation P) : (w.after F i).Reachable F := by
  obtain ⟨is, rfl⟩ := h
  exact ⟨is ++ [i], List.foldl_append ..⟩

/-- So does a program. -/
theorem World.Reachable.runAll {F : Fhetch P M} {w : World P M} (h : w.Reachable F)
    (is : List (Invocation P)) : (World.runAll F w is).Reachable F := by
  obtain ⟨js, rfl⟩ := h
  exact ⟨js ++ is, List.foldl_append ..⟩

end Haze
