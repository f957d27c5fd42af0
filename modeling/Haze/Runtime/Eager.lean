import Haze.Runtime.Semantics
import Haze.Runtime.Effects

/-!
# Recording against eager execution

The runtime records operations and lets a replay compute their values when the epoch ends. An eager
interpreter keeps a value for each address instead, and computes each call when it is made
(`Call.eager`). The value of an address is in one of two places, the binding of the epoch or the
words of the allocator, and moves between them; `World.Refines` says that wherever it is, it is the
interpreter's. Every call keeps this when the end of an epoch loses no value, so that whole runs of
the runtime agree with the interpreter (`record_refines_eager`).
-/

namespace Haze

variable {P M V N : Type}

open World (takePtrs outputs storedWords)

/-! ## The interpreter -/

/-- The value of the bytes of an allocation. -/
def eagerBytes (G : Fhetch V N) (c : Config) (bytes : List UInt8) : V :=
  G.fromData (Limbs.limbsOf bytes) c.ringDim

/-- The values without those of some addresses. -/
def eagerForget (v : DevAddr → Option V) (addrs : List DevAddr) (a : DevAddr) : Option V :=
  if a ∈ addrs.filter (· ≠ .null) then none else v a

/-- The values after a call that is executed at once. -/
def Call.eager (G : Fhetch V N) (c : Config) (v : DevAddr → Option V) : Call → DevAddr → Option V
  | .free ptr => eagerForget v [ptr]
  | .freeMrp (some ptrs) count => eagerForget v (takePtrs count.toNat ptrs)
  | .memcpy (.hostToDevice dst src) count =>
    Writes.all v [(dst, eagerBytes G c ((src.getD []).takeD count.toNat 0))]
  | .memcpyMrp (.hostToDevice (some dst) (some src)) count (some base) =>
    Writes.all v (((takePtrs base.length dst).zip (src.takeD base.length none)).map fun r =>
      (r.1, eagerBytes G c ((r.2.getD []).takeD count.toNat 0)))
  | .memset devPtr value count =>
    Writes.all v [(devPtr, eagerBytes G c (List.replicate count.toNat (UInt8.ofInt value)))]
  | .memcpy (.deviceToDevice dst src) _ => Writes.copyEach v [(dst, src)]
  | .memcpyMrp (.deviceToDevice (some dst) (some src)) _ (some base) =>
    Writes.copyEach v ((takePtrs base.length dst).zip (takePtrs base.length src))
  | call => Writes.all v ((call.eval G c v).getD [])

/-- The values after a program that is executed at once. -/
def eagerAll (G : Fhetch V N) (c : Config) (v : DevAddr → Option V) (is : List (Invocation P)) :
    DevAddr → Option V :=
  is.foldl (fun v i => i.call.eager G c v) v

/-- The calls of the interpreter: copies from the host and sets are of a whole allocation, and no
call configures the device, resets it, or ends an epoch other than by a flush. -/
def Call.Interpreted (c : Config) : Call → Prop
  | .memcpy (.hostToDevice _ _) count => count.toNat = 8 * c.ringDim.toNat
  | .memcpyMrp (.hostToDevice _ _) count _ => count.toNat = 8 * c.ringDim.toNat
  | .memset _ _ count => count.toNat = 8 * c.ringDim.toNat
  | .writeProgram => False
  | .deviceReset => False
  | .setRingDimension _ => False
  | .config _ => False
  | _ => True

/-- A replay evaluates the polynomials that it is given: under each name it has a result whose
words can be read, those of the polynomial that was captured under the name. -/
def CompilerReplies.ReplaysValues (env : CompilerReplies P) (words : P → List UInt64) : Prop :=
  ∀ outputs name poly, (outputs.map Prod.fst).Nodup → (name, poly) ∈ outputs →
    ∃ result, env.result outputs name = some result ∧ env.savedValues result name = some (words poly)

namespace World

/-- The end of an epoch does not lose the value of an address: the address is not bound, or it is
tagged, or it is bound as an input whose words are still there, as only an upload leaves it. -/
def Retained (w : World P M) (a : DevAddr) : Prop :=
  w.binding a = none ∨ a ∈ w.epoch.pendingOutputs ∨
    a ∈ w.epoch.inputAddrs ∧ w.shadow a ≠ none

/-- The inputs that have words are bound to them. -/
def UploadsBound (F : Fhetch P M) (n : UInt64) (w : World P M) : Prop :=
  ∀ a ∈ w.epoch.inputAddrs, ∀ values, w.shadow a = some values →
    w.binding a = some (F.fromData values n)

/-- The values of the addresses are `v`, wherever the runtime has them. The words of an address are
those of an allocation, and an input that has words is bound to them. -/
structure Refines {F : Fhetch P M} {G : Fhetch V N} {c : Config} (D : Semantics F G c.ringDim)
    (w : World P M) (v : DevAddr → Option V) : Prop where
  reachable : w.Reachable F
  config : w.config = c
  wantElems : w.allocator.wantElems = c.ringDim.toNat
  held : D.valuesAt (w.held F) = v
  words : ∀ a values, w.shadow a = some values → values.length = c.ringDim.toNat
  uploads : w.UploadsBound F c.ringDim

end World

/-- The call succeeds and is one of the interpreter. A flush replays what was recorded, and loses
the value of no address. -/
def Invocation.Within {F : Fhetch P M} {G : Fhetch V N} {n : UInt64} (D : Semantics F G n)
    (w : World P M) (i : Invocation P) : Prop :=
  (i.run F w).1.code = .success ∧ i.call.Interpreted w.config ∧
    (i.call = .flush → i.env.ReplaysValues (fun p => D.words (D.value p)) ∧ ∀ a, w.Retained a)

section

variable {F : Fhetch P M} {G : Fhetch V N} {c : Config} {D : Semantics F G c.ringDim}
  {w : World P M} {v : DevAddr → Option V} {a : DevAddr}

/-! ## Writes -/

/-- The value of an address that was written by some last write, or else the value that it has. -/
def Semantics.settled (D : Semantics F G c.ringDim) (v : DevAddr → Option V)
    (writes : List (DevAddr × LastWrite P)) (a : DevAddr) : Option V :=
  match Writes.last writes a with
  | some write => (write.polynomial F c.ringDim).map D.value
  | none => v a

/-- Results have their values. -/
theorem Semantics.settled_results (D : Semantics F G c.ringDim) (u : DevAddr → Option P)
    (writes : List (DevAddr × P)) :
    D.settled (D.valuesAt u) (writes.map fun write => (write.1, .result write.2)) =
      D.valuesAt (Writes.all u writes) := by
  funext a
  rw [settled, Writes.last_map fun _ poly => LastWrite.result poly]
  change _ = (Writes.all u writes a).map D.value
  rw [Writes.all_eq]
  rcases Writes.last writes a with _ | poly <;> rfl

/-- Bytes of whole allocations have the values of these bytes. -/
theorem Semantics.settled_bytes (D : Semantics F G c.ringDim) (v : DevAddr → Option V)
    {copies : List (DevAddr × List UInt8)}
    (hlen : ∀ copy ∈ copies, copy.2.length = 8 * c.ringDim.toNat) :
    D.settled v (copies.map fun copy => (copy.1, .bytes copy.2)) =
      Writes.all v (copies.map fun copy => (copy.1, eagerBytes G c copy.2)) := by
  funext a
  rw [settled, Writes.last_map fun _ bytes => LastWrite.bytes bytes, Writes.all_eq,
    Writes.last_map fun _ bytes => eagerBytes G c bytes]
  rcases hlast : Writes.last copies a with _ | bytes
  · rfl
  · have hwords : (Limbs.limbsOf bytes).length = c.ringDim.toNat := by
      rw [Limbs.length_limbsOf, hlen _ (Writes.mem_of_last hlast)]
      exact Nat.mul_div_cancel_left _ (by decide)
    change (inputOf F c.ringDim (Limbs.limbsOf bytes)).map D.value =
      some (G.fromData (Limbs.limbsOf bytes) c.ringDim)
    rw [inputOf, if_pos hwords, Option.map_some, D.fromData _ hwords]

/-- Addresses that are freed have no value. -/
theorem Semantics.settled_nothing (D : Semantics F G c.ringDim) (v : DevAddr → Option V)
    (addrs : List DevAddr) :
    D.settled v ((addrs.filter (· ≠ .null)).map (·, .nothing)) = eagerForget v addrs := by
  funext a
  rw [settled, Writes.last_const, eagerForget]
  split_ifs <;> rfl

/-- Bytes of a whole allocation leave nothing of what was there. -/
theorem World.hostWrites_whole {copies : List (DevAddr × List UInt8)}
    (hlen : ∀ copy ∈ copies, copy.2.length = 8 * w.allocator.wantElems) :
    w.hostWrites copies = copies.map fun copy => (copy.1, .bytes copy.2) := by
  refine List.map_congr_left fun copy hcopy => ?_
  rw [World.overwritten, List.drop_of_length_le, List.append_nil]
  rw [Limbs.length_bytesOf, DeviceAllocator.length_sizedShadow, hlen copy hcopy]

/-- What is written by a call of the interpreter, other than a flush, has the values that the
interpreter gives, and bytes that are written are those of a whole allocation. -/
theorem World.Refines.written (h : w.Refines D v) (i : Invocation P) (hsteady : i.call.Steady)
    (hsuccess : (i.run F w).1.code = .success) (hcall : i.call.Interpreted w.config) :
    D.settled v (i.call.written F i.env w) = i.call.eager G c v ∧
      ∀ a content, (a, .bytes content) ∈ i.call.written F i.env w →
        content.length = 8 * c.ringDim.toNat := by
  obtain ⟨env, call⟩ := i
  have hstocked := h.reachable.stocked
  have hvalues : D.valuesAt (w.held F) = v := h.held
  -- Results are the values that the interpreter computes, and are no bytes.
  have hresults : ∀ writes : List (DevAddr × P),
      (call.written F env w = writes.map fun write => (write.1, .result write.2)) →
      call.eager G c v = D.valuesAt (Writes.all (w.held F) writes) →
      D.settled v (call.written F env w) = call.eager G c v ∧
        ∀ a content, (a, .bytes content) ∈ call.written F env w →
          content.length = 8 * c.ringDim.toNat := by
    intro writes hwritten heager
    rw [hwritten]
    refine ⟨?_, fun a content hmem => ?_⟩
    · rw [heager, ← hvalues]
      exact D.settled_results (w.held F) writes
    · obtain ⟨write, -, heq⟩ := List.mem_map.mp hmem
      cases congrArg Prod.snd heq
  have hcomputes : (call.written F env w = ((call.eval F w.config (w.held F)).getD []).map
        fun write => (write.1, .result write.2)) →
      call.eager G c v = Writes.all v ((call.eval G c v).getD []) →
      D.settled v (call.written F env w) = call.eager G c v ∧
        ∀ a content, (a, .bytes content) ∈ call.written F env w →
          content.length = 8 * c.ringDim.toNat := by
    intro hwritten heager
    refine hresults _ hwritten ?_
    rw [heager, D.valuesAt_all, hvalues, h.config]
    congr 1
    rw [← hvalues, D.eval_map]
    rcases call.eval F c (w.held F) with _ | writes <;> rfl
  -- Bytes are those of whole allocations.
  have hbytes : ∀ copies : List (DevAddr × List UInt8),
      (call.written F env w = w.hostWrites copies) →
      (call.eager G c v = Writes.all v (copies.map fun copy => (copy.1, eagerBytes G c copy.2))) →
      (∀ copy ∈ copies, copy.2.length = 8 * c.ringDim.toNat) →
      D.settled v (call.written F env w) = call.eager G c v ∧
        ∀ a content, (a, .bytes content) ∈ call.written F env w →
          content.length = 8 * c.ringDim.toNat := by
    intro copies hwritten heager hlen
    rw [hwritten, World.hostWrites_whole (h.wantElems ▸ hlen), heager]
    refine ⟨D.settled_bytes v hlen, fun a content hmem => ?_⟩
    obtain ⟨copy, hcopy, heq⟩ := List.mem_map.mp hmem
    cases heq
    exact hlen copy hcopy
  have hfreed : ∀ addrs : List DevAddr,
      (call.written F env w = (addrs.filter (· ≠ .null)).map (·, .nothing)) →
      call.eager G c v = eagerForget v addrs →
      D.settled v (call.written F env w) = call.eager G c v ∧
        ∀ a content, (a, .bytes content) ∈ call.written F env w →
          content.length = 8 * c.ringDim.toNat := by
    intro addrs hwritten heager
    rw [hwritten, heager]
    refine ⟨D.settled_nothing v addrs, fun a content hmem => ?_⟩
    obtain ⟨b, -, heq⟩ := List.mem_map.mp hmem
    cases heq
  have hcopied : ∀ {count : UInt64} {residues : List (DevAddr × Option (List UInt8))},
      count.toNat = 8 * w.config.ringDim.toNat →
      ∀ copy ∈ w.hostCopies count residues, copy.2.length = 8 * c.ringDim.toNat := by
    intro count residues hcount copy hcopy
    rw [(World.mem_hostCopies hcopy).2.1, hcount, h.config]
  cases call with
  | free ptr => exact hfreed [ptr] rfl rfl
  | freeMrp ptrs count =>
    rcases ptrs with _ | ptrs
    · cases hsuccess
    · exact hfreed _ rfl rfl
  | memcpy transfer count =>
    cases transfer with
    | hostToDevice dst src =>
      have hcopies := hostCopies_all (memcpy_uploads h.reachable env hsuccess).copies
      refine hbytes _ rfl ?_ (hcopied hcall)
      rw [hcopies]
      rfl
    | deviceToDevice dst src =>
      obtain ⟨writes, heval⟩ := Option.isSome_iff_exists.mp
        ((Call.run_operates F env (c := .memcpy (.deviceToDevice dst src) count) trivial
          hstocked).1.mp hsuccess)
      refine hresults writes ?_ ?_
      · change ((Call.eval F w.config (w.held F) _).getD []).map _ = _
        rw [heval]
        rfl
      · have hcopies : evalCopies F (w.held F) [(dst, src)] = some writes := by
          rw [Call.eval] at heval
          split_ifs at heval
          rw [evalCopies]
          rcases hp : w.held F src with _ | p <;> rw [hp] at heval
          · cases heval
          · exact heval
        rw [D.valuesAt_copies hcopies, hvalues]
        rfl
    | _ => exact hcomputes rfl rfl
  | memcpyMrp transfer count base =>
    cases transfer with
    | hostToDevice dst src =>
      rcases dst with _ | dst
      · cases hsuccess
      rcases src with _ | src
      · cases hsuccess
      rcases base with _ | base
      · cases hsuccess
      have hcopies := hostCopies_all (memcpyMrp_uploads h.reachable env hsuccess).copies
      refine hbytes _ rfl ?_ (hcopied hcall)
      rw [hcopies, List.map_map]
      rfl
    | deviceToDevice dst src =>
      obtain ⟨writes, heval⟩ := Option.isSome_iff_exists.mp
        ((Call.run_operates F env (c := .memcpyMrp (.deviceToDevice dst src) count base) trivial
          hstocked).1.mp hsuccess)
      rcases dst with _ | dst
      · cases heval
      rcases src with _ | src
      · cases heval
      rcases base with _ | base
      · cases heval
      refine hresults writes ?_ ?_
      · change ((Call.eval F w.config (w.held F) _).getD []).map _ = _
        rw [heval]
        rfl
      · rw [Call.eval] at heval
        split_ifs at heval
        rw [D.valuesAt_copies heval, hvalues]
        rfl
    | _ => exact hcomputes rfl rfl
  | memset devPtr value count =>
    refine hbytes [(devPtr, List.replicate count.toNat (UInt8.ofInt value))] rfl rfl
      fun copy hcopy => ?_
    rw [List.mem_singleton.mp hcopy, List.length_replicate, ← h.config]
    exact hcall
  | _ => first | exact hcomputes rfl rfl | exact hsteady.elim

/-! ## Uploads -/

namespace World

/-- An action that is neither a write of words nor a binding of an input binds no new input, and
leaves the bindings of those that keep their words. -/
theorem inputs_act {x : Action P M} (hx : x.Wordless) (hinput : ∀ b poly, x ≠ .epoch (.bindInput b poly))
    {values : List UInt64} (ha : a ∈ (w.act F x).epoch.inputAddrs)
    (hs : (w.act F x).shadow a = some values) :
    a ∈ w.epoch.inputAddrs ∧ (w.act F x).binding a = w.binding a := by
  rw [binding_act]
  -- Only the promotion and the binding of an input make an address one.
  cases x with
  | epoch x =>
    have hbindings := congrArg (fun b => b.2.1) (w.epoch.bindings_act x)
    change (w.act F (.epoch x)).epoch.inputAddrs = _ at hbindings
    rw [hbindings] at ha
    cases x with
    | bindInput b poly => exact absurd rfl (hinput b poly)
    | store b poly q =>
      obtain ⟨hne, ha⟩ := Finset.mem_erase.mp ha
      exact ⟨ha, if_neg hne⟩
    | invalidate b =>
      obtain ⟨hne, ha⟩ := Finset.mem_erase.mp ha
      exact ⟨ha, if_neg hne⟩
    | clear => exact absurd ha (Finset.notMem_empty a)
    | _ => exact ⟨ha, rfl⟩
  -- A promotion takes the words away, so the address that has words is another.
  | promote b =>
    change (w.allocator.act (.evict b)).shadow a = some values at hs
    rw [shadow_allocator_act] at hs
    dsimp only at hs
    split_ifs at hs with hab
    exact ⟨(Finset.mem_insert.mp ha).resolve_left hab, if_neg hab⟩
  | session env =>
    obtain ⟨recording, initialized, cs, -, he⟩ := session_frame (F := F) env w
    rw [he] at ha
    exact ⟨ha, rfl⟩
  | clearState => exact absurd ha (Finset.notMem_empty a)
  | reset => exact absurd ha (Finset.notMem_empty a)
  | _ => exact ⟨ha, rfl⟩

/-- Actions that bring no words and bind no input keep the bound inputs uploaded. -/
theorem UploadsBound.act {n : UInt64} (h : w.UploadsBound F n) {x : Action P M} (hx : x.Wordless)
    (hinput : ∀ b poly, x ≠ .epoch (.bindInput b poly)) : (w.act F x).UploadsBound F n := by
  intro a ha values hs
  obtain ⟨hmem, hb⟩ := inputs_act hx hinput ha hs
  rw [hb]
  exact h a hmem values (wordless_act hx hs)

/-- An upload binds what it copied. -/
theorem UploadsTo.uploads {count : UInt64} {residues : List (DevAddr × Option (List UInt8))}
    {w' : World P M} (h : w.UploadsTo F count residues w')
    (hw : w.UploadsBound F w.config.ringDim) : w'.UploadsBound F w.config.ringDim := by
  intro a ha values hs
  by_cases hmem : a ∈ residues.map Prod.fst
  · obtain ⟨values', hs', -, hb⟩ := h.bound a hmem
    rw [hb, Option.some.inj (hs.symm.trans hs')]
  · obtain ⟨hb, hinput⟩ := h.others a hmem
    have hsame : w'.shadow a = w.shadow a := by
      rw [h.words, copiedWords, Writes.last_eq_none.mpr (map_fst_hostCopies h.copies ▸ hmem)]
      rfl
    rw [hb]
    exact hw a (hinput.mp ha) values (hsame.symm.trans hs)

/-- A set drops the binding of the address. -/
theorem memset_uploads (hw : w.Inv) (env : CompilerReplies P) (devPtr : DevAddr) (value : ℤ)
    (count : UInt64) {n : UInt64} (h : w.UploadsBound F n) :
    (w.after F ⟨env, .memset devPtr value count⟩).UploadsBound F n := by
  have hrun := memset_run (F := F) env devPtr value count w
  -- A call that is refused changes nothing.
  have hsame : ∀ {r : Reply}, (Call.memset devPtr value count).run F env w = (r, w) →
      (w.after F ⟨env, .memset devPtr value count⟩).UploadsBound F n := by
    intro r hr
    have hafter : w.after F ⟨env, .memset devPtr value count⟩ = w := congrArg Prod.snd hr
    rw [hafter]
    exact h
  by_cases hnull : devPtr = .null
  · rw [if_pos hnull] at hrun
    exact hsame hrun
  rw [if_neg hnull] at hrun
  rcases hc : w.allocator.checkRange devPtr count with e | ⟨⟩ <;> rw [hc] at hrun
  · exact hsame hrun
  have hafter : w.after F ⟨env, .memset devPtr value count⟩ = _ := congrArg Prod.snd hrun
  have hforgets := hw.epoch.consistent.invalidate_forgets devPtr
  rw [hafter]
  -- Any other address keeps its words and its binding; this one is no input any more.
  intro a ha values hs
  have hne : a ≠ devPtr := by
    rintro rfl
    exact hforgets.gone.2.2.2.1 ha
  obtain ⟨hb, -, -, hinput, -⟩ := hforgets.others a hne
  exact hb.trans (h a (hinput.mp ha) values ((UMap.lookup_insert_ite.trans (if_neg hne)).symm.trans hs))

end World

/-- A call of the interpreter, other than a flush, keeps the uploads. -/
theorem World.Refines.uploadsBound (h : w.Refines D v) (i : Invocation P)
    (hsteady : i.call.Steady) (hsuccess : (i.run F w).1.code = .success)
    (hcall : i.call.Interpreted w.config) : (w.after F i).UploadsBound F c.ringDim := by
  obtain ⟨env, call⟩ := i
  have huploads := h.uploads
  rw [← h.config] at huploads ⊢
  -- Calls whose actions write no words and bind no input.
  have hacts : (∀ x, call.Acts F (· ∈ w.epoch.pendingOutputs) x →
      x.Wordless ∧ ∀ b poly, x ≠ .epoch (.bindInput b poly)) →
      (w.after F ⟨env, call⟩).UploadsBound F w.config.ringDim := fun hx =>
    (Call.performs (F := F) env call w).preserves
      (fun u x hact hu => hu.act (hx x hact.1).1 (hx x hact.1).2) huploads
  have hoperation : ∀ {dst : DevAddr → Prop} (x : Action P M), x.InSession (Action.Body dst) →
      x.Wordless ∧ ∀ b poly, x ≠ .epoch (.bindInput b poly) := by
    intro dst x hx
    cases x with
    | allocator x => cases x <;> first | exact hx.elim | exact ⟨trivial, by rintro _ _ ⟨⟩⟩
    | epoch x => cases x <;> first | exact hx.elim | exact ⟨trivial, by rintro _ _ ⟨⟩⟩
    | _ => exact ⟨trivial, by rintro _ _ ⟨⟩⟩
  have hallocates : ∀ x : Action P M, x.Allocates →
      x.Wordless ∧ ∀ b poly, x ≠ .epoch (.bindInput b poly) := by
    intro x hx
    cases x with
    | allocator x => cases x <;> first | exact hx.elim | exact ⟨trivial, by rintro _ _ ⟨⟩⟩
    | _ => exact hx.elim
  have hfrees : ∀ {dst : DevAddr → Prop} (x : Action P M), x.Frees dst →
      x.Wordless ∧ ∀ b poly, x ≠ .epoch (.bindInput b poly) := by
    intro dst x hx
    cases x with
    | allocator x => cases x <;> first | exact hx.elim | exact ⟨trivial, by rintro _ _ ⟨⟩⟩
    | epoch x => cases x <;> first | exact hx.elim | exact ⟨trivial, by rintro _ _ ⟨⟩⟩
    | _ => exact hx.elim
  cases call with
  -- The three calls that write words, or upload them, are treated by lemmas of their own.
  | memset devPtr value count =>
    exact World.memset_uploads h.reachable.inv env devPtr value count huploads
  | malloc ptr size => exact hacts hallocates
  | mallocMrp ptrs count size => exact hacts hallocates
  | free ptr => exact hacts hfrees
  | freeMrp ptrs count => exact hacts hfrees
  | tagOutput ptr =>
    refine hacts fun x hx => ?_
    rw [show x = _ from hx]
    exact ⟨trivial, by rintro _ _ ⟨⟩⟩
  | memcpy transfer count =>
    cases transfer with
    | hostToDevice dst src => exact (memcpy_uploads h.reachable env hsuccess).uploads huploads
    | deviceToDevice dst src => exact hacts hoperation
    | _ => exact hacts fun x hx => hx.elim
  | memcpyMrp transfer count base =>
    cases transfer with
    | hostToDevice dst src =>
      rcases dst with _ | dst
      · cases hsuccess
      rcases src with _ | src
      · cases hsuccess
      rcases base with _ | base
      · cases hsuccess
      exact (memcpyMrp_uploads h.reachable env hsuccess).uploads huploads
    | deviceToDevice dst src => exact hacts hoperation
    | _ => exact hacts fun x hx => hx.elim
  | flush => exact hsteady.elim
  | writeProgram => exact hsteady.elim
  | deviceReset => exact hsteady.elim
  | setRingDimension n => exact hsteady.elim
  | config call => exact hcall.elim
  | _ => exact hacts hoperation

/-! ## Steps -/

/-- A call of the interpreter, other than a flush, keeps the values. -/
theorem World.Refines.steady (h : w.Refines D v) (i : Invocation P) (hsteady : i.call.Steady)
    (hsuccess : (i.run F w).1.code = .success) (hcall : i.call.Interpreted w.config) :
    (w.after F i).Refines D (i.call.eager G c v) := by
  obtain ⟨hvalues, hwhole⟩ := h.written i hsteady hsuccess hcall
  have hsettles := Invocation.settles h.reachable i hsteady hsuccess
  -- A steady call neither configures nor resets.
  have hquiet : ¬ i.call.Configures ∧ i.call ≠ .deviceReset := by
    obtain ⟨env, call⟩ := i
    cases call <;> first | exact hsteady.elim | exact hcall.elim | exact ⟨id, by rintro ⟨⟩⟩
  obtain ⟨hconfig, hbytes⟩ := World.config_after (F := F) hquiet.1 hquiet.2 w
  refine ⟨h.reachable.after i, hconfig.trans h.config, ?_, funext fun a => ?_, fun a values hs => ?_,
    h.uploadsBound i hsteady hsuccess hcall⟩
  · rw [DeviceAllocator.wantElems, hbytes]
    exact h.wantElems
  -- The value of an address is the last one that the call wrote to it, or the one it had.
  · rw [← hvalues, Semantics.valuesAt, (hsettles a).held, Semantics.settled, h.config]
    rcases Writes.last (i.call.written F i.env w) a with _ | write
    · exact congrFun h.held a
    · rfl
  -- The words that are left have the length of the ring, whoever wrote them.
  · have hwords := (hsettles a).words
    rcases hlast : Writes.last (i.call.written F i.env w) a with _ | _ | content | poly <;>
      rw [hlast] at hwords
    · rcases hwords with hwords | hwords
      · exact h.words a values (hwords.symm.trans hs)
      · cases hwords.symm.trans hs
    · cases hwords.symm.trans hs
    · cases hwords.symm.trans hs
      rw [Limbs.length_limbsOf, hwhole a content (Writes.mem_of_last hlast)]
      exact Nat.mul_div_cancel_left _ (by decide)
    · rcases hwords with hwords | hwords
      · exact h.words a values (hwords.symm.trans hs)
      · cases hwords.symm.trans hs

/-- What a replay leaves at a tagged address is its value. -/
theorem World.Refines.storedWords (h : w.Refines D v) {env : CompilerReplies P}
    (henv : env.ReplaysValues fun p => D.words (D.value p)) {name : ProbeName}
    (ha : AList.lookup a w.epoch.pendingOutputs = some name) :
    ∃ x, v a = some x ∧ World.storedWords env w ⟨a, name⟩ = D.words x := by
  have hvalid := h.reachable.inv.epoch
  obtain ⟨poly, hpoly⟩ := Option.ne_none_iff_exists'.mp (World.mem_polyMap.mp
    (hvalid.consistent.pending_bound a (UMap.mem_of_lookup ha)))
  refine ⟨D.value poly, ?_, ?_⟩
  · rw [← h.held, Semantics.valuesAt, World.held_bound hpoly, Option.map_some]
  · obtain ⟨result, hresult, hsaved⟩ := henv (World.taggedOutputs env w) name poly
      (World.taggedOutputs_nodup hvalid) (World.mem_taggedOutputs ha hpoly)
    have hdecoded : (World.decoded env (World.taggedOutputs env w) ⟨a, name⟩).getD [] =
        D.words (D.value poly) := by
      change env.savedValues result name = some (D.words (D.value poly)) at hsaved
      rw [World.decoded, hresult, Option.bind_some, CompilerReplies.extractPolynomialValues, hsaved]
      rcases D.words (D.value poly) with _ | ⟨word, words⟩ <;> rfl
    rw [World.storedWords, hdecoded]
    exact takeD_length_self ((D.length_words _).trans h.wantElems.symm)

/-- A flush of a recorded epoch leaves every address that it does not lose with its value. -/
theorem World.Refines.flushed (h : w.Refines D v) {env : CompilerReplies P}
    (henv : env.ReplaysValues fun p => D.words (D.value p)) (hrec : w.epoch.recording = true)
    (hsuccess : (hazeFlush F env w).1.code = .success) (ha : w.Retained a) :
    D.valuesAt ((hazeFlush F env w).2.held F) a = v a := by
  have hafter : (hazeFlush F env w).2.Stocked := (h.reachable.after ⟨env, .flush⟩).stocked
  have hends := World.flush_ends h.reachable hrec hsuccess
  have hleft : Call.flush.leftWords env w a = ((AList.lookup a w.epoch.pendingOutputs).map
    fun name => World.storedWords env w ⟨a, name⟩).or (w.shadow a) := rfl
  rw [Semantics.valuesAt, hends.held hafter, hleft, h.config]
  rcases hname : AList.lookup a w.epoch.pendingOutputs with _ | name
  · -- The address keeps its words.
    rw [Option.map_none, Option.none_or]
    -- Its value is then what it was: no binding is in front of the words.
    rcases ha with hb | hpending | ⟨hinput, hs⟩
    · rw [← h.held, Semantics.valuesAt, World.held_words_of_unbound h.reachable.stocked hb, h.config]
    · obtain ⟨name, hname'⟩ := UMap.mem_iff_lookup.mp hpending
      cases hname.symm.trans hname'
    · obtain ⟨values, hs⟩ := Option.ne_none_iff_exists'.mp hs
      rw [← h.held, Semantics.valuesAt, World.held_bound (h.uploads a hinput values hs), hs,
        Option.bind_some, inputOf, if_pos (h.words a values hs)]
  -- An output gets the words of its value.
  · obtain ⟨x, hx, hwords⟩ := h.storedWords henv hname
    have hlen := D.length_words x
    rw [Option.map_some, Option.some_or, Option.bind_some, hwords, inputOf, if_pos hlen, hx,
      Option.map_some, D.fromData _ hlen, D.fromData_words]

/-- The words after a flush are those of an allocation. -/
theorem World.Refines.flushedWords (h : w.Refines D v) {env : CompilerReplies P}
    (hrec : w.epoch.recording = true) (hsuccess : (hazeFlush F env w).1.code = .success)
    {values : List UInt64} (hs : (hazeFlush F env w).2.shadow a = some values) :
    values.length = c.ringDim.toNat := by
  have hleft : (hazeFlush F env w).2.shadow a = ((AList.lookup a w.epoch.pendingOutputs).map
    fun name => World.storedWords env w ⟨a, name⟩).or (w.shadow a) :=
    (World.flush_ends h.reachable hrec hsuccess).shadow a
  rw [hs] at hleft
  rcases hname : AList.lookup a w.epoch.pendingOutputs with _ | name <;> rw [hname] at hleft
  · exact h.words a values hleft.symm
  · cases hleft
    exact (List.takeD_length ..).trans h.wantElems

/-- A flush that loses the value of no address keeps the values. -/
theorem World.Refines.flush (h : w.Refines D v) {env : CompilerReplies P}
    (henv : env.ReplaysValues fun p => D.words (D.value p))
    (hsuccess : (hazeFlush F env w).1.code = .success) (hretained : ∀ a, w.Retained a) :
    (w.after F ⟨env, .flush⟩).Refines D v := by
  by_cases hrec : w.epoch.recording = true
  · have hends := World.flush_ends h.reachable hrec hsuccess
    obtain ⟨hconfig, hbytes⟩ :=
      World.config_after (F := F) (i := ⟨env, .flush⟩) id (by rintro ⟨⟩) w
    refine ⟨h.reachable.after ⟨env, .flush⟩, hconfig.trans h.config, ?_,
      funext fun a => h.flushed henv hrec hsuccess (hretained a),
      fun a values hs => h.flushedWords hrec hsuccess hs, fun a ha => ?_⟩
    · rw [DeviceAllocator.wantElems, hbytes]
      exact h.wantElems
    · change a ∈ (hazeFlush F env w).2.epoch.inputAddrs at ha
      rw [hends.epoch] at ha
      exact absurd ha (Finset.notMem_empty a)
  · rw [World.after_idle (.inl rfl) (Bool.eq_false_iff.mpr hrec)]
    exact h

/-- A call of the interpreter keeps the values. -/
theorem World.Refines.after (h : w.Refines D v) (i : Invocation P) (hi : i.Within D w) :
    (w.after F i).Refines D (i.call.eager G c v) := by
  obtain ⟨hsuccess, hcall, hflush⟩ := hi
  by_cases hc : i.call = .flush
  · obtain ⟨henv, hretained⟩ := hflush hc
    obtain ⟨env, call⟩ := i
    cases hc
    exact h.flush henv hsuccess hretained
  · refine h.steady i ?_ hsuccess hcall
    obtain ⟨env, call⟩ := i
    cases call <;> first | exact hcall.elim | exact absurd rfl hc | exact trivial

/-- A program of calls of the interpreter keeps the values. -/
theorem World.Refines.runAll (h : w.Refines D v) (is : List (Invocation P))
    (his : Expected.Along (World.after F) (Invocation.Within D) w is) :
    (World.runAll F w is).Refines D (eagerAll G c v is) := by
  induction is generalizing w v with
  | nil => exact h
  | cons i is ih => exact ih (h.after i his.1) his.2

/-! ## Runs -/

/-- A copy of a whole allocation to the host returns the words of a value, or fails where there is
none. -/
def World.Returns (F : Fhetch P M) (D : Semantics F G c.ringDim) (w : World P M) (a : DevAddr)
    (x : Option V) : Prop :=
  ∀ (env : CompilerReplies P) (count : UInt64), count.toNat = 8 * c.ringDim.toNat →
    let reply := (hazeMemcpy F env (.deviceToHost true a) count w).1
    match x with
    | some x => reply.code = .success ∧ reply.bytes = [Limbs.bytesOf (D.words x)]
    | none => reply.code ≠ .success

/-- The value of the words of an address. -/
def World.wordsValue (G : Fhetch V N) (w : World P M) (a : DevAddr) : Option V :=
  (w.shadow a).map fun values => G.fromData values w.config.ringDim

/-- A copy to the host returns a value exactly when the words are those of the value. -/
theorem World.returns_iff (env : CompilerReplies P) (hw : w.Reachable F) (hconfig : w.config = c)
    (hwant : w.allocator.wantElems = c.ringDim.toNat) (ha : a ≠ .null)
    (hlen : ∀ values, w.shadow a = some values → values.length = c.ringDim.toNat) {x : Option V} :
    w.Returns F D a x ↔ w.wordsValue G a = x := by
  -- The whole polynomial is copied.
  have hsize : w.allocator.polyBytes.toNat = 8 * c.ringDim.toNat := by
    rw [hw.inv.wantElems.2, hwant]
  have hreply := fun (env : CompilerReplies P) count => World.memcpy_toHost (F := F) env a count w
  simp only [if_neg ha] at hreply
  rw [wordsValue, hconfig]
  rcases hs : w.shadow a with _ | values
  · -- There is nothing to copy.
    have hfails : ∀ env count,
        (hazeMemcpy F env (.deviceToHost true a) count w).1.code ≠ .success := by
      intro env count
      rw [hreply]
      rcases hrun : DeviceAllocator.copyToHost true a count w.allocator with e | bytes
      · exact toPublicError_ne_success e
      · obtain ⟨words, hwords, -⟩ := World.copyToHost_ok hrun
        cases hs.symm.trans hwords
    constructor
    · intro h
      rcases x with _ | x
      · rfl
      · exact absurd (h env w.allocator.polyBytes hsize).1 (hfails _ _)
    · rintro rfl env count -
      exact hfails env count
  -- The words are copied as they stand, and read back as the value they stand for.
  · have hvalues := hlen values hs
    have hcopied : ∀ (env : CompilerReplies P) (count : UInt64),
        count.toNat = 8 * c.ringDim.toNat →
        (hazeMemcpy F env (.deviceToHost true a) count w).1 =
          { Reply.setError .success with bytes := [Limbs.bytesOf values] } := by
      intro env count hcount
      have hbytes : count ≤ w.allocator.polyBytes := by
        rw [UInt64.le_iff_toNat_le, hsize, hcount]
      have hwhole : (Limbs.bytesOf values).length = count.toNat := by
        rw [Limbs.length_bytesOf, hvalues, hcount]
      rw [hreply, World.copyToHost_words (hw.stocked a (hs ▸ Option.some_ne_none values)).1 hs hbytes,
        ← hwhole, List.takeD_eq_take 0 (Nat.le_refl _), List.take_length]
    constructor
    · intro h
      have hreturned := h env w.allocator.polyBytes hsize
      rw [hcopied env _ hsize] at hreturned
      rcases x with _ | x
      · exact absurd rfl hreturned
      · have hwords := congrArg Limbs.limbsOf (List.singleton_inj.mp hreturned.2)
        rw [Limbs.limbsOf_bytesOf, Limbs.limbsOf_bytesOf] at hwords
        rw [hwords, Option.map_some, D.fromData_words]
    · rintro rfl env count hcount
      rw [hcopied env count hcount]
      change _ ∧ [Limbs.bytesOf values] = [Limbs.bytesOf (D.words (G.fromData values _))]
      rw [D.words_fromData _ hvalues]
      exact ⟨rfl, rfl⟩

/-- An address that is not bound has the value of its words. -/
theorem World.valuesAt_of_unbound (hw : w.Stocked) (hconfig : w.config = c)
    (hb : w.binding a = none)
    (hlen : ∀ values, w.shadow a = some values → values.length = c.ringDim.toNat) :
    w.wordsValue G a = D.valuesAt (w.held F) a := by
  rw [Semantics.valuesAt, World.held_words_of_unbound hw hb, wordsValue, hconfig]
  rcases hs : w.shadow a with _ | values
  · rfl
  · rw [Option.bind_some, inputOf, if_pos (hlen values hs), Option.map_some, Option.map_some,
      D.fromData _ (hlen values hs)]

/-- Nothing was written yet. -/
def World.Blank (w : World P M) : Prop := ∀ a, w.binding a = none ∧ w.shadow a = none

/-- A state without words and bindings refines the empty one. -/
theorem World.Blank.refines (D : Semantics F G w.config.ringDim) (hw : w.Reachable F)
    (hbytes : w.allocator.polyBytes.toNat = 8 * w.config.ringDim.toNat) (h : w.Blank) :
    w.Refines D fun _ => none where
  reachable := hw
  config := rfl
  wantElems := by
    have hwant := hw.inv.wantElems.2
    omega
  held := by
    funext a
    rw [Semantics.valuesAt, World.held_wordless (h a).1 (h a).2]
    rfl
  words a values hs := by cases (h a).2.symm.trans hs
  uploads a ha := absurd (h a).1
    (World.mem_polyMap.mp (hw.inv.epoch.consistent.input_bound a ha))

/-- A run of calls of the interpreter, from a state in which nothing was written, agrees with it:
every address resolves to the interpreter's value, and a next operation succeeds exactly when the
interpreter can compute it. After a last flush, a copy to the host of an address whose value that
flush does not lose returns the interpreter's value exactly when the flush finds what it is bound to
recorded, or in its words. -/
theorem record_refines_eager {F : Fhetch P M} {G : Fhetch V N} {w : World P M}
    (D : Semantics F G w.config.ringDim) (hw : w.Reachable F)
    (hbytes : w.allocator.polyBytes.toNat = 8 * w.config.ringDim.toNat) (hblank : w.Blank)
    (is : List (Invocation P)) (his : Expected.Along (World.after F) (Invocation.Within D) w is) :
    let u := World.runAll F w is
    let v := eagerAll G w.config (fun _ => none) is
    D.valuesAt (u.held F) = v ∧
      (∀ (env : CompilerReplies P) (call : Call), call.Operates →
        ((call.run F env u).1.code = .success ↔ (call.eval G w.config v).isSome)) ∧
      ∀ env : CompilerReplies P, env.ReplaysValues (fun p => D.words (D.value p)) →
        (hazeFlush F env u).1.code = .success → ∀ a, a ≠ .null → u.Retained a →
          ((hazeFlush F env u).2.Returns F D a (v a) ↔
            u.epoch.recording = true ∨ u.wordsValue G a = D.valuesAt (u.held F) a) := by
  intro u v
  have h : u.Refines D v := (hblank.refines D hw hbytes).runAll is his
  refine ⟨h.held, fun env call hcall => ?_, fun env henv hsuccess a ha hretained => ?_⟩
  -- An operation succeeds exactly where its value is defined, on both sides.
  · rw [(Call.run_operates F env hcall h.reachable.stocked).1, ← h.held, D.eval_map, h.config,
      Option.isSome_map]
  by_cases hrec : u.epoch.recording = true
  · have hends := World.flush_ends h.reachable hrec hsuccess
    have hafter : (hazeFlush F env u).2.Reachable F := h.reachable.after ⟨env, .flush⟩
    obtain ⟨hconfig, hsize⟩ :=
      World.config_after (F := F) (i := ⟨env, .flush⟩) id (by rintro ⟨⟩) u
    change (hazeFlush F env u).2.config = _ at hconfig
    change (hazeFlush F env u).2.allocator.polyBytes = _ at hsize
    -- After the flush nothing is bound, so the words are all that a copy reads.
    have hb : (hazeFlush F env u).2.binding a = none := by
      rw [World.binding, hends.epoch]
      rfl
    have hlen : ∀ values, (hazeFlush F env u).2.shadow a = some values →
        values.length = w.config.ringDim.toNat := fun values hs => h.flushedWords hrec hsuccess hs
    refine iff_of_true ((World.returns_iff env hafter (hconfig.trans h.config) ?_ ha hlen).mpr ?_)
      (.inl hrec)
    · rw [DeviceAllocator.wantElems, hsize]
      exact h.wantElems
    · rw [World.valuesAt_of_unbound hafter.stocked (hconfig.trans h.config) hb hlen]
      exact h.flushed henv hrec hsuccess hretained
  · -- Nothing is recorded, and the flush changes nothing.
    have hidle : (hazeFlush F env u).2 = u :=
      World.after_idle (i := ⟨env, .flush⟩) (.inl rfl) (Bool.eq_false_iff.mpr hrec)
    rw [hidle, World.returns_iff env h.reachable h.config h.wantElems ha
      fun values hs => h.words a values hs, or_iff_right hrec, h.held]

end

/-! ## Programs at ring dimension one -/

/-- At ring dimension one a polynomial is its value. -/
def scalarSemantics (n : UInt64) (hn : n = 1) : Semantics scalarRing scalarRing n where
  value x := x
  values m := m
  words x := [x]
  length_words _ := by
    rw [hn]
    rfl
  fromData_words _ := rfl
  words_fromData xs hxs := by
    rw [hn] at hxs
    obtain ⟨x, rfl⟩ := List.length_eq_one_iff.mp hxs
    rfl
  copy p := show scalarAddps p 0 kCopyModulus = p from if_pos rfl
  fromData _ _ := rfl
  pp _ _ _ _ := rfl
  ps _ _ _ _ := rfl
  transform _ _ _ := rfl
  automorph _ _ := rfl
  fromPairs pairs := (List.map_id pairs).symm
  residue _ _ := rfl
  base _ := rfl
  ppMrp _ _ _ := rfl
  psMrp _ _ _ := rfl
  transformMrp _ _ := rfl
  indexMrp _ _ _ := rfl
  subset _ _ := rfl
  fastBaseConvert _ _ _ _ := rfl
  rescaleFbc _ _ _ _ := rfl

/-- A compiler whose initialization throws. -/
def uninitializedReplies : CompilerReplies UInt64 := { scalarReplies with initReturns := false }

/-- The replies replay the values of the recorded polynomials. -/
theorem scalarReplies_replaysValues : scalarReplies.ReplaysValues fun x => [x] := by
  intro outputs name x hnodup hmem
  refine ⟨x, ?_, rfl⟩
  change (outputs.find? fun output => output.1 = name).map Prod.snd = some x
  induction outputs with
  | nil => exact absurd hmem List.not_mem_nil
  | cons output outputs ih =>
    rw [List.map_cons, List.nodup_cons] at hnodup
    rcases List.mem_cons.mp hmem with rfl | hmem
    · rw [List.find?_cons_of_pos (by simp)]
      rfl
    · have hne : output.1 ≠ name := by
        rintro rfl
        exact hnodup.1 (List.mem_map.mpr ⟨(output.1, x), hmem, rfl⟩)
      rw [List.find?_cons_of_neg (by simpa using hne)]
      exact ih hnodup.2 hmem

instance (w : World P M) (a : DevAddr) : Decidable (w.Retained a) :=
  inferInstanceAs (Decidable (_ ∨ _ ∨ _ ∧ _))

/-- Only what is bound can be lost. -/
theorem World.retained_of_keys {w : World P M} (h : ∀ a ∈ w.epoch.polyMap.keys, w.Retained a)
    (a : DevAddr) : w.Retained a := by
  by_cases ha : w.binding a = none
  · exact .inl ha
  · exact h a (AList.mem_keys.mp (World.mem_polyMap.mpr ha))

/-- Two addresses, before anything is written to them. -/
def blankWorld : World UInt64 (List (UInt64 × UInt64)) :=
  .runAll scalarRing .init (scalarProgram [.setRingDimension 1,
    .config (.setCiphertextModulus 0 17), .malloc true 8, .malloc true 8])

/-- An upload is doubled and copied over the upload in one epoch, and added to in a second. -/
def doubledTwice : List (Invocation UInt64) :=
  scalarProgram [uploadFive, .pp .add ⟨kHbmBase + 8⟩ ⟨kHbmBase⟩ ⟨kHbmBase⟩ 0,
    .memcpy (.deviceToDevice ⟨kHbmBase⟩ ⟨kHbmBase + 8⟩) 8, .tagOutput ⟨kHbmBase⟩,
    .tagOutput ⟨kHbmBase + 8⟩, .flush, .pp .mul ⟨kHbmBase + 8⟩ ⟨kHbmBase⟩ ⟨kHbmBase + 8⟩ 0,
    .tagOutput ⟨kHbmBase + 8⟩]

/-- After both epochs the addresses hold what an eager run of the calls leaves. -/
theorem record_refines_eager_example :
    (scalarSemantics blankWorld.config.ringDim (by decide +kernel)).valuesAt
        ((World.runAll scalarRing blankWorld doubledTwice).held scalarRing) =
      eagerAll scalarRing blankWorld.config (fun _ => none) doubledTwice :=
  (record_refines_eager (scalarSemantics blankWorld.config.ringDim (by decide +kernel))
    ⟨_, rfl⟩ (by decide +kernel) (fun _ => ⟨rfl, rfl⟩) doubledTwice
    ⟨⟨by decide +kernel, show (8 : UInt64).toNat = 8 * blankWorld.config.ringDim.toNat by
        decide +kernel, by rintro ⟨⟩⟩,
      ⟨by decide +kernel, trivial, by rintro ⟨⟩⟩, ⟨by decide +kernel, trivial, by rintro ⟨⟩⟩,
      ⟨by decide +kernel, trivial, by rintro ⟨⟩⟩, ⟨by decide +kernel, trivial, by rintro ⟨⟩⟩,
      ⟨by decide +kernel, trivial, fun _ => ⟨scalarReplies_replaysValues,
        World.retained_of_keys (by decide +kernel)⟩⟩,
      ⟨by decide +kernel, trivial, by rintro ⟨⟩⟩, ⟨by decide +kernel, trivial, by rintro ⟨⟩⟩,
      trivial⟩).1

/-- An upload, its double and a tag, while the compiler cannot be initialized. -/
def doubledUnrecorded : List (Invocation UInt64) :=
  [uploadFive, .pp .add ⟨kHbmBase + 8⟩ ⟨kHbmBase⟩ ⟨kHbmBase⟩ 0, .tagOutput ⟨kHbmBase + 8⟩].map
    (⟨uninitializedReplies, ·⟩)

/-- Every call succeeds and binds its result, nothing is recorded, and the flush succeeds without a
replay. The copy to the host of the tagged double is refused, and the interpreter has its value. -/
theorem record_refines_eager_counterexample :
    let D := scalarSemantics blankWorld.config.ringDim (by decide +kernel)
    let u := World.runAll scalarRing blankWorld doubledUnrecorded
    let v := eagerAll scalarRing blankWorld.config (fun _ => none) doubledUnrecorded
    blankWorld.Reachable scalarRing ∧ blankWorld.Blank ∧
      Expected.Along (World.after scalarRing) (Invocation.Within D) blankWorld doubledUnrecorded ∧
      uninitializedReplies.ReplaysValues (fun x => D.words (D.value x)) ∧
      (hazeFlush scalarRing uninitializedReplies u).1.code = .success ∧
      ⟨kHbmBase + 8⟩ ∈ u.epoch.pendingOutputs ∧ v ⟨kHbmBase + 8⟩ = some 10 ∧
      ¬ (hazeFlush scalarRing uninitializedReplies u).2.Returns scalarRing D ⟨kHbmBase + 8⟩
        (v ⟨kHbmBase + 8⟩) := by
  intro D u v
  have hv : v ⟨kHbmBase + 8⟩ = some 10 := by decide +kernel
  refine ⟨⟨_, rfl⟩, fun _ => ⟨rfl, rfl⟩, ?_, scalarReplies_replaysValues, by decide +kernel,
    by decide +kernel, hv, fun h => ?_⟩
  · exact ⟨⟨by decide +kernel, show (8 : UInt64).toNat = 8 * blankWorld.config.ringDim.toNat by
      decide +kernel, by rintro ⟨⟩⟩, ⟨by decide +kernel, trivial, by rintro ⟨⟩⟩,
      ⟨by decide +kernel, trivial, by rintro ⟨⟩⟩, trivial⟩
  · have hreply := h uninitializedReplies 8 (by decide +kernel)
    rw [hv] at hreply
    exact absurd hreply.1 (by decide +kernel)

end Haze
