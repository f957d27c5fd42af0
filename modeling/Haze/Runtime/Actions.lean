import Haze.Allocation.Invariant
import Haze.Api
import Haze.Epoch.Frame

/-!
# The runtime's methods as sequences of actions

Whatever a method of the runtime does, it does by a sequence of the actions below, each taken where
`Allowed` says. An invariant of the runtime is therefore checked once for each action. The classes
of actions say more about groups of methods: resolving the sources of an operation only `Reads`,
and the rest of an operation after its session is opened is a `Body`.
-/

namespace Haze

variable {P M : Type}

/-- One change of the runtime's state. -/
inductive Action (P M : Type) where
  | allocator (x : AllocatorAction)
  | epoch (x : EpochAction P)
  /-- Bind an address to its words as an input, and take the words out of the allocator. -/
  | promote (addr : DevAddr)
  | ringDimension (n : UInt64)
  | config (c : Config)
  | session (env : CompilerReplies P)
  | calls (cs : List (CompilerCall P M))
  | hook (hadError : Bool)
  | clearState
  | reset

/-- Calls to the compiler that capture no output and drop none. -/
def Quiet (cs : List (CompilerCall P M)) : Prop :=
  ∀ outputs, cs.foldl CompilerCall.capture outputs = outputs

/-- The calls that opening a session makes. -/
def CompilerCall.Opens : CompilerCall P M → Prop
  | .init _ => True
  | .setProgramInfo _ _ _ => True
  | .setProgramDirectory _ => True
  | .suppressProbes => True
  | .startEpoch => True
  | .start => True
  | _ => False

/-- Calls that open a session bind nothing and tag nothing. -/
theorem Quiet.of_opens {cs : List (CompilerCall P M)} (h : ∀ c ∈ cs, c.Opens) : Quiet cs := by
  intro outputs
  induction cs with
  | nil => rfl
  | cons c cs ih =>
    have hc : c.capture outputs = outputs := by
      have := h c (List.mem_cons_self ..)
      cases c <;> first | rfl | exact this.elim
    rw [List.foldl_cons, hc]
    exact ih fun d hd => h d (List.mem_cons_of_mem _ hd)

namespace World

/-- The words of an address. -/
def shadow (w : World P M) (a : DevAddr) : Option (List UInt64) := w.allocator.shadow a

/-- The polynomial that an address is bound to. -/
def binding (w : World P M) (a : DevAddr) : Option P := AList.lookup a w.epoch.polyMap

/-- The bound addresses are those that have a polynomial. -/
theorem mem_polyMap {w : World P M} {a : DevAddr} : a ∈ w.epoch.polyMap ↔ w.binding a ≠ none := by
  rw [UMap.mem_iff_lookup, binding, Option.ne_none_iff_exists']

section

variable (F : Fhetch P M)

/-- The polynomial of an address's words. -/
def shadowPoly (w : World P M) (a : DevAddr) : P := F.fromData ((w.shadow a).getD []) w.config.ringDim

/-- The effect of an action. -/
def act (w : World P M) : Action P M → World P M
  | .allocator x => { w with allocator := w.allocator.act x }
  | .epoch x => { w with epoch := w.epoch.act x }
  | .promote a => { w with
      allocator := w.allocator.act (.evict a)
      epoch := w.epoch.act (.bindInput a (w.shadowPoly F a))
      compiler := w.compiler ++ [.tagInput (.hazeIn w.epoch.inputCounter) (w.shadowPoly F a)] }
  | .ringDimension n => { w with
      config := { w.config with ringDim := n }
      allocator := w.allocator.setPolynomialSize (n * 8) }
  | .config c => { w with config := c }
  | .session env => ensureRecordingLocked (ensureInitialized env w)
  | .calls cs => { w with compiler := w.compiler ++ cs }
  | .hook hadError => { w with hookHadError := hadError }
  | .clearState => clearStateLocked w
  | .reset => resetAll w

end

/-- Where the runtime takes an action. An address is promoted when it is not bound and its words
are those of a polynomial; words leave the allocator otherwise only when they are not. The ring
dimension is set to a power of two, and is kept once the device is configured. -/
def Allowed (w : World P M) : Action P M → Prop
  | .allocator (.evict a) => ∃ values, w.shadow a = some values ∧
    values.length ≠ w.config.ringDim.toNat
  | .allocator x => w.allocator.Guard x
  | .epoch x => w.epoch.Issued x
  | .promote a => w.binding a = none ∧ a ∈ w.allocator.allocSet ∧ w.config.ringDim ≠ 0 ∧
    ∃ values, w.shadow a = some values ∧ values.length = w.config.ringDim.toNat
  | .ringDimension n => Config.isSupportedRingDim n ∧
    (w.config.configured → w.config.ringDim = n)
  | .config c => c.ringDim = w.config.ringDim
  | _ => True

end World

namespace Action

/-- The actions that resolve sources. -/
def Reads : Action P M → Prop
  | .allocator (.evict _) => True
  | .epoch (.nameGroup false _) => True
  | .epoch (.tagMrpInputName _) => True
  | .promote _ => True
  | .calls cs => Quiet cs
  | _ => False

/-- The actions that resolve sources and bind addresses of `dst`. -/
def Stores (dst : DevAddr → Prop) : Action P M → Prop
  | .epoch (.store a _ _) => dst a
  | .epoch (.recordModulus _ _) => True
  | x => x.Reads

/-- The actions of an operation after its session is opened: it resolves sources, binds addresses
of `dst`, and may register them as groups. -/
def Body (dst : DevAddr → Prop) : Action P M → Prop
  | .epoch (.nameGroup _ _) => True
  | .epoch (.register _ _ _) => True
  | x => x.Stores dst

/-- What a read does, a store may do. -/
theorem Reads.stores {dst : DevAddr → Prop} {x : Action P M} (h : x.Reads) : x.Stores dst := by
  cases x with
  | epoch x => cases x <;> first | exact h | exact h.elim
  | _ => exact h

/-- What a store does, the body of a compute call may do. -/
theorem Stores.body {dst : DevAddr → Prop} {x : Action P M} (h : x.Stores dst) : x.Body dst := by
  cases x with
  | epoch x => cases x <;> first | exact h | exact h.elim | trivial
  | _ => exact h

end Action

namespace World

/-! ## The words and the binding of an address -/

section

variable {F : Fhetch P M}

/-- A session changes only whether the backend is initialized and recording. -/
theorem session_frame (env : CompilerReplies P) (w : World P M) :
    ∃ (recording initialized : Bool) (cs : List (CompilerCall P M)), (∀ c ∈ cs, c.Opens) ∧
      w.act F (.session env) = { w with
      epoch := { w.epoch with recording := recording }
      initialized := initialized
      compiler := w.compiler ++ cs } := by
  -- The initialization appends to the compiler's log and sets the flag.
  have hinit : ∃ (initialized : Bool) (cs : List (CompilerCall P M)), (∀ c ∈ cs, c.Opens) ∧
      ensureInitialized env w =
        { w with initialized := initialized, compiler := w.compiler ++ cs } := by
    have hnone : w = { w with initialized := w.initialized, compiler := w.compiler ++ [] } := by
      rw [List.append_nil]
    unfold ensureInitialized
    split_ifs
    · exact ⟨_, [], fun c hc => absurd hc List.not_mem_nil, hnone⟩
    · exact ⟨_, [], fun c hc => absurd hc List.not_mem_nil, hnone⟩
    · refine ⟨_, _, fun c hc => ?_, rfl⟩
      rw [List.mem_singleton.mp hc]
      trivial
    · refine ⟨true, _, ?_, by rw [List.append_assoc, List.append_assoc]⟩
      rcases w.config.programDir with _ | dir <;>
        simp [CompilerCall.Opens]
  obtain ⟨initialized, cs, hcs, he⟩ := hinit
  change ∃ (recording initialized : Bool) (cs : List (CompilerCall P M)), (∀ c ∈ cs, c.Opens) ∧
    -- The recording is then opened where it is not, with two more calls.
    ensureRecordingLocked (ensureInitialized env w) = _
  rw [he, ensureRecordingLocked]
  split_ifs
  · refine ⟨true, initialized, cs ++ [.startEpoch, .start], fun c hc => ?_, by
      rw [← List.append_assoc]⟩
    rcases List.mem_append.mp hc with hc | hc
    · exact hcs c hc
    · rcases List.mem_pair.mp hc with rfl | rfl <;> trivial
  · exact ⟨w.epoch.recording, initialized, cs, hcs, rfl⟩

/-- What an action of the epoch does to a binding. -/
theorem lookup_epoch_act (s : EpochState P) (x : EpochAction P) (a : DevAddr) :
    AList.lookup a (s.act x).polyMap = match x with
      | .bindInput b poly => if a = b then some poly else AList.lookup a s.polyMap
      | .store b poly _ => if a = b then some poly else AList.lookup a s.polyMap
      | .invalidate b => if a = b then none else AList.lookup a s.polyMap
      | .clear => none
      | _ => AList.lookup a s.polyMap := by
  have h := congrArg Prod.fst (s.bindings_act x)
  cases x with
  | bindInput b poly => exact UMap.lookup_insert_ite ..
  | store b poly q => exact UMap.lookup_insert_ite ..
  | invalidate b =>
    change (s.act (.invalidate b)).polyMap = AList.erase b s.polyMap at h
    rw [h, UMap.lookup_erase_ite]
  | clear => rfl
  | _ => exact congrArg (AList.lookup a) h

/-- What an action does to the binding of an address. -/
theorem binding_act (w : World P M) (x : Action P M) (a : DevAddr) :
    (w.act F x).binding a = match x with
      | .epoch (.bindInput b poly) => if a = b then some poly else w.binding a
      | .epoch (.store b poly _) => if a = b then some poly else w.binding a
      | .promote b => if a = b then some (w.shadowPoly F b) else w.binding a
      | .epoch (.invalidate b) => if a = b then none else w.binding a
      | .epoch .clear => none
      | .clearState => none
      | .reset => none
      | _ => w.binding a := by
  cases x with
  | epoch x =>
    have h := lookup_epoch_act w.epoch x a
    cases x <;> exact h
  | promote b => exact lookup_epoch_act w.epoch (.bindInput b (w.shadowPoly F b)) a
  | session env =>
    obtain ⟨recording, initialized, cs, -, he⟩ := session_frame (F := F) env w
    rw [he]
    rfl
  | _ => rfl

/-- What an action of the allocator does to the words of an address. -/
theorem shadow_allocator_act (s : DeviceAllocator) (x : AllocatorAction) (a : DevAddr) :
    (s.act x).shadow a = match x with
      | .write b values => if a = b then some values else s.shadow a
      | .evict b => if a = b then none else s.shadow a
      | .freeOne b => if a = b ∧ b ∈ s.allocSet then none else s.shadow a
      | .allocateOne => s.shadow a := by
  cases x with
  -- Of the four actions a free is the only one with a condition.
  | write b values => exact UMap.lookup_insert_ite ..
  | evict b => exact UMap.lookup_erase_ite ..
  | freeOne b =>
    by_cases hb : b ∈ s.allocSet
    · rw [DeviceAllocator.act, DeviceAllocator.freeOne_live hb]
      simp only [hb, and_true]
      exact UMap.lookup_erase_ite ..
    · rw [DeviceAllocator.act, DeviceAllocator.freeOne_dead hb]
      simp only [hb, and_false, if_false]
  | allocateOne =>
    unfold DeviceAllocator.act DeviceAllocator.allocateOneLocked
    rcases s.poolFree with _ | ⟨b, rest⟩
    · rfl
    · dsimp only
      split_ifs <;> rfl

end

/-- An allowed action of a class. -/
def In (C : Action P M → Prop) (w : World P M) (x : Action P M) : Prop := C x ∧ w.Allowed x

section

variable {F : Fhetch P M} {C D : Action P M → Prop}

/-- The condition on an action may be weakened. -/
theorem In.mono (h : ∀ x, C x → D x) {w : World P M} {x : Action P M} (hx : w.In C x) : w.In D x :=
  ⟨h x hx.1, hx.2⟩

/-! ## Methods of one component -/

/-- What an allocator method performs there, the runtime performs; this is for the methods that do
not take words out. -/
theorem onAllocator_performs {α : Type} {x : DeviceAllocator.Method α} {w : World P M}
    {K : AllocatorAction → Prop}
    (h : Expected.PerformsAt DeviceAllocator.act (DeviceAllocator.Takes False K) x w.allocator)
    (hK : ∀ y, K y → C (.allocator y) ∧ ∀ a, y ≠ .evict a) :
    Expected.PerformsAt (act F) (In C) (onAllocator x : Method P M α) w := by
  refine Expected.PerformsAt.zoom Action.allocator ?_ ?_ ?_ ?_ ?_ h
  · exact fun _ => rfl
  · exact fun _ _ => rfl
  · exact fun _ _ _ => rfl
  · exact fun _ _ => rfl
  intro w y hy
  refine ⟨(hK y hy.1).1, ?_⟩
  cases y with
  | evict a => exact absurd rfl ((hK _ hy.1).2 a)
  | _ => exact hy.2.1

/-- An update of the epoch that is one action. -/
theorem modifyEpoch_performs {f : EpochState P → EpochState P} {w : World P M} (x : EpochAction P)
    (h : f w.epoch = w.epoch.act x) (hC : C (.epoch x)) (hx : w.epoch.Issued x) :
    Expected.PerformsAt (act F) (In C) (modifyEpoch f : Method P M Unit) w := by
  refine .of_action (.epoch x) ⟨hC, hx⟩ ?_
  change { w with epoch := f w.epoch } = { w with epoch := w.epoch.act x }
  rw [h]

/-- A method of the epoch that is one action. -/
theorem onEpoch_performs {α : Type} {f : Expected HazeInternalError (EpochState P) α}
    {w : World P M} (x : EpochAction P) (h : (f w.epoch).2 = w.epoch.act x) (hC : C (.epoch x))
    (hx : w.epoch.Issued x) : Expected.PerformsAt (act F) (In C) (onEpoch f : Method P M α) w := by
  refine .of_action (.epoch x) ⟨hC, hx⟩ ?_
  change { w with epoch := (f w.epoch).2 } = { w with epoch := w.epoch.act x }
  rw [h]

/-- Calls to the compiler are one action. -/
theorem call_performs (cs : List (CompilerCall P M)) (h : C (.calls cs)) :
    Expected.Performs (act F) (In C) (call cs) :=
  .of_action (fun _ => .calls cs) (fun _ => ⟨h, trivial⟩) fun _ => rfl

/-- Opening a session is one action. -/
theorem epochSession_performs (env : CompilerReplies P) (h : C (.session env)) :
    Expected.Performs (act F) (In C) (epochSession env : Method P M Unit) :=
  .of_action (fun _ => .session env) (fun _ => ⟨h, trivial⟩) fun _ => rfl

/-- The update of every element of a list, as one update. -/
theorem forEach_modifyEpoch {β : Type} (g : β → EpochState P → EpochState P) (bs : List β)
    (w : World P M) :
    Expected.forEach (fun b => (modifyEpoch (g b) : Method P M Unit)) bs w =
      (.ok (), { w with epoch := bs.foldl (fun s b => g b s) w.epoch }) := by
  induction bs generalizing w with
  | nil => rfl
  | cons b bs ih =>
    rw [Expected.forEach_cons]
    exact ih { w with epoch := g b w.epoch }

/-! ## Resolving an address -/

/-- Words are read as a polynomial when there is a ring dimension, the address is live, and the
words are as many. -/
theorem components_ok {a : DevAddr} {n : UInt64} {s : DeviceAllocator} {values : List UInt64}
    (h : DeviceAllocator.components a n s = .ok values) :
    n ≠ 0 ∧ a ∈ s.allocSet ∧ s.shadow a = some values ∧ values.length = n.toNat := by
  unfold DeviceAllocator.components at h
  split_ifs at h with h₁ h₂ h₃
  rcases hs : s.shadow a with _ | values'
  · rw [hs] at h
    cases h
  · rw [hs] at h
    dsimp only at h
    split_ifs at h with h₄
    cases h
    exact ⟨h₁, h₂, rfl, not_not.mp h₄⟩

/-- Components are of the wrong number when the words are. -/
theorem components_mismatch {a : DevAddr} {n : UInt64} {s : DeviceAllocator}
    (h : DeviceAllocator.components a n s = .error .shadowSizeMismatch) :
    ∃ values, s.shadow a = some values ∧ values.length ≠ n.toNat := by
  unfold DeviceAllocator.components at h
  rcases hs : s.shadow a with _ | values
  · rw [hs] at h
    split_ifs at h <;> cases h
  · rw [hs] at h
    dsimp only at h
    split_ifs at h <;> first | exact ⟨values, rfl, ‹_›⟩ | cases h

/-- A bound address resolves to its binding. -/
theorem lookup_bound {w : World P M} {a : DevAddr} {poly : P} (h : w.binding a = some poly) :
    lookupOrCreateLocked F a w = (.ok poly, w) := by
  unfold binding at h
  rw [lookupOrCreateLocked, Expected.get_bind_run, h]
  rfl

/-- An unbound address whose words are those of a polynomial is promoted. -/
theorem lookup_promotes {w : World P M} {a : DevAddr} {values : List UInt64}
    (h : w.binding a = none)
    (hc : DeviceAllocator.components a w.config.ringDim w.allocator = .ok values) :
    lookupOrCreateLocked F a w = (.ok (w.shadowPoly F a), w.act F (.promote a)) := by
  have hs : w.shadowPoly F a = F.fromData values w.config.ringDim := by
    rw [shadowPoly, shadow, (components_ok hc).2.2.1, Option.getD_some]
  have hextract : extractSource a w.config.ringDim w =
      (.ok values, { w with allocator := w.allocator.act (.evict a) }) := by
    unfold extractSource
    rw [Expected.attempt_bind_run, onAllocator, Expected.zoom_run,
      DeviceAllocator.extractPolynomialComponents, hc]
    rfl
  unfold binding at h
  rw [lookupOrCreateLocked, Expected.get_bind_run, h]
  dsimp only
  rw [Expected.bind_run_ok hextract, act, hs]
  rfl

/-- Resolving fails for an unbound address without such words, and drops at most words of another
size. -/
theorem lookup_fails {w : World P M} {a : DevAddr} {e : HazeInternalError} (h : w.binding a = none)
    (hc : DeviceAllocator.components a w.config.ringDim w.allocator = .error e) :
    lookupOrCreateLocked F a w =
      (.error (if e = .noData then .sourceUnavailable else e),
        if e = .shadowSizeMismatch then w.act F (.allocator (.evict a)) else w) := by
  have hextract : extractSource a w.config.ringDim w =
      (.error (if e = .noData then .sourceUnavailable else e),
        if e = .shadowSizeMismatch then w.act F (.allocator (.evict a)) else w) := by
    unfold extractSource
    rw [Expected.attempt_bind_run, onAllocator, Expected.zoom_run,
      DeviceAllocator.extractPolynomialComponents, hc]
    cases e <;> rfl
  unfold binding at h
  rw [lookupOrCreateLocked, Expected.get_bind_run, h]
  dsimp only
  rw [Expected.bind_run_error hextract]

/-- An upload binds the words of a polynomial as an input, and leaves them in the allocator. -/
theorem tagH2dInput_binds {w : World P M} {a : DevAddr} {values : List UInt64}
    (hc : DeviceAllocator.components a w.config.ringDim w.allocator = .ok values) :
    tagH2dInputLocked F a w = (.ok (), { w with
      epoch := (w.epoch.bindInput a (F.fromData values w.config.ringDim)).dropTag a
      compiler := w.compiler ++
        [.tagInput (.hazeIn w.epoch.inputCounter) (F.fromData values w.config.ringDim)] }) := by
  have hread : (onAllocator (DeviceAllocator.readPolynomialComponents a w.config.ringDim) w :
      _ × World P M) = (.ok values, w) := by
    rw [onAllocator, Expected.zoom_run, DeviceAllocator.readPolynomialComponents,
      Expected.query_run, hc]
  unfold tagH2dInputLocked
  rw [Expected.get_bind_run, if_neg (components_ok hc).1, Expected.bind_run_ok hread]
  rfl

/-- Words that are not those of a polynomial are not bound. -/
theorem tagH2dInput_fails {w : World P M} {a : DevAddr} {e : HazeInternalError}
    (hc : DeviceAllocator.components a w.config.ringDim w.allocator = .error e) :
    ∃ e', tagH2dInputLocked F a w = (.error e', w) := by
  unfold tagH2dInputLocked
  rw [Expected.get_bind_run]
  split_ifs
  · exact ⟨_, rfl⟩
  · refine ⟨e, Expected.bind_run_error ?_⟩
    rw [onAllocator, Expected.zoom_run, DeviceAllocator.readPolynomialComponents,
      Expected.query_run, hc]

/-- A lookup does what a read may do. -/
theorem lookup_reads (a : DevAddr) :
    Expected.Performs (act F) (In Action.Reads) (lookupOrCreateLocked F a) := by
  intro w
  rcases hb : w.binding a with _ | poly
  · rcases hc : DeviceAllocator.components a w.config.ringDim w.allocator with e | values
    · have hf := congrArg Prod.snd (lookup_fails (F := F) hb hc)
      dsimp only at hf
      split_ifs at hf with he
      · obtain ⟨values, hs, hl⟩ := components_mismatch (he ▸ hc)
        exact .of_action (.allocator (.evict a)) ⟨trivial, values, hs, hl⟩ hf
      · exact .of_unchanged hf
    · obtain ⟨hn, hlive, hs, hl⟩ := components_ok hc
      exact .of_action (.promote a) ⟨trivial, hb, hlive, hn, values, hs, hl⟩
        (by rw [lookup_promotes hb hc])
  · exact .of_unchanged (by rw [lookup_bound hb])

/-- An address that was resolved is bound to what it resolved to. -/
theorem lookup_binds {w w' : World P M} {a : DevAddr} {poly : P}
    (h : lookupOrCreateLocked F a w = (.ok poly, w')) : w'.binding a = some poly := by
  rcases hb : w.binding a with _ | poly'
  · rcases hc : DeviceAllocator.components a w.config.ringDim w.allocator with e | values
    · rw [lookup_fails hb hc] at h
      cases h
    · rw [lookup_promotes hb hc] at h
      cases h
      exact AList.lookup_insert _
  · rw [lookup_bound hb] at h
    cases h
    exact hb

end

end World

end Haze
