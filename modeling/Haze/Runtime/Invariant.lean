import Haze.Runtime.Calls

/-!
# The runtime's invariant

`World.Inv` holds in every state that a program reaches: the invariants of the allocator and of the
epoch, the size of an allocation, which follows the ring dimension, and that only an initialized
backend records. The epoch's invariant alone holds whatever happens to the rest of the state between
the calls' critical sections.
-/

namespace Haze

variable {P M : Type} {F : Fhetch P M}

namespace World

/-- The invariant of the whole state. -/
structure Inv (w : World P M) : Prop where
  epoch : w.epoch.Valid
  allocator : w.allocator.Sound
  /-- An allocation has a word for each component. -/
  size : w.allocator.polyBytes = w.config.ringDim * 8
  initialized : w.epoch.recording = true → w.initialized = true

/-- The invariant holds at the start of the process. -/
theorem inv_init : (init : World P M).Inv where
  epoch := EpochState.valid_init
  allocator := DeviceAllocator.sound_init
  size := rfl
  initialized h := nomatch h

/-- Every action keeps the epoch's invariant. -/
theorem epoch_valid_act {w : World P M} {x : Action P M} (hx : w.Allowed x) (h : w.epoch.Valid) :
    (w.act F x).epoch.Valid := by
  cases x with
  | epoch x => exact h.act x hx
  | promote a => exact h.act (.bindInput a (w.shadowPoly F a)) trivial
  | session env =>
    obtain ⟨recording, _, _, -, he⟩ := session_frame (F := F) env w
    rw [he]
    exact h.recording recording
  | clearState => exact EpochState.valid_init
  | reset => exact EpochState.valid_init
  | _ => exact h

/-- Every action keeps the allocator's invariant. -/
theorem allocator_sound_act {w : World P M} {x : Action P M} (hx : w.Allowed x)
    (h : w.allocator.Sound) : (w.act F x).allocator.Sound := by
  cases x with
  | allocator x =>
    refine h.act x ?_
    cases x with
    | evict a => trivial
    | _ => exact hx
  | promote a => exact h.act (.evict a) trivial
  | ringDimension n => exact h.setPolynomialSize (n * 8)
  | session env =>
    obtain ⟨_, _, _, -, he⟩ := session_frame (F := F) env w
    rw [he]
    exact h
  | reset => exact DeviceAllocator.sound_init
  | _ => exact h

/-- No action changes whether the compiler records, but a session and the end of an epoch. -/
theorem recording_act (s : EpochState P) (x : EpochAction P)
    (h : (s.act x).recording = true) : s.recording = true := by
  have hb := congrArg (fun b => b.2.2) (s.bindings_act x)
  change (s.act x).recording = _ at hb
  rw [h] at hb
  cases x with
  | clear => cases hb
  | _ => exact hb.symm

/-- A session records only with an initialized backend. -/
theorem initialized_session {w : World P M} (env : CompilerReplies P)
    (h : w.epoch.recording = true → w.initialized = true) :
    (w.act F (.session env)).epoch.recording = true → (w.act F (.session env)).initialized = true := by
  have hi : (ensureInitialized env w).epoch.recording = true →
      (ensureInitialized env w).initialized = true := by
    unfold ensureInitialized
    split_ifs <;> first | exact h | exact fun _ => rfl
  unfold act ensureRecordingLocked
  dsimp only
  split_ifs with hr
  · exact fun _ => (Bool.and_eq_true_iff.mp hr).1
  · exact hi

/-- Every action keeps the invariant. -/
theorem Inv.act {w : World P M} {x : Action P M} (hx : w.Allowed x) (h : w.Inv) :
    (w.act F x).Inv := by
  -- The size and the flag are kept by each action on its own.
  refine ⟨epoch_valid_act hx h.epoch, allocator_sound_act hx h.allocator, ?_, ?_⟩
  · cases x with
    | allocator x => exact (w.allocator.polyBytes_act x).trans h.size
    | ringDimension n =>
      rcases w.allocator.setPolynomialSize_cases (n * 8) with ⟨hsame, he⟩ | ⟨-, he⟩
      · change (w.allocator.setPolynomialSize (n * 8)).polyBytes = n * 8
        rw [he, hsame]
      · change (w.allocator.setPolynomialSize (n * 8)).polyBytes = n * 8
        rw [he]
    | config c =>
      change w.allocator.polyBytes = c.ringDim * 8
      rw [hx, h.size]
    | session env =>
      obtain ⟨_, _, _, -, he⟩ := session_frame (F := F) env w
      rw [he]
      exact h.size
    | reset => rfl
    | _ => exact h.size
  -- A recording is opened by a session alone, which sets the flag first.
  · cases x with
    | epoch x => exact fun hr => h.initialized (recording_act w.epoch x hr)
    | promote a =>
      exact fun hr => h.initialized (recording_act w.epoch (.bindInput a (w.shadowPoly F a)) hr)
    | session env => exact initialized_session env h.initialized
    | clearState => exact fun hr => nomatch hr
    | reset => exact fun hr => nomatch hr
    | _ => exact h.initialized

/-- Every call keeps the invariant. -/
theorem Inv.after {w : World P M} (h : w.Inv) (i : Invocation P) : (w.after F i).Inv :=
  (Call.performs i.env i.call w).preserves (fun _ _ hx hw => hw.act hx.2) h

/-- Every program keeps the invariant. -/
theorem Inv.runAll {w : World P M} (h : w.Inv) (is : List (Invocation P)) :
    (runAll F w is).Inv := by
  induction is generalizing w with
  | nil => exact h
  | cons i is ih => exact ih (h.after i)

/-- The invariant holds in every state that a program reaches. -/
theorem Reachable.inv {w : World P M} (h : w.Reachable F) : w.Inv := by
  obtain ⟨is, rfl⟩ := h
  exact inv_init.runAll is

/-! ## The size of an allocation -/

/-- The number of words of an allocation is the ring dimension, unless its size in bytes wraps. -/
theorem Inv.wantElems {w : World P M} (h : w.Inv) :
    w.allocator.wantElems = w.config.ringDim.toNat % 2^61 ∧
      w.allocator.polyBytes.toNat = 8 * w.allocator.wantElems := by
  unfold DeviceAllocator.wantElems
  rw [UInt64.toNat_div, h.size, UInt64.toNat_mul]
  have hn := w.config.ringDim.toNat_lt
  have h8 : (8 : UInt64).toNat = 8 := rfl
  rw [h8]
  omega

/-- An address with words is live. -/
theorem Inv.live_of_shadow {w : World P M} (h : w.Inv) {a : DevAddr} {values : List UInt64}
    (hs : w.shadow a = some values) : a ∈ w.allocator.allocSet :=
  h.allocator.shadow_live a (UMap.mem_of_lookup hs)

end World

/-! ## Critical sections -/

/-- What one thread does to the state without releasing the epoch's lock in between: a whole call,
the second half of an upload or of a call that clears or frees an address, or anything to the
allocator or the configuration. -/
inductive CriticalSection (P : Type) where
  | call (i : Invocation P)
  | tagH2dInput (env : CompilerReplies P) (addrs : List DevAddr)
  | invalidate (ptr : DevAddr)
  | allocator (s : DeviceAllocator)
  | config (c : Config)

namespace CriticalSection

open World

/-- The state after a critical section. -/
def run (F : Fhetch P M) (w : World P M) : CriticalSection P → World P M
  | .call i => w.after F i
  | .tagH2dInput env addrs =>
    ((epochSession env >>= fun _ => Expected.forEach (tagH2dInputLocked F) addrs : Method P M Unit)
      w).2
  | .invalidate ptr => (invalidateNonNull ptr w).2
  | .allocator s => { w with allocator := s }
  | .config c => { w with config := c }

/-- Every critical section keeps the epoch's invariant. -/
theorem run_valid {w : World P M} (h : w.epoch.Valid) (x : CriticalSection P) :
    (x.run F w).epoch.Valid := by
  have hact : ∀ (C : Action P M → Prop) (w : World P M) x, w.In C x → w.epoch.Valid →
      (w.act F x).epoch.Valid := fun _ _ _ hx hw => epoch_valid_act hx.2 hw
  cases x with
  | call i => exact (Call.performs i.env i.call w).preserves (I := fun w => w.epoch.Valid) (hact _) h
  | tagH2dInput env addrs =>
    have hp : Opens F env (Action.Uploads fun _ => True)
        (epochSession env >>= fun _ => Expected.forEach (tagH2dInputLocked F) addrs) w :=
      ⟨_, rfl, .forEach fun a _ => tagH2dInputLocked_uploads trivial⟩
    exact hp.performs.preserves (I := fun w => w.epoch.Valid) (hact _) h
  | invalidate ptr =>
    have hp : Expected.PerformsAt (act F) (In (Action.Frees fun _ => True))
        (invalidateNonNull ptr) w := invalidateNonNull_frees trivial w
    exact hp.preserves (I := fun w => w.epoch.Valid) (hact _) h
  | allocator s => exact h
  | config c => exact h

/-- The epoch's invariant holds whatever sequence of critical sections was run. -/
theorem runAll_valid (xs : List (CriticalSection P)) :
    (xs.foldl (run F) (World.init : World P M)).epoch.Valid := by
  have hall : ∀ w : World P M, w.epoch.Valid → (xs.foldl (run F) w).epoch.Valid := by
    induction xs with
    | nil => exact fun w h => h
    | cons x xs ih => exact fun w h => ih _ (run_valid h x)
  exact hall _ EpochState.valid_init

end CriticalSection

end Haze
