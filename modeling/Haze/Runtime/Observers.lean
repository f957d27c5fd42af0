import Haze.Core.ScalarRing
import Haze.Runtime.Sections

/-!
# The ring dimension and the size of a polynomial between the sections of the calls

Threads make their calls section by section, in any order (`Threads.step`). A lookup and the tag of
an upload take three steps of their thread: the ring dimension is read, the words are read from the
allocator, and the address is bound. The locks that keep some of these orders out are not modelled.
What stands between two of the sections that read or change the pair is one step here; cut further,
it would keep the pair all the same.

The setter changes the dimension and the size at once, but it may do so between the two reads of
another thread, and a reset changes them one after the other. While no reader is left with a size
that is more than that of its dimension, and none that has evicted or bound something with one that
is less, the allocator finds the size of the dimension that was read, or refuses a call that has
evicted and bound nothing (`observers_consistent`).
-/

namespace Haze

variable {P M T : Type}

open World

/-! ## One thread -/

/-- Where a thread is. What is left of its call goes on with the result of the section. -/
inductive Phase (P M : Type) where
  | idle
  /-- Before a section. -/
  | entering (a : Section P M) (next : a.Result → Code P M HazeError)
  /-- The ring dimension is read, and the allocator comes next. -/
  | reading (k : Observer) (addr : DevAddr) (ringDim : UInt64)
      (next : k.Result P → Code P M HazeError)
  /-- The words are read, and the binding comes next. -/
  | binding (k : Observer) (addr : DevAddr) (ringDim : UInt64) (values : List UInt64)
      (next : k.Result P → Code P M HazeError)

/-- A thread. -/
structure Thread (P M : Type) where
  /-- The calls that are still to be made. -/
  calls : List (Invocation P)
  phase : Phase P M
  /-- Whether the call that is being made may have bound an address or taken the words of one. -/
  touched : Bool
  /-- The codes of the calls that have returned. -/
  replies : List HazeError

namespace Thread

/-- Come to the next section, or return. -/
def enter (th : Thread P M) (touched : Bool) : Code P M HazeError → Thread P M
  | .done r =>
    { th with phase := .idle, touched := touched, replies := th.replies ++ [publicCode r] }
  | .enter a next => { th with phase := .entering a next, touched := touched }

/-- Go on with the result of a section. An error is returned. -/
def goOn {α : Type} (th : Thread P M) (touched : Bool) (next : α → Code P M HazeError) :
    Except HazeInternalError α → Thread P M
  | .ok a => th.enter touched (next a)
  | .error e => th.enter touched (.done (.error e))

/-- One step of a thread, on the state that all share. -/
def step (F : Fhetch P M) (th : Thread P M) (w : World P M) : Thread P M × World P M :=
  match th.phase with
  | .idle =>
    match th.calls with
    | [] => (th, w)
    | i :: is => ({ th with calls := is }.enter false (i.call.code F i.env), w)
  | .entering (.update u) next => (th.enter (th.touched || u.binds) (next w), u.run w)
  | .entering (.observe k addr) next =>
    match k.start addr w with
    | some r => (th.goOn th.touched next r, w)
    | none => ({ th with phase := .reading k addr w.config.ringDim next }, w)
  | .reading k addr n next =>
    match k.take addr n w with
    | (.ok values, w') => ({ th with phase := .binding k addr n values next }, w')
    | (.error e, w') => (th.enter th.touched (.done (.error e)), w')
  | .binding k addr n values next =>
    (th.goOn true next (k.bind F addr values n w).1, (k.bind F addr values n w).2)

/-- The dimension that the thread has read and not yet taken to the allocator. -/
def read (th : Thread P M) : Option UInt64 :=
  match th.phase with
  | .reading _ _ n _ => some n
  | _ => none

/-- The dimension that the thread sets in its next step. -/
def sets (th : Thread P M) : Option UInt64 :=
  match th.phase with
  | .entering (.update (.setRingDimension n)) _ => some n
  | _ => none

/-- Whether the thread resets the allocator in its next step. -/
def resets (th : Thread P M) : Bool :=
  match th.phase with
  | .entering (.update .resetAllocator) _ => true
  | _ => false

/-- Whether the thread reads the dimension in its next step, for the allocator. -/
def observes (th : Thread P M) (w : World P M) : Bool :=
  match th.phase with
  | .entering (.observe k addr) _ => (k.start addr w).isNone
  | _ => false

/-- What a step does to the pair, and what its thread has read after it. -/
inductive Change (th : Thread P M) (w : World P M) : Thread P M × World P M → Prop where
  | other {th' : Thread P M} {w' : World P M} (hpair : SamePair w w') (hread : th'.read = none) :
      Change th w (th', w')
  | observe {th' : Thread P M} (hobserves : th.observes w = true)
      (hread : th'.read = some w.config.ringDim) (htouched : th'.touched = th.touched) :
      Change th w (th', w)
  | set {th' : Thread P M} {n : UInt64} (hsets : th.sets = some n) (hread : th'.read = none) :
      Change th w (th', (setRingDimension n w).2)
  | resetAllocator {th' : Thread P M} (hresets : th.resets = true) (hread : th'.read = none) :
      Change th w (th', { w with allocator := .init })
  | resetConfig {th' : Thread P M} (hread : th'.read = none) :
      Change th w (th', { w with config := .init })

section

variable {F : Fhetch P M}

/-- Between two sections nothing is read. -/
@[simp] theorem read_enter (th : Thread P M) (touched : Bool) (code : Code P M HazeError) :
    (th.enter touched code).read = none := by
  cases code <;> rfl

/-- Behind a step of its call a thread has no dimension read. -/
@[simp] theorem read_goOn {α : Type} (th : Thread P M) (touched : Bool)
    (next : α → Code P M HazeError) (r : Except HazeInternalError α) :
    (th.goOn touched next r).read = none := by
  cases r with
  | ok a => exact read_enter ..
  | error e => rfl

/-- Every step is one of the changes. -/
theorem step_change (th : Thread P M) (w : World P M) : Change th w (th.step F w) := by
  obtain ⟨calls, phase, touched, replies⟩ := th
  -- One step of a thread, by where it stands.
  cases phase with
  | idle =>
    cases calls with
    | nil => exact .other (refl_of SamePair w) rfl
    | cons i is => exact .other (refl_of SamePair w) (read_enter ..)
  | entering a next =>
    cases a with
    | update u =>
      cases u with
      | other binds f pair bindings => exact .other (pair w) (read_enter ..)
      | setRingDimension n => exact .set rfl (read_enter ..)
      | resetAllocator => exact .resetAllocator rfl (read_enter ..)
      | resetConfig => exact .resetConfig (read_enter ..)
    | observe k addr =>
      -- The check of the lookup decides whether the thread goes on to read.
      rcases hstart : k.start addr w with _ | r
      · simp only [step, hstart]
        refine .observe ?_ rfl rfl
        change (k.start addr w).isNone = true
        rw [hstart]
        rfl
      · simp only [step, hstart]
        exact .other (refl_of SamePair w) (read_goOn ..)
  | reading k addr n next =>
    obtain ⟨shadow, hshadow⟩ := k.take_frame addr n w
    -- Reading and binding keep both sizes, whether they succeed or not.
    rcases htake : k.take addr n w with ⟨e | values, w'⟩
    · rw [htake] at hshadow
      simp only [step, htake]
      exact .other (by rw [show w' = _ from hshadow]; exact ⟨rfl, rfl⟩) (read_enter ..)
    · rw [htake] at hshadow
      simp only [step, htake]
      exact .other (by rw [show w' = _ from hshadow]; exact ⟨rfl, rfl⟩) rfl
  | binding k addr n values next =>
    obtain ⟨hconfig, hallocator⟩ := k.bind_frame F addr values n w
    exact .other ⟨congrArg Config.ringDim hconfig, congrArg DeviceAllocator.polyBytes hallocator⟩
      (read_goOn ..)

/-! ## A call without interruption -/

/-- The steps of one thread. -/
def steps (F : Fhetch P M) : ℕ → Thread P M × World P M → Thread P M × World P M
  | 0, x => x
  | k + 1, x => steps F k (x.1.step F x.2)

/-- The thread returns a code, and leaves a state. -/
def Returns (F : Fhetch P M) (th th' : Thread P M) (w : World P M) (r : HazeError × World P M) :
    Prop :=
  ∃ k touched, steps F k (th', w) =
    ({ th with phase := .idle, touched := touched, replies := th.replies ++ [r.1] }, r.2)

/-- A thread returns what it returns after its next step. -/
theorem Returns.of_step {th th' : Thread P M} {w : World P M} {r : HazeError × World P M}
    (h : Returns F th (th'.step F w).1 (th'.step F w).2 r) : Returns F th th' w r := by
  obtain ⟨k, touched, h⟩ := h
  exact ⟨k + 1, touched, h⟩

/-- The next phase is that of a thread with the same calls and replies. -/
theorem enter_congr {th th' : Thread P M} (hcalls : th'.calls = th.calls)
    (hreplies : th'.replies = th.replies) (touched : Bool) (code : Code P M HazeError) :
    th'.enter touched code = th.enter touched code := by
  cases code with
  | done r => simp only [enter, hcalls, hreplies]
  | enter a next => simp only [enter, hcalls, hreplies]

/-- An error of a section is returned. -/
theorem exec_error {a : Section P M} {next : a.Result → Code P M HazeError} {w w' : World P M}
    {e : HazeInternalError} (h : Section.run F a w = (.error e, w')) :
    Code.exec F (.enter a next) w = (toPublicError e, w') := by
  unfold Code.exec
  rw [Resumption.run_enter, Expected.bind_run_error h]
  rfl

/-- The sections after one that has a result. -/
theorem exec_ok {a : Section P M} {next : a.Result → Code P M HazeError} {w w' : World P M}
    {b : a.Result} (h : Section.run F a w = (.ok b, w')) :
    Code.exec F (.enter a next) w = Code.exec F (next b) w' := by
  unfold Code.exec
  rw [Resumption.run_enter, Expected.bind_run_ok h]

/-- The sections of a call, one after the other, return what the call returns. -/
theorem returns_exec (code : Code P M HazeError) (th : Thread P M) (touched : Bool)
    (w : World P M) : Returns F th (th.enter touched code) w (code.exec F w) := by
  induction code generalizing touched w with
  | done r => exact ⟨0, touched, rfl⟩
  | enter a next ih =>
    -- What is left of the call once the section has its result.
    have hrest : ∀ (th' : Thread P M), th'.calls = th.calls → th'.replies = th.replies →
        ∀ touched r w', Section.run F a w = (r, w') →
          Returns F th (th'.goOn touched next r) w' (Code.exec F (.enter a next) w) := by
      intro th' hcalls hreplies touched r w' hrun
      rcases r with e | b
      · rw [exec_error hrun, goOn, enter_congr hcalls hreplies]
        exact ⟨0, touched, rfl⟩
      · rw [exec_ok hrun, goOn, enter_congr hcalls hreplies]
        exact ih b touched w'
    refine .of_step ?_
    cases a with
    | update u => exact hrest (th.enter touched (.enter (.update u) next)) rfl rfl _ (.ok w) _ rfl
    | observe k addr =>
      rcases hstart : k.start addr w with _ | r
      · have hrun : Section.run F (.observe k addr) w =
            (k.take addr w.config.ringDim >>= fun values =>
              k.bind F addr values w.config.ringDim) w := Observer.run_of_reads hstart
        simp only [enter, step, hstart]
        refine .of_step ?_
        rcases htake : k.take addr w.config.ringDim w with ⟨e | values, w'⟩
        · rw [Expected.bind_run_error htake] at hrun
          simp only [step, htake]
          exact hrest _ rfl rfl _ (.error e) w' hrun
        · rw [Expected.bind_run_ok htake] at hrun
          simp only [step, htake]
          exact .of_step (hrest _ rfl rfl _ _ _ hrun)
      · simp only [enter, step, hstart]
        exact hrest _ rfl rfl _ r w (Observer.run_of_start hstart)

end

end Thread

/-! ## Several threads -/

/-- The state of the process with that of each thread. -/
structure Threads (T P M : Type) where
  world : World P M
  thread : T → Thread P M

namespace Threads

/-- The start of the process, with the calls that each thread makes. -/
def start (programs : T → List (Invocation P)) : Threads T P M :=
  ⟨.init, fun t => ⟨programs t, .idle, false, []⟩⟩

/-- A thread takes one step. -/
def step [DecidableEq T] (F : Fhetch P M) (s : Threads T P M) (t : T) : Threads T P M :=
  ⟨((s.thread t).step F s.world).2,
    Function.update s.thread t ((s.thread t).step F s.world).1⟩

/-- What the allocator finds in the step that follows a reading of the dimension: the size of that
dimension, or the call fails there, and has neither bound an address nor taken the words of one. -/
def Observes [DecidableEq T] (F : Fhetch P M) (s : Threads T P M) (t : T) : Prop :=
  ∀ n ∈ (s.thread t).read,
    s.world.allocator.polyBytes.toNat = 8 * n.toNat ∨
      ((s.thread t).touched = false ∧ (s.step F t).world = s.world ∧
        ∃ code, code ≠ HazeError.success ∧ (s.step F t).thread t =
          { s.thread t with phase := .idle, replies := (s.thread t).replies ++ [code] })

/-- A step that sets the dimension sets one whose size in bytes does not wrap. Each dimension that a
thread has read and not yet taken to the allocator is the new one or, while the call of that thread
has bound and evicted nothing, is not below it. A step that resets the allocator leaves no reader
behind whose call has bound or evicted something. A call that has done so reads the dimension only
where the size is the dimension's. -/
structure KeepsReads (s : Threads T P M) (t : T) : Prop where
  set : ∀ n ∈ (s.thread t).sets, Config.isSupportedRingDim n = true →
    (s.world.config.configured = true → s.world.config.ringDim = n) →
      n.toNat < 2^61 ∧ ∀ u, ∀ m ∈ (s.thread u).read,
        n = m ∨ ((s.thread u).touched = false ∧ (m = 0 ∨ n ≤ m))
  reset : (s.thread t).resets = true →
    ∀ u, ∀ m ∈ (s.thread u).read, m = 0 ∨ (s.thread u).touched = false
  observe : (s.thread t).observes s.world = true → (s.thread t).touched = true →
    s.world.allocator.polyBytes.toNat = 8 * s.world.config.ringDim.toNat

/-- An option has one word at most: the words are not gone through. -/
local instance {n : Option UInt64} {p : UInt64 → Prop} [DecidablePred p] :
    Decidable (∀ m ∈ n, p m) :=
  n.decidableForallMem

instance [Fintype T] (s : Threads T P M) (t : T) : Decidable (s.KeepsReads t) :=
  decidable_of_iff (_ ∧ _ ∧ _) ⟨fun h => ⟨h.1, h.2.1, h.2.2⟩, fun h => ⟨h.set, h.reset, h.observe⟩⟩

/-- A call that no other thread interrupts: the state, the code and the threads after it. -/
def Completes [DecidableEq T] (F : Fhetch P M) (s : Threads T P M) (t : T) (i : Invocation P)
    (is : List (Invocation P)) : Prop :=
  ∃ k touched, (List.replicate k t).foldl (step F) s =
    ⟨s.world.after F i, Function.update s.thread t
      ⟨is, .idle, touched, (s.thread t).replies ++ [(i.run F s.world).1.code]⟩⟩

/-! ## The invariant -/

/-- The size of an allocation is that of the dimension, or is less while the call that has read the
dimension can still fail without a trace. -/
def Serves (w : World P M) (touched : Bool) (n : UInt64) : Prop :=
  n.toNat < 2^61 ∧ (w.allocator.polyBytes.toNat = 8 * n.toNat ∨
    (touched = false ∧ (n = 0 ∨ w.allocator.polyBytes.toNat < 8 * n.toNat)))

/-- The size is at most that of the dimension, and serves every thread that has read one. -/
structure Sound (s : Threads T P M) : Prop where
  dimension : s.world.config.ringDim.toNat < 2^61
  size : s.world.config.ringDim = 0 ∨
    s.world.allocator.polyBytes.toNat ≤ 8 * s.world.config.ringDim.toNat
  read : ∀ t, ∀ n ∈ (s.thread t).read, Serves s.world (s.thread t).touched n

/-- The invariant holds before any thread has begun. -/
theorem sound_start (programs : T → List (Invocation P)) :
    (start programs : Threads T P M).Sound where
  dimension := Nat.two_pow_pos 61
  size := .inl rfl
  read _ _ h := nomatch h

/-- The size in bytes of a dimension does not wrap below `2^61`. -/
theorem toNat_mul_eight {n : UInt64} (h : n.toNat < 2^61) : (n * 8).toNat = 8 * n.toNat := by
  have h8 : (8 : UInt64).toNat = 8 := rfl
  rw [UInt64.toNat_mul, h8, Nat.mod_eq_of_lt (by omega)]
  omega

section

variable [DecidableEq T] {F : Fhetch P M} {s : Threads T P M} {t : T}

/-- The thread that takes the step has read nothing after it, and the others are served. -/
theorem read_update {th : Thread P M} {w : World P M} (hth : th.read = none)
    (h : ∀ u, ∀ n ∈ (s.thread u).read, Serves w (s.thread u).touched n) (u : T) :
    ∀ n ∈ (Function.update s.thread t th u).read,
      Serves w (Function.update s.thread t th u).touched n := by
  by_cases hu : u = t
  · subst hu
    rw [Function.update_self, hth]
    exact fun n hn => nomatch hn
  · rw [Function.update_of_ne hu]
    exact h u

/-- A setting that is accepted leaves the size of its dimension. -/
theorem setRingDimension_size (F : Fhetch P M) (w : World P M) (n : UInt64) :
    (setRingDimension n w).2 = w ∨
      (Config.isSupportedRingDim n = true ∧
        (w.config.configured = true → w.config.ringDim = n) ∧
        (setRingDimension n w).2.config.ringDim = n ∧
        (setRingDimension n w).2.allocator.polyBytes = n * 8) := by
  rcases setRingDimension_cases (F := F) n w with ⟨⟨hsupported, hconf⟩, he⟩ | ⟨-, he⟩
  · refine .inr ⟨hsupported, hconf, ?_⟩
    rw [he]
    refine ⟨rfl, ?_⟩
    change (w.allocator.setPolynomialSize (n * 8)).polyBytes = n * 8
    rcases w.allocator.setPolynomialSize_cases (n * 8) with ⟨hsame, he⟩ | ⟨-, he⟩
    · rw [he, hsame]
    · rw [he]
  · exact .inl he

/-- A setting that keeps the reads keeps the invariant. -/
theorem Sound.set (F : Fhetch P M) (h : s.Sound) {n : UInt64} {th : Thread P M} (hk : s.KeepsReads t)
    (hsets : (s.thread t).sets = some n) (hread : th.read = none) :
    (⟨(setRingDimension n s.world).2, Function.update s.thread t th⟩ : Threads T P M).Sound := by
  rcases setRingDimension_size F s.world n with he | ⟨hsupported, hconf, hdim, hbytes⟩
  · rw [he]
    -- A setter that is refused, or that sets the same, changes nothing.
    exact ⟨h.dimension, h.size, read_update hread h.read⟩
  · obtain ⟨hlt, hothers⟩ := hk.set n hsets hsupported hconf
    have hsize : (setRingDimension n s.world).2.allocator.polyBytes.toNat = 8 * n.toNat := by
      rw [hbytes, toNat_mul_eight hlt]
    refine ⟨?_, .inr ?_, read_update hread fun u m hm => ?_⟩
    · change (setRingDimension n s.world).2.config.ringDim.toNat < 2^61
      rw [hdim]
      exact hlt
    · change (setRingDimension n s.world).2.allocator.polyBytes.toNat ≤
        8 * (setRingDimension n s.world).2.config.ringDim.toNat
      rw [hdim, hsize]
    -- The threads that are reading have their own size, or a smaller one that is refused.
    · refine ⟨(h.read u m hm).1, ?_⟩
      rw [hsize]
      rcases hothers u m hm with rfl | ⟨htouched, hzero | hle⟩
      · exact .inl rfl
      · exact .inr ⟨htouched, .inl hzero⟩
      · have hnm : n.toNat ≤ m.toNat := hle
        rcases Nat.eq_or_lt_of_le hnm with heq | hlt'
        · exact .inl (congrArg (8 * ·) heq)
        · exact .inr ⟨htouched, .inr (by omega)⟩

/-- Every step that keeps the reads keeps the invariant. -/
theorem Sound.step (h : s.Sound) (hk : s.KeepsReads t) : (s.step F t).Sound := by
  unfold Threads.step
  rcases hstep : (s.thread t).step F s.world with ⟨th, w⟩
  have hchange : (s.thread t).Change s.world (th, w) := hstep ▸ Thread.step_change ..
  cases hchange with
  -- Steps that keep both sizes keep what every thread has read.
  | other hpair hread =>
    obtain ⟨hdim, hsize⟩ := hpair
    refine ⟨?_, ?_, read_update hread fun u n hn => ?_⟩
    · change w.config.ringDim.toNat < _
      rw [hdim]
      exact h.dimension
    · change w.config.ringDim = 0 ∨ w.allocator.polyBytes.toNat ≤ 8 * w.config.ringDim.toNat
      rw [hdim, hsize]
      exact h.size
    · unfold Serves
      rw [hsize]
      exact h.read u n hn
  | observe hobserves hread htouched =>
    refine ⟨h.dimension, h.size, fun u n hn => ?_⟩
    -- The thread that reads now has the size that is set.
    by_cases hu : u = t
    · subst hu
      simp only [Function.update_self] at hn ⊢
      rw [hread] at hn
      cases hn
      refine ⟨h.dimension, ?_⟩
      rw [htouched]
      rcases htouch : (s.thread u).touched with _ | _
      · rcases h.size with hzero | hle
        · exact .inr ⟨rfl, .inl hzero⟩
        · rcases Nat.eq_or_lt_of_le hle with heq | hlt
          · exact .inl heq
          · exact .inr ⟨rfl, .inr hlt⟩
      · exact .inl (hk.observe hobserves htouch)
    · simp only [Function.update_of_ne hu] at hn ⊢
      exact h.read u n hn
  | set hsets hread => exact h.set F hk hsets hread
  -- A reset between the two reads leaves a size of zero, which is smaller than any other.
  | resetAllocator hresets hread =>
    refine ⟨h.dimension, .inr (Nat.zero_le _), read_update hread fun u n hn => ?_⟩
    refine ⟨(h.read u n hn).1, ?_⟩
    rcases Nat.eq_zero_or_pos n.toNat with hzero | hpos
    · exact .inl (by rw [hzero]; rfl)
    · refine .inr ⟨(hk.reset hresets u n hn).resolve_left fun hzero => ?_, .inr ?_⟩
      · rw [hzero] at hpos
        exact absurd hpos (Nat.lt_irrefl 0)
      · exact Nat.mul_pos (by decide) hpos
  | resetConfig hread => exact ⟨Nat.two_pow_pos 61, .inl rfl, read_update hread h.read⟩

/-- While the invariant holds, the allocator finds the size of the dimension that was read, or
refuses the step. -/
theorem Sound.observes (h : s.Sound) (t : T) : s.Observes F t := by
  intro n hn
  rcases (h.read t n hn).2 with heq | ⟨htouched, hsmall⟩
  · exact .inl heq
  -- A size that is too small is refused before the words are touched.
  refine .inr ⟨htouched, ?_⟩
  have hlt : n = 0 ∨ s.world.allocator.polyBytes < n * 8 := by
    refine hsmall.imp_right fun hless => UInt64.lt_iff_toNat_lt.mpr ?_
    rwa [toNat_mul_eight (h.read t n hn).1]
  rcases hth : s.thread t with ⟨calls, phase, touched, replies⟩
  rw [hth] at hn htouched
  cases phase with
  | reading k addr m next =>
    cases hn
    obtain ⟨e, hc, he⟩ := Observer.components_small addr hlt
    obtain ⟨e', hrun⟩ := k.take_refused hc he
    have hstep : (s.thread t).step F s.world =
        (⟨calls, .idle, touched, replies ++ [toPublicError e']⟩, s.world) := by
      rw [hth]
      simp only [Thread.step, hrun]
      rfl
    unfold Threads.step
    rw [hstep]
    exact ⟨rfl, toPublicError e', toPublicError_ne_success e', Function.update_self ..⟩
  | _ => cases hn

/-! ## Calls without interruption -/

/-- The steps of one thread act on the state and on that thread. -/
theorem foldl_replicate (k : ℕ) (s : Threads T P M) (t : T) :
    (List.replicate k t).foldl (Threads.step F) s =
      ⟨(Thread.steps F k (s.thread t, s.world)).2,
        Function.update s.thread t (Thread.steps F k (s.thread t, s.world)).1⟩ := by
  induction k generalizing s with
  | zero => exact congrArg (Threads.mk s.world) (Function.update_eq_self ..).symm
  | succ k ih =>
    rw [List.replicate_succ, List.foldl_cons, ih]
    simp only [Threads.step, Function.update_self, Function.update_idem]
    rfl

/-- A thread that is not interrupted makes its next call as the sequential model does. -/
theorem completes {i : Invocation P} {is : List (Invocation P)}
    (hidle : (s.thread t).phase = .idle) (hcalls : (s.thread t).calls = i :: is) :
    s.Completes F t i is := by
  rcases hth : s.thread t with ⟨calls, phase, touched, replies⟩
  rw [hth] at hidle hcalls
  subst hidle hcalls
  obtain ⟨k, touched', hk⟩ : Thread.Returns F ⟨is, .idle, touched, replies⟩
      ⟨i :: is, .idle, touched, replies⟩ s.world ((i.call.code F i.env).exec F s.world) :=
    .of_step (Thread.returns_exec ..)
  refine ⟨k, touched', ?_⟩
  rw [foldl_replicate, hth, hk, Call.code_exec F i.env i.call s.world]
  rfl

/-! ## Every interleaving -/

/-- In every run of threads that make any calls, section by section and in any order, whose settings
and resets keep the dimensions that were read, the allocator finds the size of the dimension that
the thread has read, or the call fails and has neither bound an address nor evicted one. A call that
is not interrupted is that of the sequential model. -/
theorem observers_consistent (F : Fhetch P M) (programs : T → List (Invocation P)) (ts : List T)
    (h : Expected.Along (step F) KeepsReads (start programs) ts) :
    Expected.Along (step F) (Observes F) (start programs) ts ∧
      ∀ t i is, ((ts.foldl (step F) (start programs)).thread t).phase = .idle →
        ((ts.foldl (step F) (start programs)).thread t).calls = i :: is →
          (ts.foldl (step F) (start programs)).Completes F t i is :=
  ⟨h.mono_of_invariant (I := Sound) (fun _ _ hk hs => hs.step hk) (fun _ t hs _ => hs.observes t)
    (sound_start programs), fun _ _ _ hidle hcalls => completes hidle hcalls⟩

end

end Threads

/-! ## A setting between the two reads -/

/-- One thread sets the dimension twice. Another sets a modulus and the words of an address, and adds
the address to itself. -/
def addUnder (second : UInt64) : Bool → List (Invocation UInt64)
  | false => [⟨scalarReplies, .setRingDimension 1⟩, ⟨scalarReplies, .setRingDimension second⟩]
  | true => [⟨scalarReplies, .config (.setCiphertextModulus 0 17)⟩, ⟨scalarReplies, .malloc true 8⟩,
    ⟨scalarReplies, .memset ⟨kHbmBase⟩ 0 8⟩,
    ⟨scalarReplies, .pp .add ⟨kHbmBase⟩ ⟨kHbmBase⟩ ⟨kHbmBase⟩ 0⟩]

/-- The second setting falls between the two reads of the addition's first lookup. -/
def settingBetween : List Bool :=
  List.replicate 2 false ++ List.replicate 10 true ++ List.replicate 2 false

/-- A setting of the same dimension between the two reads does no harm. -/
theorem observers_consistent_example :
    Expected.Along (Threads.step scalarRing) (Threads.Observes scalarRing)
      (.start (addUnder 1)) (settingBetween ++ List.replicate 4 true) :=
  (Threads.observers_consistent scalarRing _ _ (by decide +kernel)).1

/-- The words then leave the allocator although the size that it finds is not that of the dimension
that was read, and the addition returns success. -/
theorem observers_consistent_counterexample :
    let s := settingBetween.foldl (Threads.step scalarRing) (.start (addUnder 2))
    (s.thread true).read = some 1 ∧ s.world.allocator.polyBytes = 16 ∧
      s.world.shadow ⟨kHbmBase⟩ = some [0] ∧
      (s.step scalarRing true).world.shadow ⟨kHbmBase⟩ = none ∧
      ((List.replicate 4 true).foldl (Threads.step scalarRing) s |>.thread true).replies =
        [.success, .success, .success, .success] ∧
      ¬ Expected.Along (Threads.step scalarRing) (Threads.Observes scalarRing)
        (.start (addUnder 2)) (settingBetween ++ [true]) := by
  refine ⟨by decide +kernel, by decide +kernel, by decide +kernel, by decide +kernel,
    by decide +kernel, fun h => ?_⟩
  have hobserves := ((Expected.along_append.mp h).2).1 1 (by decide +kernel)
  rcases hobserves with hsize | ⟨-, hworld, -⟩
  · exact absurd hsize (by decide +kernel)
  · exact absurd (congrArg (fun w => w.shadow ⟨kHbmBase⟩) hworld) (by decide +kernel)

end Haze
