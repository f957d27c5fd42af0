import Haze.Runtime.Fresh

/-!
# A sequential order for the calls on one address

The threads take the steps of their calls in any order. The calls are put in the order of their
first steps: the copy of an upload, the write of a set, the start of a flush. Before any upload or
set, a flush comes to where the flushes in that order do. Later, the words of the address are those
of the calls in order, and where no thread is between two steps of a call the address is fresh.

A flush that reads an output back to the address while an upload or a set has written its bytes, and
the epoch does not know of it, writes over them (`calls_linearizable_counterexample`). In every run
where no flush does so, what is read of the address is what it is after the calls in order
(`calls_linearizable`).
-/

namespace Haze

variable {P M T : Type}

open World

/-! ## The invariant -/

namespace Process

section

variable (F : Fhetch P M) (addr : DevAddr) (w : World P M) (program : T → List (Job P))
  (s : Process T P M)

/-- The lock of the epoch is held by the thread that is inside a flush. -/
def Exclusive : Prop :=
  ∀ t, s.holder = some t ↔ ∃ env outputs, s.stage t = some (.populating env outputs)

/-- A thread is between the two steps of an upload or a set. -/
def Open : Prop := ∃ t stage, s.stage t = some stage ∧ stage.between = true

/-- A flush has an output of the address to read back. -/
def Overwrites : Prop := ∃ t env outputs, s.stage t = some (.populating env outputs) ∧
  ∃ entry ∈ outputs, entry.1 = addr

/-- An upload will not be tagged: its words cannot be read. -/
def Unfit : Prop :=
  (∃ t env, s.stage t = some (.tagging env)) ∧ s.world.SizedAt addr ∧ ¬ s.world.Fits addr

/-- The state after the calls in order, one after the other. -/
def inOrder (order : List (T × Job P)) : World P M :=
  World.runAll F w (order.map fun call => call.2.invocation addr)

/-- Before any upload or set, a flush comes to the state of the calls in order. -/
structure Untouched (v : World P M) : Prop where
  unopened : ¬ s.Open
  free : s.holder = none → s.world = v
  flushing : ∀ t env outputs, s.stage t = some (.populating env outputs) →
    (readBack env outputs s.world).2 = v

/-- Later, the address has the words of the calls in order, and unless a thread is between two
steps, it is fresh, and no flush writes to it. -/
structure Touched (v : World P M) : Prop where
  mirrors : Mirrors F addr s.world v
  fresh : s.Open ∨ s.world.Fresh F addr ∧ ¬ s.Overwrites addr

/-- Not all calls will return and succeed, if no flush writes between two steps. -/
def Doomed : Prop := s.Unfit addr ∨ s.Open ∧ s.Overwrites addr

/-- The process comes to the state `v` of the calls in order, as far as the address is concerned. -/
def Follows (v : World P M) : Prop := s.Untouched v ∨ s.Touched F addr v

variable [DecidableEq T]

/-- The calls that were started, in order, and then those that were not, are the programs of the
threads. -/
def Orders (order : List (T × Job P)) : Prop :=
  ∀ t, (order.filter (·.1 = t)).map Prod.snd ++ s.calls t = program t

/-- What is read of the address is what it is after the calls that were started, one after the other
in an order that keeps the programs of the threads. -/
def Linearizable : Prop :=
  ∃ order, s.Orders program order ∧ ReadAlike F addr s.world (inOrder F addr w order)

/-- What every step of the threads keeps that does not read back between two steps of a call. -/
def Inv : Prop :=
  s.Failed ∨ s.Exclusive ∧ (s.Doomed addr ∨
    ∃ order, s.Orders program order ∧ s.Follows F addr (inOrder F addr w order))

end

/-- No thread is inside a flush while the lock of the epoch is free. -/
theorem Exclusive.idle {s : Process T P M} (h : s.Exclusive) (hholder : s.holder = none) (u : T)
    (env : CompilerReplies P) (outputs : List (Sigma fun _ : DevAddr => ProbeName)) :
    s.stage u ≠ some (.populating env outputs) := by
  intro hu
  cases hholder.symm.trans ((h u).mpr ⟨env, outputs, hu⟩)

/-- One thread at a time is inside a flush. -/
theorem Exclusive.unique {s : Process T P M} {t u : T} (h : s.Exclusive)
    {env env' : CompilerReplies P}
    {outputs outputs' : List (Sigma fun _ : DevAddr => ProbeName)}
    (ht : s.stage t = some (.populating env outputs))
    (hu : s.stage u = some (.populating env' outputs')) : u = t :=
  Option.some.inj (((h u).mpr ⟨_, _, hu⟩).symm.trans ((h t).mpr ⟨_, _, ht⟩))

/-- While an output is read back to the address, no thread is between two steps. -/
theorem Spares.unopened {s : Process T P M} {t : T} {addr : DevAddr} {stage : Stage P}
    (h : s.Spares addr t) (hstage : s.stage t = some stage)
    (hwrites : stage.writesBack addr = true) :
    ¬ s.Open := by
  rintro ⟨u, stage', hu, hbetween⟩
  have hnone := h (by rw [hstage]; exact hwrites) u
  rw [hu] at hnone
  cases hnone.symm.trans hbetween

/-- The address has the words of the calls in order, unless a flush has an output of it to read
back. -/
theorem Untouched.words {s : Process T P M} {v : World P M} {addr : DevAddr} (F : Fhetch P M)
    (h : s.Untouched v) (hexcl : s.Exclusive) (hover : ¬ s.Overwrites addr) :
    s.world.SameSizes v ∧ v.shadow addr = s.world.shadow addr := by
  rcases hholder : s.holder with _ | u
  · rw [← h.free hholder]
    exact ⟨.refl _, rfl⟩
  · obtain ⟨env, outputs, hu⟩ := (hexcl u).mp hholder
    rw [← h.flushing u env outputs hu]
    exact readBack_keeps F env (fun entry hentry ha =>
      hover ⟨u, env, outputs, hu, entry, hentry, ha⟩) s.world

/-- The words of the calls in order, unless a flush has an output of the address to read back. -/
theorem Follows.words {s : Process T P M} {v : World P M} {F : Fhetch P M} {addr : DevAddr}
    (h : s.Follows F addr v) (hexcl : s.Exclusive) :
    s.Overwrites addr ∨ s.world.SameSizes v ∧ v.shadow addr = s.world.shadow addr := by
  rcases h with h | h
  · by_cases hover : s.Overwrites addr
    · exact .inl hover
    · exact .inr (h.words F hexcl hover)
  · exact .inr ⟨h.mirrors.sizes, h.mirrors.words⟩

/-- One more job is run behind the others. -/
theorem inOrder_append (F : Fhetch P M) (addr : DevAddr) (w : World P M) (order : List (T × Job P))
    (t : T) (job : Job P) : inOrder F addr w (order ++ [(t, job)]) =
      (inOrder F addr w order).after F (job.invocation addr) := by
  rw [inOrder, List.map_append]
  exact List.foldl_append ..

section

variable [DecidableEq T] {F : Fhetch P M} {addr : DevAddr} {w w' v : World P M}
  {program : T → List (Job P)} {s : Process T P M} {t u : T} {rest : List (Job P)}

/-! ## The stages after a step -/

/-- Proceeding changes the stage of the thread alone. -/
theorem stage_proceed (stage : Stage P) :
    (s.proceed t rest stage w').stage u = if u = t then some stage else s.stage u :=
  Function.update_apply ..

/-- Finishing leaves the thread at no stage. -/
theorem stage_finish (reply : Reply) :
    (s.finish t rest reply w').stage u = if u = t then none else s.stage u :=
  Function.update_apply ..

/-- The epoch's mutex stays with one thread while that thread proceeds. -/
theorem Exclusive.proceed (h : s.Exclusive) {stage : Stage P}
    (hholds : stage.holds = true → s.holder = none ∨ s.holder = some t)
    (hidle : stage.holds = false → s.holder ≠ some t) :
    (s.proceed t rest stage w').Exclusive := by
  intro u
  rw [stage_proceed]
  by_cases hu : u = t
  · subst hu
    cases stage with
    | populating env outputs => simp [Process.proceed, Stage.holds]
    | _ => simpa [Process.proceed, Stage.holds] using hidle rfl
  · rw [if_neg hu, ← h u]
    cases stage with
    | populating env outputs =>
      rcases hholds rfl with hholder | hholder
      · simp [Process.proceed, Stage.holds, hholder, Ne.symm hu]
      · simp [Process.proceed, Stage.holds, hholder]
    | _ => rfl

/-- It is given back when the thread finishes. -/
theorem Exclusive.finish (h : s.Exclusive) (reply : Reply) :
    (s.finish t rest reply w').Exclusive := by
  intro u
  rw [stage_finish]
  by_cases hu : u = t
  · subst hu
    simp only [Process.finish, if_true]
    split_ifs with hholder
    · simp
    · simpa using hholder
  · rw [if_neg hu, ← h u]
    simp only [Process.finish]
    split_ifs with hholder
    · simp [hholder, Ne.symm hu]
    · rfl

/-- A step keeps the lock with the thread that is inside a flush. -/
theorem Exclusive.leave (h : s.Exclusive) {turn : Turn P} {progress : Progress P}
    (hturn : s.turn t = some (turn, rest)) (hfree : turn.acquires = true → s.holder = none)
    (hdoes : turn.Does F addr s.world progress w') :
    (s.leave t rest (.ok progress, w')).Exclusive := by
  have hcall : ∀ job, turn = .call job → s.holder ≠ some t := by
    rintro job rfl hholder
    obtain ⟨env, outputs, hstage⟩ := (h t).mp hholder
    cases hstage.symm.trans (turn_call hturn).1
  cases hdoes with
  | copies env bytes nonnull range => exact h.proceed nofun fun _ => hcall _ rfl
  | sets env value nonnull range => exact h.proceed nofun fun _ => hcall _ rfl
  | materializes run => exact h.proceed (fun _ => .inl (hfree rfl)) nofun
  | @populates env _ entry outputs run =>
    exact h.proceed (fun _ => .inr ((h t).mpr ⟨_, _, (turn_resume hturn).1⟩)) nofun
  | _ => exact h.finish _

/-- Leaving a turn changes no other thread's stage. -/
theorem stage_leave (hu : u ≠ t) (r : Except HazeInternalError (Progress P) × World P M) :
    (s.leave t rest r).stage u = s.stage u := by
  obtain ⟨_ | _ | _, w'⟩ := r <;> exact Function.update_of_ne hu ..

/-- It leaves the state of the turn. -/
theorem world_leave (progress : Progress P) : (s.leave t rest (.ok progress, w')).world = w' := by
  cases progress <;> rfl

/-- It leaves the thread the rest of its calls. -/
theorem calls_leave (r : Except HazeInternalError (Progress P) × World P M) :
    (s.leave t rest r).calls = Function.update s.calls t rest := by
  obtain ⟨_ | _ | _, w'⟩ := r <;> rfl

/-- The step of another thread leaves a call between its steps. -/
theorem Open.leave (h : s.Open) (ht : ∀ stage, s.stage t = some stage → stage.between = false)
    (r : Except HazeInternalError (Progress P) × World P M) : (s.leave t rest r).Open := by
  obtain ⟨u, stage, hu, hbetween⟩ := h
  refine ⟨u, stage, (stage_leave ?_ r).trans hu, hbetween⟩
  rintro rfl
  cases (ht stage hu).symm.trans hbetween

/-! ## Runs in which not all calls return and succeed -/

/-- An upload whose words cannot be read is not tagged by any step. -/
theorem Unfit.leave (h : s.Unfit addr) {turn : Turn P} {progress : Progress P}
    (hturn : s.turn t = some (turn, rest)) (hdoes : turn.Does F addr s.world progress w') :
    (s.leave t rest (.ok progress, w')).Unfit addr := by
  -- Words that have lost their size do not get it back.
  obtain ⟨⟨u, env, hu⟩, hsized, hfits⟩ := h
  obtain ⟨hsizes, hstays⟩ := hdoes.sizes
  -- The upload that is under way cannot be tagged.
  refine ⟨⟨u, env, (stage_leave ?_ _).trans hu⟩, ?_, ?_⟩
  · rintro rfl
    have hrefused : ∀ v, tagH2dInput F env addr s.world ≠ (.ok (), v) := by
      intro v hrun
      rcases hc : DeviceAllocator.components addr s.world.config.ringDim s.world.allocator with e | values
      · obtain ⟨e', v', hfails⟩ := tagH2dInput_refused (F := F) env hc
        cases hfails.symm.trans hrun
      · exact hfits (hsized.fits_iff.mpr ⟨values, hc⟩)
    cases turn with
    | call job => cases hu.symm.trans (turn_call hturn).1
    | resume stage =>
      cases hu.symm.trans (turn_resume hturn).1
      cases hdoes with
      | tags run => exact hrefused _ run
  -- The sizes stay what they are, under every turn.
  · rw [SizedAt, world_leave]
    exact hstays hsized
  · rw [world_leave, hsizes.fits]
    exact hfits

/-- A thread that starts a call leaves the flush of another where it is. -/
theorem Overwrites.call (h : s.Overwrites addr) (hidle : s.stage t = none)
    (r : Except HazeInternalError (Progress P) × World P M) :
    (s.leave t rest r).Overwrites addr := by
  obtain ⟨u, env, outputs, hu, hentry⟩ := h
  refine ⟨u, env, outputs, (stage_leave ?_ r).trans hu, hentry⟩
  rintro rfl
  cases hidle.symm.trans hu

/-- While a flush has an output of the address to read back, a call that wrote to it waits for its
second step. -/
theorem Overwrites.leave (hopen : s.Open) (hover : s.Overwrites addr) (hexcl : s.Exclusive)
    (hspares : s.Spares addr t) {turn : Turn P} {progress : Progress P}
    (hturn : s.turn t = some (turn, rest)) (hfree : turn.acquires = true → s.holder = none)
    (hdoes : turn.Does F addr s.world progress w') :
    (s.leave t rest (.ok progress, w')).Open ∧
      (s.leave t rest (.ok progress, w')).Overwrites addr := by
  obtain ⟨u, env, outputs, hu, entry, hentry, haddr⟩ := hover
  have hholder : s.holder = some u := (hexcl u).mpr ⟨env, outputs, hu⟩
  have hwaits : turn.acquires = false := by
    rcases hacquires : turn.acquires
    · rfl
    · cases hholder.symm.trans (hfree hacquires)
  have hother : ∀ job, turn = .call job →
      (s.leave t rest (.ok progress, w')).Open ∧
        (s.leave t rest (.ok progress, w')).Overwrites addr := by
    rintro job rfl
    have hidle := (turn_call hturn).1
    refine ⟨hopen.leave (fun stage hstage => ?_) _,
      Overwrites.call ⟨u, env, outputs, hu, entry, hentry, haddr⟩ hidle _⟩
    cases hidle.symm.trans hstage
  cases hdoes with
  | copies _ bytes nonnull range => exact hother _ rfl
  | sets _ value nonnull range => exact hother _ rfl
  | flushes run => cases hwaits
  | materializes run => cases hwaits
  | tags run => cases hwaits
  | invalidates => cases hwaits
  | @populates env' _ entry' outputs' run =>
    have hstage := (turn_resume hturn).1
    obtain rfl := (hexcl.unique hstage hu).symm
    cases hstage.symm.trans hu
    refine ⟨hopen.leave (fun stage hs => ?_) _, t, env, outputs', ?_, entry, ?_, haddr⟩
    · cases hstage.symm.trans hs
      rfl
    · exact (stage_proceed _).trans (if_pos rfl)
    · refine (List.mem_cons.mp hentry).resolve_left ?_
      rintro rfl
      -- The output is read back to the address while a call is between its steps.
      exact hspares.unopened hstage (decide_eq_true haddr) hopen
  | clears _ =>
    have hstage := (turn_resume hturn).1
    obtain rfl := (hexcl.unique hstage hu).symm
    cases hstage.symm.trans hu
    cases hentry

/-! ## Before any upload or set -/

/-- No other thread is between two steps after one that is not. -/
theorem unopened_leave (h : ¬ s.Open) {r : Except HazeInternalError (Progress P) × World P M}
    (hr : ∀ stage, (s.leave t rest r).stage t = some stage → stage.between = false) :
    ¬ (s.leave t rest r).Open := by
  rintro ⟨u, stage, hu, hbetween⟩
  by_cases hut : u = t
  · subst hut
    cases (hr stage hu).symm.trans hbetween
  · rw [stage_leave hut] at hu
    exact h ⟨u, stage, hu, hbetween⟩

/-- A flush that comes to no outputs is the flush of the calls in order. -/
theorem Untouched.flushes (h : s.Untouched v) (hexcl : s.Exclusive) (hholder : s.holder = none)
    {env : CompilerReplies P} (run : flushedOutputs F env s.world = (.ok none, w')) (reply : Reply) :
    (s.leave t rest (.ok (.replies reply), w')).Untouched
      (v.after F (Job.invocation addr ⟨env, .flush⟩)) := by
  have hlast := (Job.completes F addr ⟨env, .flush⟩ s.world).last
    (Turn.Does.flushes run).run_eq
  rw [← h.free hholder, hlast]
  refine ⟨unopened_leave h.unopened fun stage hstage => ?_, fun _ => rfl, fun u env' outs hu => ?_⟩
  · rw [leave, stage_finish, if_pos rfl] at hstage
    cases hstage
  · rw [leave, stage_finish] at hu
    split_ifs at hu
    exact absurd hu (hexcl.idle hholder u env' outs)

/-- A flush that comes to its outputs comes to the flush of the calls in order. -/
theorem Untouched.materializes (h : s.Untouched v) (hexcl : s.Exclusive) (hholder : s.holder = none)
    {env : CompilerReplies P} {outputs : List (Sigma fun _ : DevAddr => ProbeName)}
    (run : flushedOutputs F env s.world = (.ok (some outputs), w')) :
    (s.leave t rest (.ok (.goesOn (.populating env outputs)), w')).Untouched
      (v.after F (Job.invocation addr ⟨env, .flush⟩)) := by
  have hflush : v.after F (Job.invocation addr ⟨env, .flush⟩) = (readBack env outputs w').2 := by
    refine (Shim.replyWith_state ..).trans ?_
    change (World.flush F env v).2 = _
    rw [flush_cut, ← h.free hholder, Expected.bind_run_ok run]
    rfl
  rw [hflush]
  refine ⟨unopened_leave h.unopened fun stage hstage => ?_, fun hfree => ?_,
    fun u env' outs hu => ?_⟩
  · rw [leave, stage_proceed, if_pos rfl] at hstage
    cases hstage
    rfl
  · cases hfree
  · rw [leave, stage_proceed] at hu
    split_ifs at hu
    · cases hu
      rfl
    · exact absurd hu (hexcl.idle hholder u env' outs)

/-- Reading back one output comes to where reading back the rest does. -/
theorem Untouched.populates (h : s.Untouched v) (hexcl : s.Exclusive) {env : CompilerReplies P}
    {entry : Sigma fun _ : DevAddr => ProbeName}
    {outputs : List (Sigma fun _ : DevAddr => ProbeName)}
    (hstage : s.stage t = some (.populating env (entry :: outputs)))
    (run : populateShadow env entry s.world = (.ok (), w')) :
    (s.leave t rest (.ok (.goesOn (.populating env outputs)), w')).Untouched v := by
  have hrest : (readBack env (entry :: outputs) s.world).2 = (readBack env outputs w').2 := by
    rw [readBack_cons, Expected.bind_run_ok run]
  refine ⟨unopened_leave h.unopened fun stage hs => ?_, fun hfree => ?_, fun u env' outs hu => ?_⟩
  · rw [leave, stage_proceed, if_pos rfl] at hs
    cases hs
    rfl
  · cases hfree
  · rw [leave, stage_proceed] at hu
    split_ifs at hu with hut
    · cases hu
      exact hrest.symm.trans (h.flushing t _ _ hstage)
    · exact absurd (hexcl.unique hstage hu) hut

/-- The end of a flush is that of the flush of the calls in order. -/
theorem Untouched.clears (h : s.Untouched v) (hexcl : s.Exclusive) {env : CompilerReplies P}
    (hstage : s.stage t = some (.populating env [])) (reply : Reply) :
    (s.leave t rest (.ok (.replies reply), clearStateLocked s.world)).Untouched v := by
  refine ⟨unopened_leave h.unopened fun stage hs => ?_, fun _ => h.flushing t _ _ hstage,
    fun u env' outs hu => ?_⟩
  · rw [leave, stage_finish, if_pos rfl] at hs
    cases hs
  · rw [leave, stage_finish] at hu
    split_ifs at hu with hut
    exact absurd (hexcl.unique hstage hu) hut

/-! ## After an upload or a set -/

/-- A step that writes to the address leaves a call between its steps. -/
theorem Touched.of_write {stage : Stage P} (hbetween : stage.between = true)
    (h : Mirrors F addr w' v) : (s.leave t rest (.ok (.goesOn stage), w')).Touched F addr v :=
  ⟨h, .inl ⟨t, stage, (stage_proceed stage).trans (if_pos rfl), hbetween⟩⟩

/-- A flush that starts leaves the address with its words, and has no output of it that is fresh. -/
theorem Touched.flush (h : s.Touched F addr v) (hexcl : s.Exclusive) (hholder : s.holder = none)
    (hidle : s.stage t = none) {env : CompilerReplies P}
    {found : Option (List (Sigma fun _ : DevAddr => ProbeName))}
    (run : flushedOutputs F env s.world = (.ok found, w')) {progress : Progress P}
    (hprogress : ∀ env' outs, progress = .goesOn (.populating env' outs) → found = some outs) :
    (s.leave t rest (.ok progress, w')).Touched F addr
      (v.after F (Job.invocation addr ⟨env, .flush⟩)) := by
  -- A flush changes no words until its outputs are stored.
  obtain ⟨hallocator, hconfig, hepoch, houts⟩ := flushedOutputs_ok run
  have hs : w'.shadow addr = s.world.shadow addr :=
    congrArg (DeviceAllocator.shadow · addr) hallocator
  constructor
  · rw [world_leave]
    exact (h.mirrors.flush env).of_same (.of_eq hallocator hconfig) hs
  -- What an upload has left open stays open.
  rcases h.fresh with hopen | hfresh
  · refine .inl (hopen.leave (fun stage hstage => ?_) _)
    cases hidle.symm.trans hstage
  refine .inr ⟨?_, ?_⟩
  · rw [world_leave]
    exact hfresh.1.of_epoch (.of_eq hallocator hconfig) hs hepoch
  · rintro ⟨u, env', outs, hu, entry, hentry, rfl⟩
    -- The outputs that are now to be stored were pending, and this address is not.
    by_cases hut : u = t
    · subst hut
      rcases progress with reply | stage
      · rw [leave, stage_finish, if_pos rfl] at hu
        cases hu
      · rw [leave, stage_proceed, if_pos rfl] at hu
        cases hu
        rw [houts outs (hprogress _ _ rfl), mem_outputs] at hentry
        exact hfresh.1.untagged (UMap.mem_of_lookup hentry)
    · rw [stage_leave hut] at hu
      exact hexcl.idle hholder u env' outs hu

/-- A step that leaves the address fresh, and no thread inside a flush. -/
theorem Touched.closes (h : s.Touched F addr v) (hallocator : w'.allocator = s.world.allocator)
    (hconfig : w'.config = s.world.config) (hfresh : w'.Fresh F addr)
    (hothers : ∀ u, u ≠ t → ∀ env outputs, s.stage u ≠ some (.populating env outputs))
    (reply : Reply) : (s.leave t rest (.ok (.replies reply), w')).Touched F addr v := by
  refine ⟨h.mirrors.of_same (.of_eq hallocator hconfig)
    (congrArg (DeviceAllocator.shadow · addr) hallocator), .inr ⟨hfresh, ?_⟩⟩
  rintro ⟨u, env, outputs, hu, -⟩
  rw [leave, stage_finish] at hu
  split_ifs at hu with hut
  exact hothers u hut env outputs hu

/-- An output that is read back is of another address. -/
theorem Touched.populates (h : s.Touched F addr v) (hexcl : s.Exclusive)
    (hspares : s.Spares addr t) {env : CompilerReplies P}
    {entry : Sigma fun _ : DevAddr => ProbeName}
    {outputs : List (Sigma fun _ : DevAddr => ProbeName)}
    (hstage : s.stage t = some (.populating env (entry :: outputs)))
    (run : populateShadow env entry s.world = (.ok (), w')) :
    (s.leave t rest (.ok (.goesOn (.populating env outputs)), w')).Touched F addr v := by
  -- The output is another address: this one is open, which is excluded, or not tagged.
  have hother : addr ≠ entry.1 := by
    rintro rfl
    rcases h.fresh with hopen | ⟨-, hnone⟩
    · exact hspares.unopened hstage (decide_eq_true rfl) hopen
    · exact hnone ⟨t, env, _, hstage, entry, List.mem_cons_self .., rfl⟩
  -- So its words and its binding stay.
  obtain ⟨hsizes, hs, hepoch⟩ := populateShadow_others run hother
  refine ⟨h.mirrors.of_same hsizes hs, ?_⟩
  rcases h.fresh with hopen | hfresh
  · refine .inl (hopen.leave (fun stage hs => ?_) _)
    cases hstage.symm.trans hs
    rfl
  refine .inr ⟨?_, ?_⟩
  -- The outputs that are left were there before.
  · exact hfresh.1.of_epoch hsizes hs (.inl hepoch)
  · rintro ⟨u, env', outs, hu, entry', hentry, haddr⟩
    rw [leave, stage_proceed] at hu
    split_ifs at hu with hut
    · cases hu
      exact hfresh.2 ⟨t, env, _, hstage, entry', List.mem_cons_of_mem _ hentry, haddr⟩
    · exact hut (hexcl.unique hstage hu)

/-! ## Any number of steps -/

/-- A call that starts comes after those that were started. -/
theorem Orders.call {order : List (T × Job P)} (h : s.Orders program order) {job : Job P}
    (hcalls : s.calls t = job :: rest) (r : Except HazeInternalError (Progress P) × World P M) :
    (s.leave t rest r).Orders program (order ++ [(t, job)]) := by
  intro u
  rw [calls_leave, List.filter_append, List.map_append, List.append_assoc, ← h u]
  congr 1
  by_cases hu : u = t
  · subst hu
    simp [hcalls]
  · simp [Function.update_of_ne hu, Ne.symm hu]

/-- A call that goes on was started. -/
theorem Orders.resume {order : List (T × Job P)} (h : s.Orders program order)
    (hcalls : rest = s.calls t) (r : Except HazeInternalError (Progress P) × World P M) :
    (s.leave t rest r).Orders program order := by
  intro u
  rw [calls_leave, hcalls, Function.update_eq_self]
  exact h u

/-- A call that starts is next in the order. -/
theorem Follows.call (h : s.Follows F addr v) (hexcl : s.Exclusive) {job : Job P}
    {progress : Progress P} (hturn : s.turn t = some (.call job, rest))
    (hfree : (Turn.call job).acquires = true → s.holder = none)
    (hdoes : (Turn.call job).Does F addr s.world progress w') :
    (s.leave t rest (.ok progress, w')).Doomed addr ∨
      (s.leave t rest (.ok progress, w')).Follows F addr (v.after F (job.invocation addr)) := by
  have hidle := (turn_call hturn).1
  -- A step that writes to the address.
  have hwrites : ∀ stage, progress = .goesOn stage → stage.between = true →
      (s.world.SameSizes v → v.shadow addr = s.world.shadow addr →
        (s.leave t rest (.ok progress, w')).Unfit addr ∨
          Mirrors F addr w' (v.after F (job.invocation addr))) →
      (s.leave t rest (.ok progress, w')).Doomed addr ∨
        (s.leave t rest (.ok progress, w')).Follows F addr (v.after F (job.invocation addr)) := by
    rintro stage rfl hbetween hmirrors
    rcases h.words hexcl with hover | ⟨hsizes, hwords⟩
    · refine .inl (.inr ⟨⟨t, stage, ?_, hbetween⟩, hover.call hidle _⟩)
      exact (stage_proceed stage).trans (if_pos rfl)
    · rcases hmirrors hsizes hwords with hunfit | hmirrors
      · exact .inl (.inl hunfit)
      · exact .inr (.inr (.of_write hbetween hmirrors))
  cases hdoes with
  | copies env bytes nonnull range =>
    refine hwrites _ rfl rfl fun hsizes hwords => ?_
    by_cases hfits : s.world.Fits addr
    · exact .inr (upload_mirrors hsizes hwords env bytes nonnull range hfits)
    · refine .inl ⟨⟨t, env, (stage_proceed _).trans (if_pos rfl)⟩, ?_, hfits⟩
      exact overwriting_sized range (List.takeD_length ..)
  | sets env value nonnull range =>
    exact hwrites _ rfl rfl fun hsizes hwords =>
      .inr (set_mirrors hsizes hwords env value nonnull range)
  | flushes run =>
    rcases h with h | h
    · exact .inr (.inl (h.flushes hexcl (hfree rfl) run _))
    · exact .inr (.inr (h.flush hexcl (hfree rfl) hidle run nofun))
  | materializes run =>
    rcases h with h | h
    · exact .inr (.inl (h.materializes hexcl (hfree rfl) run))
    · refine .inr (.inr (h.flush hexcl (hfree rfl) hidle run ?_))
      rintro _ _ ⟨⟩
      rfl

/-- A call that goes on keeps its place in the order. -/
theorem Follows.resume (h : s.Follows F addr v) (hexcl : s.Exclusive) (hspares : s.Spares addr t)
    {stage : Stage P} {progress : Progress P} (hturn : s.turn t = some (.resume stage, rest))
    (hfree : (Turn.resume stage).acquires = true → s.holder = none)
    (hdoes : (Turn.resume stage).Does F addr s.world progress w') :
    (s.leave t rest (.ok progress, w')).Follows F addr v := by
  have hstage := (turn_resume hturn).1
  -- The later turns of an upload and of a memset end what is open.
  cases hdoes with
  | tags run =>
    rcases h with h | h
    · exact absurd ⟨t, _, hstage, rfl⟩ h.unopened
    · obtain ⟨hallocator, hconfig, hfresh⟩ := tagH2dInput_ok run
      exact .inr (h.closes hallocator hconfig hfresh (fun u _ => hexcl.idle (hfree rfl) u) _)
  | invalidates =>
    rcases h with h | h
    · exact absurd ⟨t, _, hstage, rfl⟩ h.unopened
    · refine .inr (h.closes ?_ ?_ (invalidate_fresh F _ addr)
        (fun u _ => hexcl.idle (hfree rfl) u) _)
      · rfl
      · rfl
  | populates run =>
    rcases h with h | h
    -- Storing an output leaves both kinds of state as they are.
    · exact .inl (h.populates hexcl hstage run)
    · exact .inr (h.populates hexcl hspares hstage run)
  -- The end of a flush leaves the epoch empty, and so the address fresh.
  | clears env =>
    rcases h with h | h
    · exact .inl (h.clears hexcl hstage _)
    · refine .inr (h.closes ?_ ?_ (fresh_of_init F addr ?_) (fun u hut env outputs hu => ?_) _)
      · rfl
      · rfl
      · rfl
      · exact hut (hexcl.unique hstage hu)

/-- Every step keeps the invariant. -/
theorem Inv.step (h : s.Inv F addr w program) (hspares : s.Spares addr t) :
    (s.step F addr t).Inv F addr w program := by
  -- A call that has failed is out of the claim from here on.
  rcases h with hfailed | ⟨hexcl, hrest⟩
  · exact .inl (hfailed.step F addr t)
  rcases s.step_cases F addr t with
    hsame | hfailed | ⟨turn, rest, progress, w', hturn, hfree, hdoes, hleave⟩
  · rw [hsame]
    exact .inr ⟨hexcl, hrest⟩
  · exact .inl hfailed
  rw [hleave]
  refine .inr ⟨hexcl.leave hturn hfree hdoes, ?_⟩
  -- Either no order is needed any more, or the state follows the one found so far.
  rcases hrest with (hunfit | ⟨hopen, hover⟩) | ⟨order, horder, hfollows⟩
  · exact .inl (.inl (hunfit.leave hturn hdoes))
  · exact .inl (.inr (hover.leave hopen hexcl hspares hturn hfree hdoes))
  -- A call takes its place in the order with its first turn.
  cases turn with
  | call job =>
    refine (hfollows.call hexcl hturn hfree hdoes).imp_right fun hcall => ?_
    refine ⟨order ++ [(t, job)], horder.call (turn_call hturn).2 _, ?_⟩
    rw [inOrder_append]
    exact hcall
  | resume stage =>
    exact .inr ⟨order, horder.resume (turn_resume hturn).2 _,
      hfollows.resume hexcl hspares hturn hfree hdoes⟩

/-- The invariant holds before any thread has begun. -/
theorem inv_start (F : Fhetch P M) (addr : DevAddr) (w : World P M) (program : T → List (Job P)) :
    (start w program).Inv F addr w program := by
  refine .inr ⟨fun t => ?_, .inr ⟨[], fun t => rfl, .inl ⟨?_, fun _ => rfl, ?_⟩⟩⟩
  · constructor
    · rintro ⟨⟩
    · rintro ⟨env, outputs, ⟨⟩⟩
  · rintro ⟨t, stage, ⟨⟩, -⟩
  · rintro t env outputs ⟨⟩

/-- In a settled state the address is read as after the calls in order. -/
theorem Inv.linearizable (h : s.Inv F addr w program) (hsettled : s.Settled) :
    s.Linearizable F addr w program := by
  have hclosed : ¬ s.Open := by
    rintro ⟨t, stage, ht, -⟩
    cases (hsettled.idle t).symm.trans ht
  rcases h with ⟨reply, hreply, hcode⟩ |
    ⟨hexcl, (⟨⟨t, env, ht⟩, -⟩ | ⟨hopen, -⟩) | ⟨order, horder, hfollows⟩⟩
  · exact absurd (hsettled.succeeded reply hreply) hcode
  · cases (hsettled.idle t).symm.trans ht
  · exact absurd hopen hclosed
  refine ⟨order, horder, ?_⟩
  rcases hfollows with h | h
  · have hholder : s.holder = none := by
      refine Option.eq_none_iff_forall_ne_some.mpr fun t ht => ?_
      obtain ⟨env, outputs, hstage⟩ := (hexcl t).mp ht
      cases (hsettled.idle t).symm.trans hstage
    rw [h.free hholder]
    exact .refl _
  · exact .of_fresh (h.fresh.resolve_left hclosed).1 h.mirrors.fresh h.mirrors.sizes h.mirrors.words

end

end Process

/-- In a run of uploads, sets and flushes by any threads where no flush writes to the address
between the two steps of an upload or a set, whenever no call is under way and every call has
succeeded, the address is read as after the calls in some order that keeps the programs of the
threads. -/
theorem calls_linearizable [DecidableEq T] (F : Fhetch P M) (addr : DevAddr) (w : World P M)
    (program : T → List (Job P)) (ts : List T)
    (hspares : Expected.Along (Process.step F addr) (Process.Spares addr) (.start w program) ts)
    (hsettled : (Process.runAll F addr (.start w program) ts).Settled) :
    (Process.runAll F addr (.start w program) ts).Linearizable F addr w program :=
  (hspares.invariant (I := fun s : Process T P M => s.Inv F addr w program)
    (fun _ _ hspares h => h.step hspares) (Process.inv_start F addr w program)).linearizable hsettled

/-! ## A flush inside an upload -/

/-- One thread uploads seven, and another flushes. -/
def uploadAndFlush : Bool → List (Job UInt64)
  | false => [⟨scalarReplies, .upload (some [7, 0, 0, 0, 0, 0, 0, 0]) 8⟩]
  | true => [⟨scalarReplies, .flush⟩]

/-- The upload copies its bytes after the flush has read its output back. -/
theorem calls_linearizable_example :
    (Process.runAll scalarRing ⟨kHbmBase⟩ (.start taggedUpload uploadAndFlush)
      [true, true, false, true, false]).Linearizable scalarRing ⟨kHbmBase⟩ taggedUpload
        uploadAndFlush :=
  calls_linearizable scalarRing ⟨kHbmBase⟩ taggedUpload uploadAndFlush
    [true, true, false, true, false]
    ⟨by decide +kernel, by decide +kernel, by decide +kernel, by decide +kernel, by decide +kernel,
      trivial⟩
    ⟨fun t => by cases t <;> rfl, by decide +kernel⟩

/-- Two calls of two threads come in one of two orders. -/
theorem orders_two {α : Type} {x y : α} {order : List (Bool × α)}
    (hfalse : (order.filter (·.1 = false)).map Prod.snd = [x])
    (htrue : (order.filter (·.1 = true)).map Prod.snd = [y]) :
    order = [(false, x), (true, y)] ∨ order = [(true, y), (false, x)] := by
  rcases order with _ | ⟨⟨_ | _, j⟩, _ | ⟨⟨_ | _, k⟩, _ | ⟨⟨_ | _, l⟩, rest⟩⟩⟩ <;>
    simp_all

/-- Where it copies them before, the flush writes over them, and its tag finds what the flush
wrote. -/
theorem calls_linearizable_counterexample :
    let s := Process.runAll scalarRing ⟨kHbmBase⟩ (.start taggedUpload uploadAndFlush)
      [false, true, true, true, false]
    taggedUpload.Reachable scalarRing ∧ (⟨kHbmBase⟩ : DevAddr) ∈ taggedUpload.allocator.allocSet ∧
      (∀ t, s.calls t = []) ∧ s.Settled ∧
      ¬ s.Linearizable scalarRing ⟨kHbmBase⟩ taggedUpload uploadAndFlush := by
  intro s
  have hcalls : ∀ t, s.calls t = [] := fun t => by cases t <;> rfl
  refine ⟨⟨_, rfl⟩, by decide +kernel, hcalls, ⟨fun t => by cases t <;> rfl, by decide +kernel⟩, ?_⟩
  rintro ⟨order, horder, hreads⟩
  have hprograms : ∀ t, (order.filter (·.1 = t)).map Prod.snd = uploadAndFlush t := by
    intro t
    rw [← horder t, hcalls t, List.append_nil]
  have hbytes := hreads.host scalarReplies true 8
  rcases orders_two (hprograms false) (hprograms true) with rfl | rfl
  · exact absurd hbytes (by decide +kernel)
  · exact absurd hbytes (by decide +kernel)

end Haze
