import Mathlib.Logic.Function.Basic

/-!
# A flag that is checked twice

A flag says whether a body has run. A thread reads the flag without a lock. Where it is not set, it
takes the lock, reads the flag once more and, unless another thread has set it meanwhile, runs the
body, which sets the flag if it succeeds. Another operation clears the flag under the lock. Any
number of threads call both, in any interleaving, while other steps change the data.

`Atomic` is the same object with calls that take effect at once, each at some moment between its
call and its return. Where the body does in steps what the object does at once (`Implements`), the
callers see nothing else of the threads than of the object (`visible_atomic`).
-/

namespace DoubleChecked

/-- The operations. -/
inductive Op where
  | ensure
  | clear
deriving DecidableEq, Repr

/-- What an operation returns: whether the flag is set, or nothing. -/
abbrev Result : Type := Option Bool

/-- A step. Only the steps inside a call are not seen by the callers. -/
inductive Label (T E : Type) where
  | call (t : T) (op : Op)
  | ret (t : T) (result : Result)
  | other (e : E)
  | inside (t : T)

def Label.visible {T E : Type} : Label T E → Bool
  | .inside _ => false
  | _ => true

/-- A run of steps. -/
inductive Runs {S L : Type} (Next : S → L → S → Prop) : S → List L → S → Prop
  | nil (s : S) : Runs Next s [] s
  | cons {s s' s'' : S} {l : L} {ls : List L} (next : Next s l s') (rest : Runs Next s' ls s'') :
      Runs Next s (l :: ls) s''

/-- A run continues with a run from where it ends. -/
theorem Runs.append {S L : Type} {Next : S → L → S → Prop} {s s' s'' : S} {ls ls' : List L}
    (h : Runs Next s ls s') (h' : Runs Next s' ls' s'') : Runs Next s (ls ++ ls') s'' := by
  induction h with
  | nil => exact h'
  | cons next _ ih => exact .cons next (ih h')

/-- The flag in the data, the body with its own state, and the steps of others. -/
structure Object (D B E : Type) where
  up : D → Bool
  setUp : Bool → D → D
  enter : B
  step : B × D → B × D → Prop
  /-- The last step of the body, with whether it succeeds. -/
  stop : B × D → Bool × D → Prop
  other : E → D → D → Prop

variable {T D B E : Type}

/-! ## The threads -/

/-- Where a thread is. -/
inductive Pc (B : Type) where
  | idle
  /-- Before the flag is read without the lock. -/
  | entered
  /-- Before the lock is taken. -/
  | waiting (op : Op)
  | checking
  | running (b : B)
  /-- The body has succeeded, and the flag comes next. -/
  | storing
  | clearing
  /-- Before the lock is released. -/
  | leaving (result : Result)
  | returning (result : Result)

/-- The thread holds the lock. -/
def Pc.locked : Pc B → Bool
  | .checking => true
  | .running _ => true
  | .storing => true
  | .clearing => true
  | .leaving _ => true
  | _ => false

/-- Where an operation goes on with the lock. -/
def Op.begin : Op → Pc B
  | .ensure => .checking
  | .clear => .clearing

structure State (T D B : Type) where
  pc : T → Pc B
  holder : Option T
  data : D

/-- No thread is inside a call. -/
def State.start (d : D) : State T D B := ⟨fun _ => .idle, none, d⟩

section

variable [DecidableEq T]

/-- One step of a thread, or of others. -/
inductive State.Next (O : Object D B E) (s : State T D B) : Label T E → State T D B → Prop
  | callEnsure {t : T} (pc : s.pc t = .idle) :
      Next O s (.call t .ensure) { s with pc := Function.update s.pc t .entered }
  | callClear {t : T} (pc : s.pc t = .idle) :
      Next O s (.call t .clear) { s with pc := Function.update s.pc t (.waiting .clear) }
  | fast {t : T} (pc : s.pc t = .entered) (up : O.up s.data = true) :
      Next O s (.inside t) { s with pc := Function.update s.pc t (.returning (some true)) }
  | slow {t : T} (pc : s.pc t = .entered) (up : O.up s.data = false) :
      Next O s (.inside t) { s with pc := Function.update s.pc t (.waiting .ensure) }
  | acquire {t : T} {op : Op} (pc : s.pc t = .waiting op) (free : s.holder = none) :
      Next O s (.inside t) ⟨Function.update s.pc t op.begin, some t, s.data⟩
  | found {t : T} (pc : s.pc t = .checking) (up : O.up s.data = true) :
      Next O s (.inside t) { s with pc := Function.update s.pc t (.leaving (some true)) }
  | enter {t : T} (pc : s.pc t = .checking) (up : O.up s.data = false) :
      Next O s (.inside t) { s with pc := Function.update s.pc t (.running O.enter) }
  | step {t : T} {b b' : B} {d : D} (pc : s.pc t = .running b) (body : O.step (b, s.data) (b', d)) :
      Next O s (.inside t) ⟨Function.update s.pc t (.running b'), s.holder, d⟩
  | stop {t : T} {b : B} {ok : Bool} {d : D} (pc : s.pc t = .running b)
      (body : O.stop (b, s.data) (ok, d)) :
      Next O s (.inside t)
        ⟨Function.update s.pc t (if ok then .storing else .leaving (some false)), s.holder, d⟩
  | store {t : T} (pc : s.pc t = .storing) :
      Next O s (.inside t)
        ⟨Function.update s.pc t (.leaving (some true)), s.holder, O.setUp true s.data⟩
  | clear {t : T} (pc : s.pc t = .clearing) :
      Next O s (.inside t) ⟨Function.update s.pc t (.leaving none), s.holder, O.setUp false s.data⟩
  | release {t : T} {r : Result} (pc : s.pc t = .leaving r) :
      Next O s (.inside t) ⟨Function.update s.pc t (.returning r), none, s.data⟩
  | ret {t : T} {r : Result} (pc : s.pc t = .returning r) :
      Next O s (.ret t r) { s with pc := Function.update s.pc t .idle }
  | other {e : E} {d : D} (change : O.other e s.data d) : Next O s (.other e) { s with data := d }

/-- While a thread runs the body, others take only steps of a kind. -/
def State.Calm (movable : E → Prop) (s : State T D B) : Label T E → Prop
  | .other e => (∃ t b, s.pc t = .running b) → movable e
  | _ => True

end

/-! ## The object -/

/-- Where a call of the object is. -/
inductive Status where
  | idle
  | called (op : Op)
  | done (result : Result)
deriving DecidableEq, Repr

structure Atomic (T D : Type) where
  status : T → Status
  data : D

/-- No thread is inside a call. -/
def Atomic.start (d : D) : Atomic T D := ⟨fun _ => .idle, d⟩

/-- What an operation does at once, where `run` is what the body does. -/
inductive Effect (O : Object D B E) (run : D → Bool → D → Prop) : Op → D → Result → D → Prop
  | found {d : D} (up : O.up d = true) : Effect O run .ensure d (some true) d
  | runs {d d' : D} {ok : Bool} (up : O.up d = false) (body : run d ok d') :
      Effect O run .ensure d (some ok) d'
  | clear (d : D) : Effect O run .clear d none (O.setUp false d)

/-- One step of the object. -/
inductive Atomic.Next [DecidableEq T] (O : Object D B E) (run : D → Bool → D → Prop)
    (a : Atomic T D) : Label T E → Atomic T D → Prop
  | call {t : T} {op : Op} (status : a.status t = .idle) :
      Next O run a (.call t op) { a with status := Function.update a.status t (.called op) }
  | effect {t : T} {op : Op} {r : Result} {d : D} (status : a.status t = .called op)
      (effect : Effect O run op a.data r d) :
      Next O run a (.inside t) ⟨Function.update a.status t (.done r), d⟩
  | ret {t : T} {r : Result} (status : a.status t = .done r) :
      Next O run a (.ret t r) { a with status := Function.update a.status t .idle }
  | other {e : E} {d : D} (change : O.other e a.data d) : Next O run a (.other e) { a with data := d }

/-- The body does in steps what `run` does at once: `Reached d b d'` says that the body comes from
`d` to its own state `b` and `d'`. A step of others that is `movable` may as well come before the
body. -/
structure Implements (O : Object D B E) (movable : E → Prop) (run : D → Bool → D → Prop) where
  Reached : D → B → D → Prop
  enter : ∀ d, Reached d O.enter d
  step : ∀ d b d' b' d'', Reached d b d' → O.step (b, d') (b', d'') →
    Reached d b' d'' ∧ O.up d'' = O.up d'
  stop : ∀ d b d' ok d'', O.up d = false → Reached d b d' → O.stop (b, d') (ok, d'') →
    run d ok (if ok then O.setUp true d'' else d'') ∧ O.up d'' = O.up d'
  moves : ∀ e, movable e → ∀ d b d' d'', Reached d b d' → O.other e d' d'' →
    ∃ d₀, O.other e d d₀ ∧ Reached d₀ b d''
  up_other : ∀ e d d', O.other e d d' → O.up d' = O.up d
  setUp_other : ∀ e d d', O.other e d d' → O.other e (O.setUp true d) (O.setUp true d')

/-! ## The threads follow the object -/

/-- Where the call of a thread is. -/
def Pc.status : Pc B → Status
  | .idle => .idle
  | .entered => .called .ensure
  | .waiting op => .called op
  | .checking => .called .ensure
  | .running _ => .called .ensure
  | .storing => .done (some true)
  | .clearing => .called .clear
  | .leaving r => .done r
  | .returning r => .done r

section

variable {O : Object D B E} {movable : E → Prop} {run : D → Bool → D → Prop}
  (I : Implements O movable run)

/-- How the data of the object and of the threads are related while a thread has the lock. The body
takes effect when it has run. -/
def Pc.Agrees (d d' : D) : Pc B → Prop
  | .running b => O.up d = false ∧ O.up d' = false ∧ I.Reached d b d'
  | .storing => O.up d' = false ∧ d = O.setUp true d'
  | _ => d = d'

/-- The threads have come as far as the object. -/
structure Follows (s : State T D B) (a : Atomic T D) : Prop where
  holder : ∀ t, s.holder = some t ↔ (s.pc t).locked = true
  status : ∀ t, a.status t = (s.pc t).status
  agrees : ∀ t, s.holder = some t → (s.pc t).Agrees I a.data s.data
  free : s.holder = none → a.data = s.data

variable {I} {s : State T D B} {a : Atomic T D}

/-- At the start no thread has begun, on either side. -/
theorem follows_start (d : D) : Follows I (.start d : State T D B) (.start d) where
  holder _ := iff_of_false (fun h => nomatch h) Bool.false_ne_true
  status _ := rfl
  agrees _ h := nomatch h
  free _ := rfl

/-- Where the flag is set, the data are the same. -/
theorem Follows.same (h : Follows I s a) (hup : O.up s.data = true) : a.data = s.data := by
  rcases hholder : s.holder with _ | t
  · exact h.free hholder
  have hagrees := h.agrees t hholder
  rcases hpc : s.pc t with _ | _ | _ | _ | b | _ | _ | _ | _ <;> rw [hpc] at hagrees
  case running => exact absurd (hup.symm.trans hagrees.2.1) (by decide)
  case storing => exact absurd (hup.symm.trans hagrees.1) (by decide)
  all_goals exact hagrees

variable [DecidableEq T]

/-- A thread moves without the lock. -/
theorem Follows.move (h : Follows I s a) {t : T} {p : Pc B} (hfrom : (s.pc t).locked = false)
    (hto : p.locked = false) : Follows I { s with pc := Function.update s.pc t p }
      { a with status := Function.update a.status t p.status } where
  -- A thread outside the lock moves; nobody else's part changes.
  holder u := by
    by_cases hu : u = t
    · subst hu
      simp only [Function.update_self, hto]
      rw [h.holder, hfrom]
    · simp only [Function.update_of_ne hu]
      exact h.holder u
  status u := by
    by_cases hu : u = t
    · subst hu
      simp only [Function.update_self]
    · simp only [Function.update_of_ne hu]
      exact h.status u
  agrees u hu := by
    have hne : u ≠ t := by
      rintro rfl
      exact absurd ((h.holder u).mp hu) (by rw [hfrom]; decide)
    simp only [Function.update_of_ne hne]
    exact h.agrees u hu
  free := h.free

/-- A thread moves that has the lock, takes it or releases it. -/
theorem Follows.moveLocked (h : Follows I s a) {t : T} {p : Pc B} {d d' : D}
    (howner : ∀ u, s.holder = some u → u = t) (hto : p.Agrees I d d') (hfree : p.locked = false → d = d') :
    Follows I ⟨Function.update s.pc t p, if p.locked then some t else none, d'⟩
      ⟨Function.update a.status t p.status, d⟩ where
  holder u := by
    -- The mover holds the lock before, if anyone does, and after exactly where its new place is
    -- locked.
    by_cases hu : u = t
    · subst hu
      simp only [Function.update_self]
      rcases p.locked <;> simp
    · simp only [Function.update_of_ne hu]
      have hother : (s.pc u).locked = false := by
        rw [Bool.eq_false_iff, ne_eq, ← h.holder u]
        exact fun hheld => hu (howner u hheld)
      rw [hother]
      rcases p.locked <;> simp [Ne.symm hu]
  status u := by
    by_cases hu : u = t
    · subst hu
      simp only [Function.update_self]
    · simp only [Function.update_of_ne hu]
      exact h.status u
  agrees u hu := by
    have hut : u = t := by
      rcases hp : p.locked
      · rw [hp] at hu
        cases hu
      · rw [hp] at hu
        exact (Option.some.inj hu).symm
    subst hut
    simp only [Function.update_self]
    exact hto
  -- Where the lock is free the two data agree, as they did.
  free hnone := by
    refine hfree ?_
    rcases hp : p.locked
    · rfl
    · rw [hp] at hnone
      cases hnone

omit [DecidableEq T] in
/-- What a thread agrees on with the object while it has the lock. -/
theorem Follows.owner (h : Follows I s a) {t : T} {p : Pc B} (hpc : s.pc t = p)
    (hp : p.locked = true) : s.holder = some t ∧ p.Agrees I a.data s.data := by
  have hholder := (h.holder t).mpr (hpc ▸ hp)
  exact ⟨hholder, hpc ▸ h.agrees t hholder⟩

/-- A call that stays where it is. -/
theorem Runs.stay {t : T} {st : Status} (h : a.status t = st) :
    Runs (Atomic.Next O run) a [] ⟨Function.update a.status t st, a.data⟩ := by
  rw [Function.update_eq_self_iff.mpr h.symm]
  exact .nil a

omit [DecidableEq T] in
/-- A step of others that is calm is one of the object. While the body runs, it comes before the
body there. -/
theorem Follows.other (h : Follows I s a) {e : E} {d : D} (change : O.other e s.data d)
    (hcalm : s.Calm movable (.other e : Label T E)) :
    ∃ d₀, O.other e a.data d₀ ∧ Follows I { s with data := d } { a with data := d₀ } := by
  have hup := I.up_other e s.data d change
  -- With the lock free both sides see the change at once.
  rcases Option.eq_none_or_eq_some s.holder with hholder | ⟨t, hholder⟩
  · refine ⟨d, ?_, h.holder, h.status, fun u hu => ?_, fun _ => rfl⟩
    · rw [h.free hholder]
      exact change
    · cases hholder.symm.trans hu
  -- Otherwise the thread inside decides how far the data may be apart.
  have hrest : ∀ d₀, O.other e a.data d₀ → (s.pc t).Agrees I d₀ d →
      Follows I { s with data := d } { a with data := d₀ } := fun d₀ hother hagrees =>
    ⟨h.holder, h.status, fun u hu => by rwa [← Option.some.inj (hholder.symm.trans hu)],
      fun hnone => by cases hholder.symm.trans hnone⟩
  have hagrees := h.agrees t hholder
  rcases hpc : s.pc t with _ | _ | _ | _ | b | _ | _ | _ | _ <;> rw [hpc] at hagrees hrest
  case running =>
    -- Inside the body the change commutes with what the body has done so far.
    obtain ⟨hdown, hdown', hreached⟩ := hagrees
    obtain ⟨d₀, hother, hreached'⟩ := I.moves e (hcalm ⟨t, b, hpc⟩) _ _ _ _ hreached change
    exact ⟨d₀, hother,
      hrest d₀ hother ⟨(I.up_other e _ _ hother).trans hdown, hup.trans hdown', hreached'⟩⟩
  -- Between the body and the store only the flag differs.
  case storing =>
    have hother : O.other e a.data (O.setUp true d) := by
      rw [hagrees.2]
      exact I.setUp_other e _ _ change
    exact ⟨_, hother, hrest _ hother ⟨hup.trans hagrees.1, rfl⟩⟩
  all_goals
    have hother : O.other e a.data d := by
      rw [show a.data = s.data from hagrees]
      exact change
    exact ⟨d, hother, hrest d hother rfl⟩

/-- Every calm step of the threads is one of the object, or none, as far as it is seen. -/
theorem Follows.next (h : Follows I s a) {l : Label T E} {s' : State T D B} (hnext : s.Next O l s')
    (hcalm : s.Calm movable l) :
    ∃ ls a', Runs (Atomic.Next O run) a ls a' ∧
      ls.filter Label.visible = [l].filter Label.visible ∧ Follows I s' a' := by
  have hstatus : ∀ {t : T} {p : Pc B}, s.pc t = p → a.status t = p.status := fun hpc =>
    (h.status _).trans (congrArg Pc.status hpc)
  have hunlocked : ∀ {t : T} {p : Pc B}, s.pc t = p → p.locked = false → (s.pc t).locked = false :=
    fun hpc hp => hpc ▸ hp
  have hown : ∀ {t : T}, s.holder = some t → ∀ u, s.holder = some u → u = t := fun ht u hu =>
    Option.some.inj (hu.symm.trans ht)
  -- Each step of the code is a step of the atomic object, or none.
  cases hnext with
  | callEnsure pc =>
    exact ⟨_, _, .cons (.call (hstatus pc)) (.nil _), rfl, h.move (hunlocked pc rfl) rfl⟩
  | callClear pc =>
    exact ⟨_, _, .cons (.call (hstatus pc)) (.nil _), rfl, h.move (hunlocked pc rfl) rfl⟩
  -- The effect of a call is where the flag is seen up, or where its body stops.
  | @fast t pc up =>
    have hup : O.up a.data = true := by rw [h.same up, up]
    exact ⟨[.inside t], _, .cons (.effect (hstatus pc) (.found hup)) (.nil _), rfl,
      h.move (hunlocked pc rfl) rfl⟩
  | slow pc up =>
    exact ⟨[], _, .stay (hstatus pc), rfl, h.move (hunlocked pc rfl) rfl⟩
  | @acquire t op pc free =>
    have howner : ∀ u, s.holder = some u → u = t := fun u hu => by
      cases free.symm.trans hu
    have hbegin : (op.begin : Pc B).locked = true ∧ (op.begin : Pc B).status = .called op ∧
        (op.begin : Pc B).Agrees I a.data s.data := by
      cases op <;> exact ⟨rfl, rfl, h.free free⟩
    have hmoved := h.moveLocked howner hbegin.2.2 fun hp => absurd (hp.symm.trans hbegin.1) (by decide)
    rw [hbegin.1, hbegin.2.1] at hmoved
    exact ⟨[], _, .stay (hstatus pc), rfl, hmoved⟩
  | @found t pc up =>
    obtain ⟨hholder, hagrees⟩ := h.owner pc rfl
    have hup : O.up a.data = true := by rw [h.same up, up]
    refine ⟨[.inside t], _, .cons (.effect (hstatus pc) (.found hup)) (.nil _), rfl, ?_⟩
    rw [hholder]
    exact h.moveLocked (hown hholder) hagrees nofun
  | enter pc up =>
    obtain ⟨hholder, hagrees⟩ := h.owner pc rfl
    refine ⟨[], _, .stay (hstatus pc), rfl, ?_⟩
    rw [hholder]
    refine h.moveLocked (hown hholder) ⟨?_, up, ?_⟩ nofun
    · rw [show a.data = s.data from hagrees, up]
    · rw [show a.data = s.data from hagrees]
      exact I.enter s.data
  | step pc body =>
    obtain ⟨hholder, hdown, hdown', hreached⟩ := h.owner pc rfl
    obtain ⟨hreached', hup⟩ := I.step _ _ _ _ _ hreached body
    refine ⟨[], _, .stay (hstatus pc), rfl, ?_⟩
    rw [hholder]
    exact h.moveLocked (hown hholder) ⟨hdown, hup.trans hdown', hreached'⟩ nofun
  -- The whole body is performed here, at once.
  | @stop t b ok d pc body =>
    obtain ⟨hholder, hdown, hdown', hreached⟩ := h.owner pc rfl
    obtain ⟨hran, hup⟩ := I.stop _ _ _ _ _ hdown hreached body
    refine ⟨[.inside t], _, .cons (.effect (hstatus pc) (.runs hdown hran)) (.nil _), rfl, ?_⟩
    rw [hholder]
    rcases ok
    · exact h.moveLocked (hown hholder) rfl nofun
    · exact h.moveLocked (hown hholder) ⟨hup.trans hdown', rfl⟩ nofun
  | store pc =>
    obtain ⟨hholder, -, hagrees⟩ := h.owner pc rfl
    refine ⟨[], _, .stay (hstatus pc), rfl, ?_⟩
    rw [hholder]
    exact h.moveLocked (hown hholder) hagrees nofun
  | @clear t pc =>
    obtain ⟨hholder, hagrees⟩ := h.owner pc rfl
    refine ⟨[.inside t], _, .cons (.effect (hstatus pc) (.clear a.data)) (.nil _), rfl, ?_⟩
    rw [hholder, ← show a.data = s.data from hagrees]
    exact h.moveLocked (hown hholder) rfl nofun
  | release pc =>
    obtain ⟨hholder, hagrees⟩ := h.owner pc rfl
    exact ⟨[], _, .stay (hstatus pc), rfl,
      h.moveLocked (hown hholder) hagrees fun _ => hagrees⟩
  | ret pc => exact ⟨_, _, .cons (.ret (hstatus pc)) (.nil _), rfl, h.move (hunlocked pc rfl) rfl⟩
  | @other e d change =>
    obtain ⟨d₀, hother, hfollows⟩ := h.other change hcalm
    exact ⟨[.other e], _, .cons (.other hother) (.nil _), rfl, hfollows⟩

end

/-- In every run of the threads that is calm, the callers see a run of the object. -/
theorem visible_atomic [DecidableEq T] {O : Object D B E} {movable : E → Prop}
    {run : D → Bool → D → Prop} (I : Implements O movable run) {d : D} {ls : List (Label T E)}
    {s : State T D B}
    (h : Runs (fun s l s' => State.Next O s l s' ∧ s.Calm movable l) (State.start d) ls s) :
    ∃ ls' a, Runs (Atomic.Next O run) (Atomic.start d) ls' a ∧
      ls'.filter Label.visible = ls.filter Label.visible ∧ Follows I s a := by
  -- By induction on the run, with the relation carried along.
  have hall : ∀ (s s' : State T D B) ls a,
      Runs (fun s l s' => State.Next O s l s' ∧ s.Calm movable l) s ls s' → Follows I s a →
      ∃ ls' a', Runs (Atomic.Next O run) a ls' a' ∧
        ls'.filter Label.visible = ls.filter Label.visible ∧ Follows I s' a' := by
    intro s s' ls a h hfollows
    induction h generalizing a with
    | nil => exact ⟨[], a, .nil a, rfl, hfollows⟩
    | @cons s s₁ s' l ls hstep _ ih =>
      obtain ⟨ls₁, a₁, hrun₁, hvisible₁, hfollows₁⟩ := hfollows.next hstep.1 hstep.2
      obtain ⟨ls', a', hrun', hvisible', hfollows'⟩ := ih a₁ hfollows₁
      refine ⟨ls₁ ++ ls', a', hrun₁.append hrun', ?_, hfollows'⟩
      rw [List.filter_append, hvisible₁, hvisible', ← List.filter_append]
      rfl
  exact hall _ _ _ _ h (follows_start d)

end DoubleChecked
