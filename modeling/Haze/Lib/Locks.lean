import Mathlib.Computability.Language
import Mathlib.Logic.Function.Basic
import Mathlib.Logic.Relation
import Mathlib.Order.WellFounded

/-!
# Locks in an order

Threads acquire and release locks, each in the order of its own trace, and a thread waits while the
lock that it wants is held. Where every trace acquires a lock only above those that it holds, by
some rank of the locks, and releases the last lock first, no thread ever waits for itself, no
threads wait for each other in a circle, and whenever some thread has not finished, some thread can
step. The number of threads is arbitrary.

The traces of a program with branches and loops are a language, built with the operations of
`Language`; `Above` says of a language that all its traces are ordered when the locks that are held
are below a rank, and has a rule for each of the operations.
-/

namespace Locks

/-- A step of a thread. -/
inductive Step (L : Type) where
  | acquire (lock : L)
  | release (lock : L)
deriving DecidableEq, Repr

/-- What each thread has still to do, and which thread holds each lock. -/
structure State (T L : Type) where
  todo : T → List (Step L)
  holder : L → Option T

variable {T L α : Type}

namespace State

/-- No lock is held, and each thread has its trace before it. -/
def start (traces : T → List (Step L)) : State T L where
  todo := traces
  holder _ := none

section

variable [DecidableEq T] [DecidableEq L]

/-- One thread makes its next step. A lock is acquired when no thread holds it. -/
inductive Next (s : State T L) : State T L → Prop
  | acquire {t : T} {l : L} {steps : List (Step L)} (todo : s.todo t = .acquire l :: steps)
      (free : s.holder l = none) :
      Next s ⟨Function.update s.todo t steps, Function.update s.holder l (some t)⟩
  | release {t : T} {l : L} {steps : List (Step L)} (todo : s.todo t = .release l :: steps) :
      Next s ⟨Function.update s.todo t steps, Function.update s.holder l none⟩

/-- A state that some interleaving of the traces reaches. -/
def Reachable (traces : T → List (Step L)) (s : State T L) : Prop :=
  Relation.ReflTransGen Next (start traces) s

end

/-- The next step of a thread is to acquire a lock. -/
def Wants (s : State T L) (t : T) (l : L) : Prop := ∃ steps, s.todo t = .acquire l :: steps

/-- A thread wants a lock that a thread holds. -/
def WaitsFor (s : State T L) (t u : T) : Prop := ∃ l, s.Wants t l ∧ s.holder l = some u

/-- A thread wants one lock at a time. -/
theorem Wants.unique {s : State T L} {t : T} {l m : L} (hl : s.Wants t l) (hm : s.Wants t m) :
    l = m := by
  obtain ⟨steps, hsteps⟩ := hl
  obtain ⟨steps', hsteps'⟩ := hm
  rw [hsteps] at hsteps'
  cases hsteps'
  rfl

end State

section Order

variable [Preorder α] (rank : L → α)

/-- A thread that holds `held`, the last lock first, acquires locks above those that it holds only,
releases the last one first, and holds none at its end. -/
def Ordered : List L → List (Step L) → Prop
  | held, [] => held = []
  | held, .acquire l :: steps => (∀ h ∈ held, rank h < rank l) ∧ Ordered (l :: held) steps
  | [], .release _ :: _ => False
  | h :: held, .release l :: steps => h = l ∧ Ordered held steps

/-! ## States -/

/-- The locks that the threads hold are those in `held`, and the rest of each trace is ordered. -/
structure State.Sound (s : State T L) (held : T → List L) : Prop where
  ordered : ∀ t, Ordered rank (held t) (s.todo t)
  nodup : ∀ t, (held t).Nodup
  holder : ∀ t l, s.holder l = some t ↔ l ∈ held t

variable {rank} {s : State T L} {held : T → List L}

/-- At the start no thread holds a lock, and each has its whole trace before it. -/
theorem State.sound_start {traces : T → List (Step L)} (h : ∀ t, Ordered rank [] (traces t)) :
    (start traces).Sound rank fun _ => [] where
  ordered := h
  nodup _ := List.nodup_nil
  holder _ _ := iff_of_false (fun h => nomatch h) List.not_mem_nil

namespace State.Sound

/-- The locks that a waiting thread holds are below the one that it wants. -/
theorem below (h : s.Sound rank held) {t : T} {l : L} (hl : s.Wants t l) :
    ∀ m, s.holder m = some t → rank m < rank l := by
  obtain ⟨steps, hsteps⟩ := hl
  have hordered := h.ordered t
  rw [hsteps] at hordered
  exact fun m hm => hordered.1 m ((h.holder t m).mp hm)

/-- Along a chain of waiting threads the locks that they want rise. -/
theorem rises (h : s.Sound rank held) {t u : T} (hchain : Relation.TransGen s.WaitsFor t u) {l m : L}
    (hl : s.Wants t l) (hm : s.Wants u m) : rank l < rank m := by
  induction hchain generalizing m with
  | single hwait =>
    obtain ⟨l', hl', hholder⟩ := hwait
    rw [hl.unique hl']
    exact h.below hm l' hholder
  | tail _ hwait ih =>
    obtain ⟨m', hm', hholder⟩ := hwait
    exact (ih hm').trans (h.below hm m' hholder)

/-- No threads wait in a circle. -/
theorem no_cycle (h : s.Sound rank held) (t : T) : ¬ Relation.TransGen s.WaitsFor t t := by
  intro hcycle
  obtain ⟨u, ⟨l, hl, -⟩, -⟩ := Relation.TransGen.head'_iff.mp hcycle
  exact lt_irrefl _ (h.rises hcycle hl hl)

/-- No thread wants a lock that it holds. -/
theorem not_held (h : s.Sound rank held) {t : T} {l : L} (hl : s.Wants t l) :
    s.holder l ≠ some t :=
  fun hheld => lt_irrefl _ (h.below hl l hheld)

variable [DecidableEq T] [DecidableEq L]

/-- A thread that holds a lock and wants none can step. -/
theorem next_of_unwanted (h : s.Sound rank held) {t : T} {m : L} (hm : s.holder m = some t)
    (hwants : ∀ l, ¬ s.Wants t l) : ∃ s', s.Next s' := by
  have hheld := (h.holder t m).mp hm
  have hordered := h.ordered t
  rcases htodo : s.todo t with _ | ⟨_ | l, steps⟩
  · rw [htodo] at hordered
    rw [show held t = [] from hordered] at hheld
    exact absurd hheld List.not_mem_nil
  · exact absurd ⟨steps, htodo⟩ (hwants _)
  · exact ⟨_, .release htodo⟩

/-- Where ranks do not rise forever, a thread that wants a lock waits for one that can step. -/
theorem next_of_wants [WellFoundedGT α] (h : s.Sound rank held) {t : T} {l : L}
    (hl : s.Wants t l) : ∃ s', s.Next s' := by
  -- By induction on the rank of the wanted lock, downwards.
  induction hr : rank l using WellFoundedGT.induction generalizing t l with
  | ind r ih =>
    subst hr
    rcases hholder : s.holder l with _ | u
    · obtain ⟨steps, hsteps⟩ := hl
      exact ⟨_, .acquire hsteps hholder⟩
    by_cases hwants : ∃ m, s.Wants u m
    · obtain ⟨m, hm⟩ := hwants
      exact ih (rank m) (h.below hm l hholder) hm rfl
    · exact h.next_of_unwanted hholder fun m hm => hwants ⟨m, hm⟩

/-- Unless every thread has finished, some thread can step. -/
theorem progress [WellFoundedGT α] (h : s.Sound rank held) {t : T} (ht : s.todo t ≠ []) :
    ∃ s', s.Next s' := by
  rcases htodo : s.todo t with _ | ⟨l | l, steps⟩
  · exact absurd htodo ht
  · exact h.next_of_wants ⟨steps, htodo⟩
  · exact ⟨_, .release htodo⟩

/-- A step keeps the invariant. -/
theorem next (h : s.Sound rank held) {s' : State T L} (hs : s.Next s') :
    ∃ held', s'.Sound rank held' := by
  cases hs with
  | @acquire t l steps htodo hfree =>
    have hordered := h.ordered t
    rw [htodo] at hordered
    -- Nobody holds a lock that is free.
    have hnew : ∀ u, l ∉ held u := fun u hu => by
      rw [(h.holder u l).mpr hu] at hfree
      cases hfree
    refine ⟨Function.update held t (l :: held t), fun u => ?_, fun u => ?_, fun u m => ?_⟩
    · by_cases hu : u = t
      · subst hu
        simpa only [Function.update_self] using hordered.2
      · simpa only [Function.update_of_ne hu] using h.ordered u
    · by_cases hu : u = t
      · subst hu
        simpa only [Function.update_self] using List.nodup_cons.mpr ⟨hnew u, h.nodup u⟩
      · simpa only [Function.update_of_ne hu] using h.nodup u
    · by_cases hm : m = l
      · subst hm
        by_cases hu : u = t
        · subst hu
          simp
        · simp only [Function.update_self, Function.update_of_ne hu, Option.some.injEq]
          exact iff_of_false (Ne.symm hu) (hnew u)
      · by_cases hu : u = t
        · subst hu
          simp only [Function.update_self, Function.update_of_ne hm, List.mem_cons, hm, false_or]
          exact h.holder u m
        · simp only [Function.update_of_ne hm, Function.update_of_ne hu]
          exact h.holder u m
  | @release t l steps htodo =>
    have hordered := h.ordered t
    rw [htodo] at hordered
    -- A release is always of the lock that was taken last.
    rcases hheld : held t with _ | ⟨l', rest⟩
    · rw [hheld] at hordered
      exact hordered.elim
    rw [hheld] at hordered
    obtain ⟨rfl, hrest⟩ := hordered
    have hnodup := h.nodup t
    rw [hheld, List.nodup_cons] at hnodup
    have hholder : s.holder l' = some t := (h.holder t l').mpr (hheld ▸ List.mem_cons_self ..)
    refine ⟨Function.update held t rest, fun u => ?_, fun u => ?_, fun u m => ?_⟩
    · by_cases hu : u = t
      · subst hu
        simpa only [Function.update_self] using hrest
      · simpa only [Function.update_of_ne hu] using h.ordered u
    · by_cases hu : u = t
      · subst hu
        simpa only [Function.update_self] using hnodup.2
      · simpa only [Function.update_of_ne hu] using h.nodup u
    · by_cases hm : m = l'
      · subst hm
        simp only [Function.update_self]
        refine iff_of_false (fun h => nomatch h) fun hmem => ?_
        by_cases hu : u = t
        · subst hu
          rw [Function.update_self] at hmem
          exact hnodup.1 hmem
        · rw [Function.update_of_ne hu, ← h.holder u m, hholder] at hmem
          exact hu (Option.some.inj hmem).symm
      · by_cases hu : u = t
        · subst hu
          have hiff := h.holder u m
          rw [hheld, List.mem_cons] at hiff
          simpa only [Function.update_self, Function.update_of_ne hm, hm, false_or] using hiff
        · simp only [Function.update_of_ne hm, Function.update_of_ne hu]
          exact h.holder u m

end State.Sound

/-- Every state that an interleaving of ordered traces reaches is sound. -/
theorem State.Reachable.sound [DecidableEq T] [DecidableEq L] {traces : T → List (Step L)}
    (htraces : ∀ t, Ordered rank [] (traces t)) (h : s.Reachable traces) :
    ∃ held, s.Sound rank held := by
  induction h with
  | refl => exact ⟨_, sound_start htraces⟩
  | tail _ hnext ih =>
    obtain ⟨held, hheld⟩ := ih
    exact hheld.next hnext

/-! ## Languages of traces -/

/-- The traces of a body that runs while a lock is held. -/
def locked (l : L) (body : Language (Step L)) : Language (Step L) :=
  {[.acquire l]} * body * {[.release l]}

/-- A trace of the body between taking and giving back the lock is one of the locked section. -/
theorem mem_locked {l : L} {body : Language (Step L)} {trace : List (Step L)} (h : trace ∈ body) :
    [.acquire l] ++ trace ++ [.release l] ∈ locked l body :=
  Language.append_mem_mul (Language.append_mem_mul rfl h) rfl

variable (rank) in
/-- Where the locks that are held are below `floor`, a trace of the language may come before what is
ordered, and the whole is ordered again. -/
def Above (floor : α) (A : Language (Step L)) : Prop :=
  ∀ trace ∈ A, ∀ held steps, (∀ h ∈ held, rank h < floor) → Ordered rank held steps →
    Ordered rank held (trace ++ steps)

namespace Above

variable {floor : α} {A B : Language (Step L)}

/-- Doing nothing takes no lock. -/
theorem one : Above rank floor (1 : Language (Step L)) := by
  intro trace htrace held steps _ hsteps
  rw [(Language.mem_one trace).mp htrace]
  exact hsteps

/-- A choice stays above the floor when both its branches do. -/
theorem add (hA : Above rank floor A) (hB : Above rank floor B) : Above rank floor (A + B) := by
  intro trace htrace
  rcases (Language.mem_add A B trace).mp htrace with h | h
  · exact hA trace h
  · exact hB trace h

/-- A sequence stays above the floor when both its parts do. -/
theorem mul (hA : Above rank floor A) (hB : Above rank floor B) : Above rank floor (A * B) := by
  intro trace htrace held steps hheld hsteps
  obtain ⟨a, ha, b, hb, rfl⟩ := Language.mem_mul.mp htrace
  rw [List.append_assoc]
  exact hA a ha held _ hheld (hB b hb held steps hheld hsteps)

/-- A repetition stays above the floor when its body does. -/
theorem kstar (hA : Above rank floor A) : Above rank floor (KStar.kstar A) := by
  intro trace htrace held steps hheld hsteps
  obtain ⟨traces, rfl, htraces⟩ := Language.mem_kstar.mp htrace
  clear htrace
  induction traces with
  | nil => exact hsteps
  | cons a as ih =>
    rw [List.flatten_cons, List.append_assoc]
    have hrest := ih fun y hy => htraces y (List.mem_cons_of_mem _ hy)
    exact hA a (htraces a (List.mem_cons_self ..)) held _ hheld hrest

/-- A lock may be held where the floor is at most its rank, and its body is above its rank. -/
theorem locked {l : L} (inner : α) (hA : Above rank inner A) (hl : rank l < inner)
    (hfloor : floor ≤ rank l) : Above rank floor (locked l A) := by
  intro trace htrace held steps hheld hsteps
  obtain ⟨ab, hab, r, hr, rfl⟩ := Language.mem_mul.mp htrace
  obtain ⟨a, ha, b, hb, rfl⟩ := Language.mem_mul.mp hab
  rw [Set.mem_singleton_iff.mp ha, Set.mem_singleton_iff.mp hr]
  have hbelow : ∀ h ∈ held, rank h < rank l := fun h hh => (hheld h hh).trans_le hfloor
  have hbody := hA b hb (l :: held) (.release l :: steps) ?_ ⟨rfl, hsteps⟩
  · simpa only [List.append_assoc, List.singleton_append, List.cons_append, List.nil_append] using
      show Ordered rank held (.acquire l :: (b ++ .release l :: steps)) from ⟨hbelow, hbody⟩
  · intro h hh
    rcases List.mem_cons.mp hh with rfl | hh
    · exact hl
    · exact (hbelow h hh).trans hl

/-- A product of languages is above what each of them is. -/
theorem prod {As : List (Language (Step L))} (hAs : ∀ A ∈ As, Above rank floor A) :
    Above rank floor As.prod := by
  induction As with
  | nil => exact one
  | cons A As ih =>
    rw [List.prod_cons]
    exact (hAs A (List.mem_cons_self ..)).mul (ih fun B hB => hAs B (List.mem_cons_of_mem _ hB))

/-- A trace of its own is ordered. -/
theorem ordered (hA : Above rank floor A) {trace : List (Step L)} (htrace : trace ∈ A) :
    Ordered rank [] trace := by
  have h := hA trace htrace [] [] (fun h hh => absurd hh List.not_mem_nil) rfl
  rwa [List.append_nil] at h

end Above

end Order

end Locks
