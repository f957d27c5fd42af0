import Haze.Lib.Expected

/-!
# Methods cut into sections

A method that gives way to others between its critical sections is a `Resumption`: a section that is
named by `a : A`, and what is done with the result of the section, of type `B a`. A handler says what
each section does to the state. Run without interruption (`Resumption.run`), a resumption is a method
again, and the combinators of methods have counterparts that are run to them, so that a method is cut
by writing it down once more with its sections in the place of its calls.
-/

/-- Sections of `A`, of which each has a result of `B`, up to a value of `R` or an error of `ε`. -/
inductive Resumption (A : Type) (B : A → Type) (ε R : Type) where
  /-- Return a value or an error. -/
  | done (r : Except ε R)
  /-- Enter a section, and go on with its result. -/
  | enter (a : A) (next : B a → Resumption A B ε R)

namespace Resumption

variable {A : Type} {B : A → Type} {R S ε σ β : Type}

/-! ## Combinators -/

/-- Go on with the value of a resumption. An error is returned. -/
protected def bind : Resumption A B ε R → (R → Resumption A B ε S) → Resumption A B ε S
  | done (.ok r), f => f r
  | done (.error e), _ => done (.error e)
  | enter a next, f => enter a fun b => (next b).bind f

instance : Monad (Resumption A B ε) where
  pure r := done (.ok r)
  bind := Resumption.bind

/-- One section. -/
def single (a : A) : Resumption A B ε (B a) := enter a pure

/-- Run `f` on each element in order. -/
def forEach (f : β → Resumption A B ε Unit) : List β → Resumption A B ε Unit
  | [] => pure ()
  | b :: bs => f b >>= fun _ => forEach f bs

/-- Run `f` on each element in order and collect the values. -/
def mapEach (f : β → Resumption A B ε R) : List β → Resumption A B ε (List R)
  | [] => pure []
  | b :: bs => f b >>= fun r => mapEach f bs >>= fun rs => pure (r :: rs)

/-! ## Running without interruption -/

/-- The sections one after the other, as the handler `h` says. -/
def run (h : ∀ a, Expected ε σ (B a)) : Resumption A B ε R → Expected ε σ R
  | done r => Expected.query fun _ => r
  | enter a next => h a >>= fun b => (next b).run h

section

variable {h : ∀ a, Expected ε σ (B a)}

/-- A program that is done returns its result. -/
@[simp] theorem run_done (r : Except ε R) :
    (done r : Resumption A B ε R).run h = Expected.query fun _ => r := rfl

/-- Returning a value is running to that value. -/
@[simp] theorem run_pure (r : R) : (pure r : Resumption A B ε R).run h = pure r := rfl

/-- A program that enters a step runs it, and goes on with the result. -/
@[simp] theorem run_enter (a : A) (next : B a → Resumption A B ε R) :
    (enter a next).run h = h a >>= fun b => (next b).run h := rfl

/-- A section is run to what the handler makes of it. -/
@[simp] theorem run_single (a : A) : (single a : Resumption A B ε (B a)).run h = h a := by
  funext s
  rcases hs : h a s with ⟨e | b, s'⟩
  · exact (Expected.bind_run_error hs).trans rfl
  · exact (Expected.bind_run_ok hs).trans rfl

/-- Sequences are run to sequences. -/
@[simp] theorem run_bind (x : Resumption A B ε R) (f : R → Resumption A B ε S) :
    (x >>= f).run h = x.run h >>= fun r => (f r).run h := by
  induction x with
  | done r =>
    rcases r with e | r
    · rfl
    · rfl
  | enter a next ih =>
    change (h a >>= fun b => (next b >>= f).run h) = (h a >>= fun b => (next b).run h) >>= _
    rw [Expected.bind_assoc]
    exact bind_congr ih

/-- A loop of programs runs as the loop of their runs. -/
@[simp] theorem run_forEach (f : β → Resumption A B ε Unit) (bs : List β) :
    (forEach f bs).run h = Expected.forEach (fun b => (f b).run h) bs := by
  induction bs with
  | nil => rfl
  | cons b bs ih => rw [forEach, run_bind, Expected.forEach_cons, ih]

/-- A loop of programs that collects runs as the loop of their runs that does. -/
@[simp] theorem run_mapEach (f : β → Resumption A B ε R) (bs : List β) :
    (mapEach f bs).run h = Expected.mapEach (fun b => (f b).run h) bs := by
  induction bs with
  | nil => rfl
  | cons b bs ih =>
    rw [mapEach, run_bind, Expected.mapEach_cons]
    refine bind_congr fun r => ?_
    rw [run_bind, ih]
    rfl

end

end Resumption
