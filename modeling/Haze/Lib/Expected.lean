import Mathlib.Logic.Basic
import Mathlib.Tactic.Common

/-!
# Methods that return a value or an error

`Expected ε σ α` is a method on an object of state `σ` whose result is a value of `α` or an error
of `ε`, as with C++'s `std::expected`. A method that fails keeps the changes that it made before
it failed: the state comes back beside the result, not inside it.

The reasoning rules are of two kinds. `Triple` is a specification with a precondition, a
postcondition for each of the two results, and a rule for each combinator, with a loop invariant
for `forEach`; `Keeps` is the specification of an invariant. `Performs` says that whatever a method
does to its state is a sequence of actions from a fixed set, each taken where its guard holds. A
property that every action keeps is then kept by every method (`Performs.preserves`), which is how
one case analysis over the actions serves any number of methods.
-/

/-- A method on a state `σ` that returns a value of `α` or an error of `ε`. -/
def Expected (ε σ α : Type) : Type := σ → Except ε α × σ

namespace Expected

variable {ε σ τ ω α β : Type}

/-! ## Combinators -/

/-- Return a value and leave the state as it is. -/
protected def pure (a : α) : Expected ε σ α := fun s => (.ok a, s)

/-- Run `x`, then `f` on its value. An error of `x` is returned with the state that `x` left. -/
protected def bind (x : Expected ε σ α) (f : α → Expected ε σ β) : Expected ε σ β := fun s =>
  match x s with
  | (.ok a, s') => f a s'
  | (.error e, s') => (.error e, s')

instance : Monad (Expected ε σ) where
  pure := Expected.pure
  bind := Expected.bind

/-- Return an error. -/
def fail (e : ε) : Expected ε σ α := fun s => (.error e, s)

/-- The current state. -/
def get : Expected ε σ σ := fun s => (.ok s, s)

/-- Change the state. -/
def modify (f : σ → σ) : Expected ε σ Unit := fun s => (.ok (), f s)

/-- Run `x` and return its result, value or error, as a value to be inspected. -/
def attempt (x : Expected ε σ α) : Expected ε σ (Except ε α) := fun s => (.ok (x s).1, (x s).2)

/-- A method that only reads the state. -/
def query (f : σ → Except ε α) : Expected ε σ α := fun s => (f s, s)

/-- Run a method of a part of the state, read by `get` and written back by `set`. -/
def zoom (get : σ → τ) (set : σ → τ → σ) (x : Expected ε τ α) : Expected ε σ α := fun s =>
  ((x (get s)).1, set s (x (get s)).2)

/-- Run `f` on each element in order, and stop at the first error. -/
def forEach (f : β → Expected ε σ Unit) : List β → Expected ε σ Unit
  | [] => Expected.pure ()
  | b :: bs => (f b).bind fun _ => forEach f bs

/-- Run `f` on each element in order and collect the values, and stop at the first error. -/
def mapEach (f : β → Expected ε σ α) : List β → Expected ε σ (List α)
  | [] => Expected.pure []
  | b :: bs => (f b).bind fun a => (mapEach f bs).bind fun as => Expected.pure (a :: as)

/-! ## Running a combinator -/

/-- Returning a value leaves the state. -/
@[simp] theorem pure_run (a : α) (s : σ) : (pure a : Expected ε σ α) s = (.ok a, s) := rfl

/-- Failing leaves the state. -/
@[simp] theorem fail_run (e : ε) (s : σ) : (fail e : Expected ε σ α) s = (.error e, s) := rfl

/-- Reading returns the state and leaves it. -/
@[simp] theorem get_run (s : σ) : (get : Expected ε σ σ) s = (.ok s, s) := rfl

/-- A change returns nothing of interest. -/
@[simp] theorem modify_run (f : σ → σ) (s : σ) : (modify f : Expected ε σ Unit) s = (.ok (), f s) :=
  rfl

/-- Attempting a method returns its result as a value, and leaves the state that the method leaves.
-/
@[simp] theorem attempt_run (x : Expected ε σ α) (s : σ) :
    attempt x s = (.ok (x s).1, (x s).2) := rfl

/-- A query returns what it computes from the state, and leaves the state. -/
@[simp] theorem query_run (f : σ → Except ε α) (s : σ) : (query f : Expected ε σ α) s = (f s, s) :=
  rfl

/-- A method on a part of the state returns what it returns on that part, and changes that part
alone. -/
@[simp] theorem zoom_run (get : σ → τ) (set : σ → τ → σ) (x : Expected ε τ α) (s : σ) :
    zoom get set x s = ((x (get s)).1, set s (x (get s)).2) := rfl

/-- A loop over nothing does nothing. -/
@[simp] theorem forEach_nil (f : β → Expected ε σ Unit) (s : σ) : forEach f [] s = (.ok (), s) := rfl

/-- A loop runs its first round, and then the others. -/
theorem forEach_cons (f : β → Expected ε σ Unit) (b : β) (bs : List β) :
    forEach f (b :: bs) = f b >>= fun _ => forEach f bs := rfl

/-- A loop over nothing returns nothing. -/
@[simp] theorem mapEach_nil (f : β → Expected ε σ α) (s : σ) : mapEach f [] s = (.ok [], s) := rfl

/-- A loop that collects runs its first round, then the others, and returns all values. -/
theorem mapEach_cons (f : β → Expected ε σ α) (b : β) (bs : List β) :
    mapEach f (b :: bs) = f b >>= fun a => mapEach f bs >>= fun as => pure (a :: as) := rfl

/-- A sequence whose first part succeeds is its second part, run where the first ended. -/
theorem bind_run_ok {x : Expected ε σ α} {f : α → Expected ε σ β} {s s' : σ} {a : α}
    (h : x s = (.ok a, s')) : (x >>= f) s = f a s' := by
  change Expected.bind x f s = _
  simp only [Expected.bind, h]

/-- A sequence whose first part fails ends there. -/
theorem bind_run_error {x : Expected ε σ α} {f : α → Expected ε σ β} {s s' : σ} {e : ε}
    (h : x s = (.error e, s')) : (x >>= f) s = (.error e, s') := by
  change Expected.bind x f s = _
  simp only [Expected.bind, h]

/-- Sequences associate. -/
protected theorem bind_assoc {γ : Type} (x : Expected ε σ α) (f : α → Expected ε σ β)
    (g : β → Expected ε σ γ) : x >>= f >>= g = x >>= fun a => f a >>= g := by
  funext s
  rcases hx : x s with ⟨e | a, s'⟩
  · rw [bind_run_error (bind_run_error hx), bind_run_error hx]
  · rw [bind_run_ok hx]
    rcases hf : f a s' with ⟨e | b, s''⟩
    · rw [bind_run_error ((bind_run_ok hx).trans hf), bind_run_error hf]
    · rw [bind_run_ok ((bind_run_ok hx).trans hf), bind_run_ok hf]

/-- Dropping the value of a method changes nothing of its effect. -/
theorem bind_pure_state (x : Expected ε σ α) (b : β) (s : σ) :
    ((x >>= fun _ => pure b : Expected ε σ β) s).2 = (x s).2 := by
  rcases hx : x s with ⟨e | a, s'⟩
  · rw [bind_run_error hx]
  · rw [bind_run_ok hx]
    rfl

/-- What is bound to a reading gets the state. -/
@[simp] theorem get_bind_run (f : σ → Expected ε σ β) (s : σ) : (get >>= f) s = f s s := rfl

/-- What is bound to a value gets the value. -/
@[simp] theorem pure_bind_run (a : α) (f : α → Expected ε σ β) (s : σ) :
    ((pure a : Expected ε σ α) >>= f) s = f a s := rfl

/-- What is bound to a failure does not run. -/
@[simp] theorem fail_bind_run (e : ε) (f : α → Expected ε σ β) (s : σ) :
    ((fail e : Expected ε σ α) >>= f) s = (.error e, s) := rfl

/-- What is bound to a change runs in the changed state. -/
@[simp] theorem modify_bind_run (g : σ → σ) (f : Unit → Expected ε σ β) (s : σ) :
    (modify g >>= f) s = f () (g s) := rfl

/-- What is bound to an attempt gets the result, be it a failure or not. -/
@[simp] theorem attempt_bind_run (x : Expected ε σ α) (f : Except ε α → Expected ε σ β) (s : σ) :
    (attempt x >>= f) s = f (x s).1 (x s).2 := rfl

/-- A loop over one element is its round. -/
theorem forEach_singleton (f : β → Expected ε σ Unit) (b : β) : forEach f [b] = f b := by
  funext s
  rw [forEach_cons]
  rcases h : f b s with ⟨e | _, s'⟩
  · exact bind_run_error h
  · exact bind_run_ok h

/-- A loop over two lists is two loops. -/
theorem forEach_append (f : β → Expected ε σ Unit) (bs cs : List β) :
    forEach f (bs ++ cs) = forEach f bs >>= fun _ => forEach f cs := by
  induction bs with
  | nil => rfl
  | cons b bs ih => rw [List.cons_append, forEach_cons, forEach_cons, ih, Expected.bind_assoc]

/-- A loop over the image of a list is a loop over the list. -/
theorem forEach_map {γ : Type} (f : β → Expected ε σ Unit) (g : γ → β) (cs : List γ) :
    forEach f (cs.map g) = forEach (fun c => f (g c)) cs := by
  induction cs with
  | nil => rfl
  | cons c cs ih => rw [List.map_cons, forEach_cons, forEach_cons, ih]

/-- What is bound to a query that succeeds gets its value. -/
theorem query_bind_ok {f : σ → Except ε α} {g : α → Expected ε σ β} {s : σ} {a : α}
    (h : f s = .ok a) : (query f >>= g) s = g a s :=
  bind_run_ok (by rw [query_run, h])

/-- What is bound to a query that fails does not run. -/
theorem query_bind_error {f : σ → Except ε α} {g : α → Expected ε σ β} {s : σ} {e : ε}
    (h : f s = .error e) : (query f >>= g) s = (.error e, s) :=
  bind_run_error (by rw [query_run, h])

/-- A sequence succeeds exactly when both of its parts do. -/
theorem bind_eq_ok {x : Expected ε σ α} {f : α → Expected ε σ β} {s s' : σ} {b : β} :
    (x >>= f) s = (.ok b, s') ↔ ∃ a s₁, x s = (.ok a, s₁) ∧ f a s₁ = (.ok b, s') := by
  rcases hx : x s with ⟨_ | a, s₁⟩
  · rw [bind_run_error hx]
    simp
  · rw [bind_run_ok hx]
    constructor
    · intro h
      exact ⟨a, s₁, rfl, h⟩
    · rintro ⟨a', s₁', he, h⟩
      cases he
      exact h

/-- A sequence returns an error only if one of its parts does. -/
theorem bind_ne_error {x : Expected ε σ α} {f : α → Expected ε σ β} {s : σ} {e : ε}
    (hx : (x s).1 ≠ .error e) (hf : ∀ a s', x s = (.ok a, s') → (f a s').1 ≠ .error e) :
    ((x >>= f) s).1 ≠ .error e := by
  rcases hr : x s with ⟨e' | a, s'⟩
  · rw [bind_run_error hr]
    rw [hr] at hx
    exact fun h => hx (Except.error.inj h ▸ rfl)
  · rw [bind_run_ok hr]
    exact hf a s' hr

/-- A loop of methods that leave the state as it is leaves it as it is. -/
theorem mapEach_unchanged {f : β → Expected ε σ α} (hf : ∀ b s, (f b s).2 = s) {bs : List β}
    (s : σ) : (mapEach f bs s).2 = s := by
  -- By induction on the list; every element starts from the same state.
  induction bs with
  | nil => rfl
  | cons b bs ih =>
    have hb := hf b s
    rw [mapEach_cons]
    rcases hr : f b s with ⟨e | a, s'⟩
    · rw [bind_run_error hr]
      rwa [hr] at hb
    · rw [hr] at hb
      change s' = s at hb
      subst hb
      rw [bind_run_ok hr]
      rcases hrest : mapEach f bs s' with ⟨e | as, s''⟩
      · rw [hrest] at ih
        rw [bind_run_error hrest]
        exact ih
      · rw [hrest] at ih
        rw [bind_run_ok hrest]
        exact ih

/-- A loop that runs to its end leaves for every element what its own round establishes, when the
other rounds keep it. -/
theorem forEach_establishes {f : β → Expected ε σ Unit} {Q : β → σ → Prop}
    (hself : ∀ b s s', f b s = (.ok (), s') → Q b s')
    (hkeep : ∀ b b' s s', f b s = (.ok (), s') → Q b' s → Q b' s') {bs : List β} {s s' : σ}
    (h : forEach f bs s = (.ok (), s')) : ∀ b ∈ bs, Q b s' := by
  -- By induction on the list, together with what held before the loop.
  have hall : ∀ bs s s', forEach f bs s = (.ok (), s') →
      (∀ b ∈ bs, Q b s') ∧ ∀ b, Q b s → Q b s' := by
    intro bs
    induction bs with
    | nil =>
      intro s s' h
      cases h
      exact ⟨fun b hb => absurd hb List.not_mem_nil, fun b hb => hb⟩
    | cons c bs ih =>
      intro s s' h
      rw [forEach_cons, bind_eq_ok] at h
      obtain ⟨_, s₁, hc, hrest⟩ := h
      obtain ⟨hin, hold⟩ := ih s₁ s' hrest
      refine ⟨fun b hb => ?_, fun b hb => hold b (hkeep c b s s₁ hc hb)⟩
      rcases List.mem_cons.mp hb with rfl | hb
      · exact hold b (hself b s s₁ hc)
      · exact hin b hb
  exact (hall bs s s' h).1

/-- A loop whose rounds succeed for the elements of `p` is the fold of these rounds over the leading
elements of `p`, and the loop over the rest. -/
theorem forEach_dropWhile {f : β → Expected ε σ Unit} {g : σ → β → σ} {p : β → Bool} {I : σ → Prop}
    (hok : ∀ b s, I s → p b = true → f b s = (.ok (), g s b) ∧ I (g s b)) (bs : List β) {s : σ}
    (hs : I s) : forEach f bs s = forEach f (bs.dropWhile p) ((bs.takeWhile p).foldl g s) ∧
      I ((bs.takeWhile p).foldl g s) := by
  induction bs generalizing s with
  | nil => exact ⟨rfl, hs⟩
  | cons b bs ih =>
    by_cases hp : p b = true
    · obtain ⟨hrun, hI⟩ := hok b s hs hp
      rw [List.dropWhile_cons_of_pos hp, List.takeWhile_cons_of_pos hp, List.foldl_cons,
        forEach_cons, bind_run_ok hrun]
      exact ih hI
    · rw [List.dropWhile_cons_of_neg hp, List.takeWhile_cons_of_neg hp]
      exact ⟨rfl, hs⟩

/-! ## Specifications -/

/-- From a state of `P`, the method ends in a state of `Q` when it returns a value and of `E` when
it returns an error. -/
def Triple (P : σ → Prop) (x : Expected ε σ α) (Q : α → σ → Prop) (E : ε → σ → Prop) : Prop :=
  ∀ s, P s → match x s with
    | (.ok a, s') => Q a s'
    | (.error e, s') => E e s'

namespace Triple

variable {P P' : σ → Prop} {Q Q' : α → σ → Prop} {E E' : ε → σ → Prop} {R : β → σ → Prop}

/-- The rule of consequence. -/
theorem mono {x : Expected ε σ α} (h : Triple P x Q E) (hP : ∀ s, P' s → P s)
    (hQ : ∀ a s, Q a s → Q' a s) (hE : ∀ e s, E e s → E' e s) : Triple P' x Q' E' := by
  intro s hs
  have hx := h s (hP s hs)
  rcases hr : x s with ⟨e | a, s'⟩
  · rw [hr] at hx
    exact hE e s' hx
  · rw [hr] at hx
    exact hQ a s' hx

/-- What holds of the result when the method returns a value. -/
theorem ok {x : Expected ε σ α} (h : Triple P x Q E) {s s' : σ} {a : α} (hs : P s)
    (hx : x s = (.ok a, s')) : Q a s' := by
  have := h s hs
  rw [hx] at this
  exact this

/-- What holds of the result when the method returns an error. -/
theorem error {x : Expected ε σ α} (h : Triple P x Q E) {s s' : σ} {e : ε} (hs : P s)
    (hx : x s = (.error e, s')) : E e s' := by
  have := h s hs
  rw [hx] at this
  exact this

/-- What holds of the state that the method leaves, whatever it returns. -/
theorem state {x : Expected ε σ α} {I : σ → Prop} (h : Triple P x (fun _ => I) fun _ => I) {s : σ}
    (hs : P s) : I (x s).2 := by
  rcases hr : x s with ⟨e | a, s'⟩
  · exact h.error hs hr
  · exact h.ok hs hr

/-- Returning a value establishes what the precondition says of it. -/
theorem pure {a : α} (h : ∀ s, P s → Q a s) : Triple P (Pure.pure a : Expected ε σ α) Q E :=
  fun s hs => h s hs

/-- Failing establishes what the precondition says of the error. -/
theorem fail {e : ε} (h : ∀ s, P s → E e s) : Triple P (Expected.fail e : Expected ε σ α) Q E :=
  fun s hs => h s hs

/-- A sequence goes from the precondition of its first part to the postcondition of its second. -/
theorem bind {x : Expected ε σ α} {f : α → Expected ε σ β} (hx : Triple P x Q E)
    (hf : ∀ a, Triple (Q a) (f a) R E) : Triple P (x >>= f) R E := by
  intro s hs
  rcases hr : x s with ⟨e | a, s'⟩
  · rw [bind_run_error hr]
    exact hx.error hs hr
  · rw [bind_run_ok hr]
    exact hf a s' (hx.ok hs hr)

/-- The rest of a method starts in the state that was read. -/
theorem get_bind {f : σ → Expected ε σ β} (h : ∀ s, P s → Triple (fun s' => s' = s) (f s) R E) :
    Triple P (get >>= f) R E :=
  fun s hs => h s hs s rfl

/-- A check of the arguments before the rest of a method. -/
theorem check {v : Except ε α} {g : α → Expected ε σ β}
    (hok : ∀ a, v = .ok a → Triple P (g a) R E) (herror : ∀ e, v = .error e → ∀ s, P s → E e s) :
    Triple P (query (fun _ => v) >>= g) R E := by
  intro s hs
  rcases hv : v with e | a
  · rw [query_bind_error (f := fun _ => Except.error e) rfl]
    exact herror e hv s hs
  · rw [query_bind_ok (f := fun _ => Except.ok a) rfl]
    exact hok a hv s hs

/-- A query reads the state. -/
theorem query {f : σ → Except ε α} (hok : ∀ s a, P s → f s = .ok a → Q a s)
    (herror : ∀ s e, P s → f s = .error e → E e s) : Triple P (Expected.query f) Q E := by
  intro s hs
  rw [query_run]
  rcases hf : f s with e | a
  · exact herror s e hs hf
  · exact hok s a hs hf

/-- A loop keeps an invariant that each of its rounds keeps. -/
theorem forEach {f : β → Expected ε σ Unit} {bs : List β}
    (h : ∀ b ∈ bs, Triple P (f b) (fun _ => P) E) :
    Triple P (Expected.forEach f bs) (fun _ => P) E := by
  induction bs with
  | nil => exact pure fun s hs => hs
  | cons b bs ih =>
    rw [forEach_cons]
    exact bind (h b (List.mem_cons_self ..)) fun _ =>
      ih fun b' hb' => h b' (List.mem_cons_of_mem _ hb')

/-- A loop that collects values keeps an invariant. The values are in `S`, and their keys are those
of the elements. -/
theorem mapEach {γ : Type} {f : β → Expected ε σ α} {S : α → Prop} {g : α → γ} {k : β → γ}
    {bs : List β} (h : ∀ b ∈ bs, Triple P (f b) (fun a s => (S a ∧ g a = k b) ∧ P s) E) :
    Triple P (Expected.mapEach f bs)
      (fun as s => ((∀ a ∈ as, S a) ∧ as.map g = bs.map k) ∧ P s) E := by
  induction bs with
  | nil => exact pure fun s hs => ⟨⟨fun a ha => absurd ha List.not_mem_nil, rfl⟩, hs⟩
  | cons b bs ih =>
    rw [mapEach_cons]
    refine bind (h b (List.mem_cons_self ..)) fun a s hs => ?_
    refine bind (Q := fun as s => ((∀ a ∈ as, S a) ∧ as.map g = bs.map k) ∧ P s)
      (ih fun b' hb' => h b' (List.mem_cons_of_mem _ hb')) (fun as => ?_) s hs.2
    refine pure fun s' hs' => ⟨⟨List.forall_mem_cons.mpr ⟨hs.1.1, hs'.1.1⟩, ?_⟩, hs'.2⟩
    rw [List.map_cons, List.map_cons, hs.1.2, hs'.1.2]

end Triple

/-- The method keeps a property of the state, whatever it returns. -/
def Keeps (I : σ → Prop) (x : Expected ε σ α) : Prop := Triple I x (fun _ => I) fun _ => I

namespace Keeps

variable {I : σ → Prop}

/-- A predicate is kept when it holds of the state that is left, whatever the result is. -/
theorem iff_state {x : Expected ε σ α} : Keeps I x ↔ ∀ s, I s → I (x s).2 := by
  constructor
  · intro h s hs
    rcases hr : x s with ⟨e | a, s'⟩
    · exact h.error hs hr
    · exact h.ok hs hr
  · intro h s hs
    have hstate := h s hs
    rcases hr : x s with ⟨e | a, s'⟩ <;> rwa [hr] at hstate

/-- The state that is left has what is kept. -/
theorem state {x : Expected ε σ α} (h : Keeps I x) {s : σ} (hs : I s) : I (x s).2 :=
  iff_state.mp h s hs

/-- A method that leaves the state as it is keeps everything. -/
theorem of_unchanged {x : Expected ε σ α} (h : ∀ s, (x s).2 = s) : Keeps I x :=
  iff_state.mpr fun s hs => (h s).symm ▸ hs

/-- Returning a value keeps everything. -/
theorem pure (a : α) : Keeps I (Pure.pure a : Expected ε σ α) := of_unchanged fun _ => rfl

/-- A change keeps what it preserves. -/
theorem modify {f : σ → σ} (h : ∀ s, I s → I (f s)) :
    Keeps I (Expected.modify f : Expected ε σ Unit) :=
  iff_state.mpr h

/-- A sequence keeps what both its parts keep. -/
theorem bind {x : Expected ε σ α} {f : α → Expected ε σ β} (hx : Keeps I x)
    (hf : ∀ a, Keeps I (f a)) : Keeps I (x >>= f) :=
  Triple.bind hx hf

/-- Reading the state first. -/
theorem get_bind {f : σ → Expected ε σ β} (h : ∀ s, Keeps I (f s)) :
    Keeps I (Expected.get >>= f) :=
  bind (of_unchanged fun _ => rfl) h

/-- A loop keeps what each of its rounds keeps. -/
theorem forEach {f : β → Expected ε σ Unit} {bs : List β} (h : ∀ b ∈ bs, Keeps I (f b)) :
    Keeps I (Expected.forEach f bs) :=
  Triple.forEach h

/-- A loop that collects keeps what each of its rounds keeps. -/
theorem mapEach {f : β → Expected ε σ α} {bs : List β} (h : ∀ b ∈ bs, Keeps I (f b)) :
    Keeps I (Expected.mapEach f bs) := by
  induction bs with
  | nil => exact of_unchanged fun _ => rfl
  | cons b bs ih =>
    rw [mapEach_cons]
    exact bind (h b (List.mem_cons_self ..)) fun _ =>
      bind (ih fun b' hb' => h b' (List.mem_cons_of_mem _ hb')) fun _ => pure _

end Keeps

/-- Whatever it returns, the method leaves a state that is related to the one it was run in. -/
def Moves (R : σ → σ → Prop) (x : Expected ε σ α) : Prop := ∀ s, R s (x s).2

namespace Moves

variable {R : σ → σ → Prop}

/-- Both parts move along the relation, and the first alone when it fails. -/
theorem bind [IsTrans σ R] {x : Expected ε σ α} {f : α → Expected ε σ β} (hx : Moves R x)
    (hf : ∀ a, Moves R (f a)) : Moves R (x >>= f) := by
  intro s
  have hfirst := hx s
  rcases hr : x s with ⟨e | a, s'⟩
  · rw [bind_run_error hr]
    rwa [hr] at hfirst
  · rw [bind_run_ok hr]
    rw [hr] at hfirst
    exact trans_of R hfirst (hf a s')

variable [Std.Refl R]

/-- A method that leaves the state as it is. -/
theorem of_unchanged {x : Expected ε σ α} (h : ∀ s, (x s).2 = s) : Moves R x :=
  fun s => (h s).symm ▸ refl_of R s

/-- Returning a value leaves the state as it is. -/
theorem pure (a : α) : Moves R (Pure.pure a : Expected ε σ α) := refl_of R

variable [IsTrans σ R]

/-- Reading the state first. -/
theorem get_bind {f : σ → Expected ε σ β} (h : ∀ s, Moves R (f s)) : Moves R (get >>= f) :=
  bind (refl_of R) h

/-- Every round moves along the relation. -/
theorem forEach {f : β → Expected ε σ Unit} {bs : List β} (h : ∀ b, Moves R (f b)) :
    Moves R (Expected.forEach f bs) := by
  induction bs with
  | nil => exact refl_of R
  | cons b bs ih =>
    rw [forEach_cons]
    exact bind (h b) fun _ => ih

end Moves

/-! ## Methods as sequences of actions -/

/-- Each action of the list meets its guard `C` in the state that it is taken in. -/
def Along (act : σ → ω → σ) (C : σ → ω → Prop) : σ → List ω → Prop
  | _, [] => True
  | s, a :: as => C s a ∧ Along act C (act s a) as

section Along

variable {act : σ → ω → σ} {C D : σ → ω → Prop}

instance Along.decidable [∀ s a, Decidable (C s a)] :
    ∀ (s : σ) (as : List ω), Decidable (Along act C s as)
  | _, [] => isTrue trivial
  | s, a :: as =>
    haveI : Decidable (Along act C (act s a) as) := Along.decidable (act s a) as
    inferInstanceAs (Decidable (C s a ∧ Along act C (act s a) as))

/-- Guards hold along two sequences when they hold along the first, and along the second from behind
it. -/
theorem along_append {s : σ} {as bs : List ω} :
    Along act C s (as ++ bs) ↔ Along act C s as ∧ Along act C (as.foldl act s) bs := by
  induction as generalizing s with
  | nil => simp [Along]
  | cons a as ih => simp only [List.cons_append, Along, List.foldl_cons, ih, and_assoc]

/-- What every action keeps under its guard holds at the end of a sequence of actions. -/
theorem Along.invariant {I : σ → Prop} (hI : ∀ s a, C s a → I s → I (act s a)) {s : σ}
    {as : List ω} (hs : I s) (h : Along act C s as) : I (as.foldl act s) := by
  induction as generalizing s with
  | nil => exact hs
  | cons a as ih => exact ih (hI s a h.1 hs) h.2

/-- Guards may be weakened along a sequence, using an invariant of it. -/
theorem Along.mono_of_invariant {I : σ → Prop} (hI : ∀ s a, C s a → I s → I (act s a))
    (hCD : ∀ s a, I s → C s a → D s a) {s : σ} {as : List ω} (hs : I s) (h : Along act C s as) :
    Along act D s as := by
  induction as generalizing s with
  | nil => trivial
  | cons a as ih => exact ⟨hCD s a hs h.1, ih (hI s a h.1 hs) h.2⟩

/-- Where the guard is exactly what an action of `G` needs to keep `I`, and enough for it to keep
`K`, a sequence of actions of `G` meets it all along exactly when `I` holds after each of its
beginnings. -/
theorem Along.iff_beginnings {G : σ → ω → Prop} {K I : σ → Prop}
    (hK : ∀ s a, G s a → C s a → K s → K (act s a))
    (hI : ∀ s a, G s a → K s → I s → (C s a ↔ I (act s a))) {s : σ} {as : List ω}
    (h : Along act G s as) (hk : K s) (hs : I s) :
    Along act C s as ↔ ∀ bs, bs <+: as → I (bs.foldl act s) := by
  -- By induction on the run, from any state that has the invariant.
  induction as generalizing s with
  | nil =>
    refine ⟨fun _ bs hbs => ?_, fun _ => trivial⟩
    rw [List.prefix_nil.mp hbs]
    exact hs
  | cons a as ih =>
    have hone := hI s a h.1 hk hs
    constructor
    · intro hc bs hbs
      -- A prefix is empty, or starts with the first step.
      rcases bs with _ | ⟨b, bs⟩
      · exact hs
      obtain ⟨rfl, hrest⟩ := List.cons_prefix_cons.mp hbs
      exact (ih h.2 (hK s b h.1 hc.1 hk) (hone.mp hc.1)).mp hc.2 bs hrest
    · intro hall
      have ha : I (act s a) := hall [a] (List.cons_prefix_cons.mpr ⟨rfl, List.nil_prefix⟩)
      have hc := hone.mpr ha
      refine ⟨hc, (ih h.2 (hK s a h.1 hc hk) ha).mpr fun bs hbs => ?_⟩
      exact hall (a :: bs) (List.cons_prefix_cons.mpr ⟨rfl, hbs⟩)

/-- Any sequence of actions may be taken. -/
theorem along_trivial (s : σ) (as : List ω) : Along act (fun _ _ => True) s as := by
  induction as generalizing s with
  | nil => trivial
  | cons a as ih => exact ⟨trivial, ih _⟩

/-- Where the guard is exactly what an action needs to keep `I`, a sequence of actions meets it all
along exactly when `I` holds after each of its beginnings. -/
theorem along_iff_prefix {K I : σ → Prop} (hK : ∀ s a, K s → K (act s a))
    (hI : ∀ s a, K s → I s → (C s a ↔ I (act s a))) {s : σ} {as : List ω} (hk : K s) (hs : I s) :
    Along act C s as ↔ ∀ bs, bs <+: as → I (bs.foldl act s) :=
  (along_trivial s as).iff_beginnings (fun s a _ _ => hK s a) (fun s a _ => hI s a) hk hs

/-- Guards along a run may be weakened. -/
theorem Along.mono (hCD : ∀ s a, C s a → D s a) {s : σ} {as : List ω} (h : Along act C s as) :
    Along act D s as :=
  h.mono_of_invariant (I := fun _ => True) (fun _ _ _ _ => trivial) (fun s a _ => hCD s a) trivial

end Along

/-- From the state `s`, whatever the method returns, the state that it leaves is reached by a
sequence of actions, each taken where its guard holds. -/
def PerformsAt (act : σ → ω → σ) (C : σ → ω → Prop) (x : Expected ε σ α) (s : σ) : Prop :=
  ∃ as, Along act C s as ∧ (x s).2 = as.foldl act s

/-- The method performs actions from every state. -/
def Performs (act : σ → ω → σ) (C : σ → ω → Prop) (x : Expected ε σ α) : Prop :=
  ∀ s, PerformsAt act C x s

namespace PerformsAt

variable {act : σ → ω → σ} {C D : σ → ω → Prop} {s : σ}

/-- A method keeps what every action keeps. -/
theorem preserves {x : Expected ε σ α} (h : PerformsAt act C x s) {I : σ → Prop}
    (hI : ∀ s a, C s a → I s → I (act s a)) (hs : I s) : I (x s).2 := by
  obtain ⟨as, has, he⟩ := h
  rw [he]
  exact has.invariant hI hs

/-- The guards of what is performed may be weakened. -/
theorem mono {x : Expected ε σ α} (h : PerformsAt act C x s) (hCD : ∀ s a, C s a → D s a) :
    PerformsAt act D x s := by
  obtain ⟨as, has, he⟩ := h
  exact ⟨as, has.mono hCD, he⟩

/-- A method that leaves the state as it is performs nothing. -/
theorem of_unchanged {x : Expected ε σ α} (h : (x s).2 = s) : PerformsAt act C x s :=
  ⟨[], trivial, h⟩

/-- A method whose effect is one action, where its guard holds. -/
theorem of_action {x : Expected ε σ α} (a : ω) (hC : C s a) (h : (x s).2 = act s a) :
    PerformsAt act C x s :=
  ⟨[a], ⟨hC, trivial⟩, h⟩

/-- The second part of a sequence runs on the value of the first and where that ended. -/
theorem bind {x : Expected ε σ α} {f : α → Expected ε σ β} (hx : PerformsAt act C x s)
    (hf : ∀ a s', x s = (.ok a, s') → PerformsAt act C (f a) s') :
    PerformsAt act C (x >>= f) s := by
  obtain ⟨as, has, he⟩ := hx
  rcases hr : x s with ⟨e | a, s'⟩
  · rw [hr] at he
    exact ⟨as, has, by rw [bind_run_error hr]; exact he⟩
  · rw [hr] at he
    obtain ⟨bs, hbs, he'⟩ := hf a s' hr
    change s' = _ at he
    subst he
    exact ⟨as ++ bs, along_append.mpr ⟨has, hbs⟩, by
      rw [bind_run_ok hr, he', List.foldl_append]⟩

/-- A read before the rest of a method. -/
theorem query_bind {f : σ → Except ε α} {g : α → Expected ε σ β}
    (h : ∀ a, f s = .ok a → PerformsAt act C (g a) s) :
    PerformsAt act C (Expected.query f >>= g) s := by
  refine bind (of_unchanged rfl) fun a s' ha => ?_
  obtain ⟨hf, rfl⟩ : f s = .ok a ∧ s = s' := by
    simpa only [query_run, Prod.mk.injEq] using ha
  exact h a hf

end PerformsAt

namespace Performs

variable {act : σ → ω → σ} {C D : σ → ω → Prop}

/-- The guards of what is performed may be weakened. -/
theorem mono {x : Expected ε σ α} (h : Performs act C x) (hCD : ∀ s a, C s a → D s a) :
    Performs act D x := fun s => (h s).mono hCD

/-- A method that leaves the state as it is performs nothing. -/
theorem of_unchanged {x : Expected ε σ α} (h : ∀ s, (x s).2 = s) : Performs act C x :=
  fun s => .of_unchanged (h s)

/-- A method whose effect is one action, where its guard holds. -/
theorem of_action {x : Expected ε σ α} (a : σ → ω) (hC : ∀ s, C s (a s))
    (h : ∀ s, (x s).2 = act s (a s)) : Performs act C x :=
  fun s => .of_action (a s) (hC s) (h s)

/-- Returning a value performs nothing. -/
theorem pure (a : α) : Performs act C (Pure.pure a : Expected ε σ α) := of_unchanged fun _ => rfl

/-- Failing performs nothing. -/
theorem fail (e : ε) : Performs act C (Expected.fail e : Expected ε σ α) :=
  of_unchanged fun _ => rfl

/-- A query performs nothing. -/
theorem query (f : σ → Except ε α) : Performs act C (Expected.query f) := of_unchanged fun _ => rfl

/-- A sequence performs what its first part performs, and what its second performs behind it. -/
theorem bind {x : Expected ε σ α} {f : α → Expected ε σ β} (hx : Performs act C x)
    (hf : ∀ a, Performs act C (f a)) : Performs act C (x >>= f) :=
  fun s => (hx s).bind fun a s' _ => hf a s'

/-- Reading the state first: the rest may depend on the state that it starts from. -/
theorem get_bind {f : σ → Expected ε σ β} (h : ∀ s, PerformsAt act C (f s) s) :
    Performs act C (Expected.get >>= f) :=
  fun s => h s

/-- An attempt performs what is attempted. -/
theorem attempt {x : Expected ε σ α} (hx : Performs act C x) :
    Performs act C (Expected.attempt x) := hx

/-- A loop performs what its rounds perform. -/
theorem forEach {f : β → Expected ε σ Unit} {bs : List β} (h : ∀ b ∈ bs, Performs act C (f b)) :
    Performs act C (Expected.forEach f bs) := by
  induction bs with
  | nil => exact of_unchanged fun _ => rfl
  | cons b bs ih =>
    rw [forEach_cons]
    exact bind (h b (List.mem_cons_self ..)) fun _ =>
      ih fun b' hb' => h b' (List.mem_cons_of_mem _ hb')

/-- A loop that collects performs what its rounds perform. -/
theorem mapEach {f : β → Expected ε σ α} {bs : List β} (h : ∀ b ∈ bs, Performs act C (f b)) :
    Performs act C (Expected.mapEach f bs) := by
  induction bs with
  | nil => exact of_unchanged fun _ => rfl
  | cons b bs ih =>
    rw [mapEach_cons]
    exact bind (h b (List.mem_cons_self ..)) fun _ =>
      bind (ih fun b' hb' => h b' (List.mem_cons_of_mem _ hb')) fun _ => pure _

end Performs

/-- What a method on a part of the state performs there, the whole performs with the actions of the
part: `lift` takes an action of the part to one of the whole. -/
theorem PerformsAt.zoom {θ : Type} {get : σ → τ} {set : σ → τ → σ} {actτ : τ → ω → τ}
    {Cτ : τ → ω → Prop} {act : σ → θ → σ} {C : σ → θ → Prop} (lift : ω → θ)
    (hset : ∀ s, set s (get s) = s) (hget : ∀ s t, get (set s t) = t)
    (hsetset : ∀ s t t', set (set s t) t' = set s t')
    (hact : ∀ s a, act s (lift a) = set s (actτ (get s) a)) (hC : ∀ s a, Cτ (get s) a → C s (lift a))
    {x : Expected ε τ α} {s : σ} (h : PerformsAt actτ Cτ x (get s)) :
    PerformsAt act C (Expected.zoom get set x) s := by
  obtain ⟨as, has, he⟩ := h
  refine ⟨as.map lift, ?_, ?_⟩
  -- The lifted steps are allowed, and they lead where the zoomed method does.
  · clear he
    induction as generalizing s with
    | nil => trivial
    | cons a as ih =>
      refine ⟨hC s a has.1, ?_⟩
      rw [hact]
      exact ih (by rw [hget]; exact has.2)
  · rw [zoom_run, he]
    clear he has
    induction as generalizing s with
    | nil => exact hset s
    | cons a as ih =>
      rw [List.map_cons, List.foldl_cons, List.foldl_cons, hact, ← ih, hget, hsetset]

end Expected
