import Haze.Lib.Expected

/-!
# Two methods on related states

A relation between two kinds of states relates two methods when from related states they return the
same result and leave related states (`Relates`). The rules follow the combinators, so that two
methods are compared piece by piece.

The relation may be a map of the states, on those of an invariant (`Simulates`): the second method
then does on the image of a state what the first does on the state. The map may forget a part of the
state, and then the second method does without that part; or it may add to the state what the first
never looks at.
-/

namespace Expected

variable {ε σ τ α β γ : Type}

/-- From related states, the methods return the same result and leave related states. -/
def Relates (R : σ → τ → Prop) (x : Expected ε σ α) (y : Expected ε τ α) : Prop :=
  ∀ s t, R s t → (y t).1 = (x s).1 ∧ R (x s).2 (y t).2

namespace Relates

variable {R : σ → τ → Prop}

/-- Two methods that only read, and read the same. -/
theorem query {p : σ → Except ε α} {q : τ → Except ε α} (h : ∀ s t, R s t → q t = p s) :
    Relates R (Expected.query p) (Expected.query q) :=
  fun s t hst => ⟨h s t hst, hst⟩

/-- Returning the same value on both sides. -/
theorem pure (a : α) : Relates R (Pure.pure a : Expected ε σ α) (Pure.pure a) :=
  fun _ _ hst => ⟨rfl, hst⟩

/-- Failing with the same error on both sides. -/
theorem fail (e : ε) : Relates R (Expected.fail e : Expected ε σ α) (Expected.fail e) :=
  fun _ _ hst => ⟨rfl, hst⟩

/-- Two changes that keep states related. -/
theorem modify {g : σ → σ} {h : τ → τ} (hgh : ∀ s t, R s t → R (g s) (h t)) :
    Relates R (Expected.modify g : Expected ε σ Unit) (Expected.modify h) :=
  fun s t hst => ⟨rfl, hgh s t hst⟩

/-- Sequences are related when their parts are. -/
theorem bind {x : Expected ε σ α} {y : Expected ε τ α} {g : α → Expected ε σ β}
    {h : α → Expected ε τ β} (hxy : Relates R x y) (hgh : ∀ a, Relates R (g a) (h a)) :
    Relates R (x >>= g) (y >>= h) := by
  intro s t hst
  obtain ⟨hresult, hstate⟩ := hxy s t hst
  rcases hx : x s with ⟨e | a, s'⟩
  · rcases hy : y t with ⟨r, t'⟩
    rw [hx, hy] at hresult hstate
    subst hresult
    rw [bind_run_error hx, bind_run_error hy]
    exact ⟨rfl, hstate⟩
  · rcases hy : y t with ⟨r, t'⟩
    rw [hx, hy] at hresult hstate
    subst hresult
    rw [bind_run_ok hx, bind_run_ok hy]
    exact hgh a s' t' hstate

/-- A choice that is the same in both. -/
theorem ite {c : Prop} [Decidable c] {x x' : Expected ε σ α} {y y' : Expected ε τ α}
    (hxy : Relates R x y) (hxy' : Relates R x' y') :
    Relates R (if c then x else x') (if c then y else y') := by
  split_ifs
  · exact hxy
  · exact hxy'

/-- Reading the state first. -/
theorem get_bind {g : σ → Expected ε σ β} {h : τ → Expected ε τ β}
    (hgh : ∀ s t, R s t → Relates R (g s) (h t)) :
    Relates R (Expected.get >>= g) (Expected.get >>= h) :=
  fun s t hst => hgh s t hst s t hst

/-- Attempts of related methods are related. -/
theorem attempt {x : Expected ε σ α} {y : Expected ε τ α} (h : Relates R x y) :
    Relates R (Expected.attempt x) (Expected.attempt y) := by
  intro s t hst
  obtain ⟨hresult, hstate⟩ := h s t hst
  exact ⟨congrArg Except.ok hresult, hstate⟩

/-- Loops with related rounds are related. -/
theorem forEach {g : γ → Expected ε σ Unit} {h : γ → Expected ε τ Unit} {cs : List γ}
    (hgh : ∀ c ∈ cs, Relates R (g c) (h c)) :
    Relates R (Expected.forEach g cs) (Expected.forEach h cs) := by
  induction cs with
  | nil => exact pure ()
  | cons c cs ih =>
    rw [forEach_cons, forEach_cons]
    exact bind (hgh c (List.mem_cons_self ..)) fun _ =>
      ih fun d hd => hgh d (List.mem_cons_of_mem _ hd)

/-- Loops that collect, with related rounds, are related. -/
theorem mapEach {g : γ → Expected ε σ α} {h : γ → Expected ε τ α} {cs : List γ}
    (hgh : ∀ c ∈ cs, Relates R (g c) (h c)) :
    Relates R (Expected.mapEach g cs) (Expected.mapEach h cs) := by
  induction cs with
  | nil => exact pure []
  | cons c cs ih =>
    rw [mapEach_cons, mapEach_cons]
    exact bind (hgh c (List.mem_cons_self ..)) fun _ =>
      bind (ih fun d hd => hgh d (List.mem_cons_of_mem _ hd)) fun _ => pure _

/-- A loop that hands a value on from round to round. -/
theorem foldlM {g : α → γ → Expected ε σ α} {h : α → γ → Expected ε τ α} {cs : List γ}
    (hgh : ∀ a, ∀ c ∈ cs, Relates R (g a c) (h a c)) (a : α) :
    Relates R (cs.foldlM g a) (cs.foldlM h a) := by
  induction cs generalizing a with
  | nil => exact pure a
  | cons c cs ih =>
    rw [List.foldlM_cons, List.foldlM_cons]
    exact bind (hgh a c (List.mem_cons_self ..)) fun _ =>
      ih (fun a d hd => hgh a d (List.mem_cons_of_mem _ hd)) _

/-- Two methods of parts of the states that are related with them. -/
theorem zoom {θ κ : Type} {get : σ → θ} {set : σ → θ → σ} {get' : τ → κ} {set' : τ → κ → τ}
    {S : θ → κ → Prop} {x : Expected ε θ α} {y : Expected ε κ α} (hxy : Relates S x y)
    (hget : ∀ s t, R s t → S (get s) (get' t))
    (hset : ∀ s t c d, R s t → S c d → R (set s c) (set' t d)) :
    Relates R (Expected.zoom get set x) (Expected.zoom get' set' y) := by
  intro s t hst
  obtain ⟨hresult, hstate⟩ := hxy _ _ (hget s t hst)
  exact ⟨hresult, hset s t _ _ hst hstate⟩

end Relates

/-! ## Maps of states -/

/-- On the images of the states of `I`, `y` returns what `x` returns and leaves the image of what
`x` leaves, which is in `I` again. -/
def Simulates (f : σ → τ) (I : σ → Prop) (x : Expected ε σ α) (y : Expected ε τ α) : Prop :=
  Relates (fun s t => t = f s ∧ I s) x y

namespace Simulates

variable {f : σ → τ} {I : σ → Prop}

/-- A simulation may be given by what both sides do from one state. -/
theorem of_run {x : Expected ε σ α} {y : Expected ε τ α}
    (h : ∀ s, I s → y (f s) = ((x s).1, f (x s).2) ∧ I (x s).2) : Simulates f I x y := by
  rintro s t ⟨rfl, hs⟩
  obtain ⟨hrun, hI⟩ := h s hs
  rw [hrun]
  exact ⟨rfl, rfl, hI⟩

/-- A run on the image of a state. -/
theorem run {x : Expected ε σ α} {y : Expected ε τ α} (h : Simulates f I x y) {s : σ} (hs : I s) :
    y (f s) = ((x s).1, f (x s).2) := by
  obtain ⟨hresult, hstate, -⟩ := h s (f s) ⟨rfl, hs⟩
  exact Prod.ext hresult hstate

/-- Changes that commute with the map are a simulation. -/
theorem modify {g : σ → σ} {h : τ → τ} (hgh : ∀ s, I s → h (f s) = f (g s) ∧ I (g s)) :
    Simulates f I (Expected.modify g : Expected ε σ Unit) (Expected.modify h) := by
  refine Relates.modify ?_
  rintro s t ⟨rfl, hs⟩
  exact hgh s hs

/-- A method of a part of the state that the map leaves alone. -/
theorem zoom {θ : Type} {get : σ → θ} {set : σ → θ → σ} {get' : τ → θ} {set' : τ → θ → τ}
    (x : Expected ε θ α) (hget : ∀ s, I s → get' (f s) = get s)
    (hset : ∀ s c, I s → set' (f s) c = f (set s c) ∧ I (set s c)) :
    Simulates f I (Expected.zoom get set x) (Expected.zoom get' set' x) := by
  refine Relates.zoom (S := fun c d => c = d) ?_ ?_ ?_
  · rintro c d rfl
    exact ⟨rfl, rfl⟩
  · rintro s t ⟨rfl, hs⟩
    exact (hget s hs).symm
  · intro s t c d hst hcd
    subst hcd
    rw [hst.1]
    exact hset s c hst.2

end Simulates

end Expected
