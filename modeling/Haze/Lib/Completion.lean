import Haze.Lib.Expected

/-!
# The exact condition for a method to complete

`CompletesIff x C` says that `x` returns a value if and only if `C` holds, whatever state it starts
in. The rules follow the combinators and give the condition of a whole method from those of its
steps: a sequence completes when both steps do, and a loop when every round does. The value that a
step hands on is known from a `Triple`.
-/

namespace Expected

variable {ε σ α β γ : Type}

/-- From every state, the method returns a value if and only if `C` holds. -/
def CompletesIff (x : Expected ε σ α) (C : Prop) : Prop := ∀ s, (∃ a, (x s).1 = .ok a) ↔ C

namespace CompletesIff

variable {C D : Prop}

/-- A condition may be replaced by one that is equivalent. -/
theorem congr {x : Expected ε σ α} (hx : CompletesIff x C) (h : C ↔ D) : CompletesIff x D :=
  fun s => (hx s).trans h

/-- Returning a value completes. -/
theorem pure (a : α) (h : C) : CompletesIff (Pure.pure a : Expected ε σ α) C :=
  fun _ => ⟨fun _ => h, fun _ => ⟨a, rfl⟩⟩

/-- Failing does not complete. -/
theorem fail (e : ε) (h : ¬ C) : CompletesIff (Expected.fail e : Expected ε σ α) C := by
  refine fun s => ⟨?_, fun hC => absurd hC h⟩
  rintro ⟨a, ha⟩
  cases ha

/-- A check completes on the condition that it checks, when this is the same in every state. -/
theorem query {f : σ → Except ε α} (h : ∀ s, (∃ a, f s = .ok a) ↔ C) :
    CompletesIff (Expected.query f) C :=
  h

/-- Changing the state completes. -/
theorem modify (f : σ → σ) (h : C) : CompletesIff (Expected.modify f : Expected ε σ Unit) C :=
  fun _ => ⟨fun _ => h, fun _ => ⟨(), rfl⟩⟩

/-- A sequence completes when both its steps do. -/
theorem bind {x : Expected ε σ α} {f : α → Expected ε σ β} {Q : α → Prop} {E : ε → σ → Prop}
    (hx : CompletesIff x C) (hvalue : Triple (fun _ => True) x (fun a _ => Q a) E)
    (hf : ∀ a, Q a → C → CompletesIff (f a) D) : CompletesIff (x >>= f) (C ∧ D) := by
  intro s
  have hs := hvalue s trivial
  rcases hrun : x s with ⟨e | a, s'⟩
  · rw [bind_run_error hrun]
    constructor
    · rintro ⟨a, ha⟩
      cases ha
    · rintro ⟨hC, -⟩
      obtain ⟨a, ha⟩ := (hx s).mpr hC
      rw [hrun] at ha
      cases ha
  · have hC : C := (hx s).mp ⟨a, congrArg Prod.fst hrun⟩
    rw [hrun] at hs
    rw [bind_run_ok hrun]
    exact (hf a hs hC s').trans ⟨fun hD => ⟨hC, hD⟩, And.right⟩

/-- A sequence whose second step completes on any value or on none. -/
theorem bind_any {x : Expected ε σ α} {f : α → Expected ε σ β} (hx : CompletesIff x C)
    (hf : ∀ a, CompletesIff (f a) D) : CompletesIff (x >>= f) (C ∧ D) := by
  refine bind (Q := fun _ => True) (E := fun _ _ => True) hx (fun s _ => ?_) fun a _ _ => hf a
  split
  · trivial
  · trivial

/-- A loop completes when every round does. -/
theorem mapEach {f : β → Expected ε σ α} {P : β → Prop} {bs : List β}
    (h : ∀ b ∈ bs, CompletesIff (f b) (P b)) :
    CompletesIff (Expected.mapEach f bs) (∀ b ∈ bs, P b) := by
  induction bs with
  | nil => exact pure [] fun b hb => absurd hb List.not_mem_nil
  | cons b bs ih =>
    rw [mapEach_cons]
    have hrest := ih fun c hc => h c (List.mem_cons_of_mem _ hc)
    refine congr (bind_any (h b (List.mem_cons_self ..)) fun a =>
      (bind_any hrest fun as => pure (C := True) (a :: as) trivial).congr ⟨And.left, ?_⟩) ?_
    · exact fun hall => ⟨hall, trivial⟩
    · exact List.forall_mem_cons.symm

end CompletesIff

end Expected
