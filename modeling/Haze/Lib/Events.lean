import Haze.Lib.Expected

/-!
# Methods that follow a plan of events

An abstract description of a method is a plan: the list of the events that it goes through on a log
of its own. An event may be refused, and then the plan stops there. `Expected.Follows` says that a
method, from every state that a log describes, goes through its plan: it returns a value exactly
when no event is refused, it fails for the reason that the first refused event is, and what it
leaves is described by the log after the events that happened. Plans are composed as the methods
are.
-/

/-- Events on logs: the effect of each, and the reason that it is refused for, if it is. -/
structure EventMachine (L E ε : Type) where
  apply : L → E → L
  refuse : L → E → Option ε

namespace EventMachine

variable {L E ε : Type} (m : EventMachine L E ε)

/-- The log after a list of events. -/
def after (l : L) (es : List E) : L := es.foldl m.apply l

/-- The events of a plan that happen: those before the first that is refused. -/
def performed : L → List E → List E
  | _, [] => []
  | l, e :: es =>
    match m.refuse l e with
    | none => e :: performed (m.apply l e) es
    | some _ => []

/-- The reason that the first refused event of a plan is refused for. -/
def refusal : L → List E → Option ε
  | _, [] => none
  | l, e :: es =>
    match m.refuse l e with
    | none => refusal (m.apply l e) es
    | some x => some x

/-- Every event of the plan happens. -/
def Completes (l : L) (es : List E) : Prop := m.refusal l es = none

variable {l : L} {e : E} {es fs : List E} {x : ε}

/-- An event that is not refused is performed, before the rest. -/
theorem performed_cons (h : m.refuse l e = none) :
    m.performed l (e :: es) = e :: m.performed (m.apply l e) es := by
  rw [performed, h]

/-- From the event that is refused on, nothing is performed. -/
theorem performed_cons_refused (h : m.refuse l e = some x) : m.performed l (e :: es) = [] := by
  rw [performed, h]

/-- What is refused after an event that is not is refused in the state behind it. -/
theorem refusal_cons (h : m.refuse l e = none) :
    m.refusal l (e :: es) = m.refusal (m.apply l e) es := by
  rw [refusal, h]

/-- The first event that is refused is the refusal. -/
theorem refusal_cons_refused (h : m.refuse l e = some x) : m.refusal l (e :: es) = some x := by
  rw [refusal, h]

/-- Of a single event the refusal is its own. -/
theorem refusal_singleton (l : L) (e : E) : m.refusal l [e] = m.refuse l e := by
  unfold refusal
  rcases m.refuse l e with _ | x <;> rfl

/-- What is performed is a beginning of the events. -/
theorem performed_prefix (l : L) (es : List E) : m.performed l es <+: es := by
  induction es generalizing l with
  | nil => exact List.nil_prefix
  | cons e es ih =>
    rcases h : m.refuse l e with _ | x
    · rw [m.performed_cons h]
      exact List.cons_prefix_cons.mpr ⟨rfl, ih _⟩
    · rw [m.performed_cons_refused h]
      exact List.nil_prefix

/-- No events complete. -/
theorem completes_nil (l : L) : m.Completes l [] := rfl

/-- Events complete when the first is not refused and the rest complete behind it. -/
theorem completes_cons :
    m.Completes l (e :: es) ↔ m.refuse l e = none ∧ m.Completes (m.apply l e) es := by
  unfold Completes
  rcases h : m.refuse l e with _ | x
  · rw [m.refusal_cons h]
    simp
  · rw [m.refusal_cons_refused h]
    simp

/-- A plan of events that are never refused. -/
theorem completes_of_possible (h : ∀ e ∈ es, ∀ l, m.refuse l e = none) (l : L) :
    m.Completes l es := by
  induction es generalizing l with
  | nil => rfl
  | cons e es ih =>
    exact m.completes_cons.mpr
      ⟨h e (List.mem_cons_self ..) l, ih (fun f hf => h f (List.mem_cons_of_mem _ hf)) _⟩

/-- Of a plan that completes, everything happens. -/
theorem performed_of_completes (h : m.Completes l es) : m.performed l es = es := by
  induction es generalizing l with
  | nil => rfl
  | cons e es ih =>
    obtain ⟨he, hes⟩ := m.completes_cons.mp h
    rw [m.performed_cons he, ih hes]

/-- The state after two sequences is that after the second, from behind the first. -/
theorem after_append (l : L) (es fs : List E) : m.after l (es ++ fs) = m.after (m.after l es) fs :=
  List.foldl_append

/-- Where the first plan completes, the second goes on from the log after it. -/
theorem performed_append (h : m.Completes l es) :
    m.performed l (es ++ fs) = es ++ m.performed (m.after l es) fs := by
  induction es generalizing l with
  | nil => rfl
  | cons e es ih =>
    obtain ⟨he, hes⟩ := m.completes_cons.mp h
    rw [List.cons_append, m.performed_cons he, ih hes]
    rfl

/-- Behind events that complete, the refusal is that of the rest. -/
theorem refusal_append (h : m.Completes l es) :
    m.refusal l (es ++ fs) = m.refusal (m.after l es) fs := by
  induction es generalizing l with
  | nil => rfl
  | cons e es ih =>
    obtain ⟨he, hes⟩ := m.completes_cons.mp h
    rw [List.cons_append, m.refusal_cons he, ih hes]
    rfl

/-- Where the first plan stops, the whole stops there. -/
theorem append_stop (h : m.refusal l es = some x) :
    m.refusal l (es ++ fs) = some x ∧ m.performed l (es ++ fs) = m.performed l es := by
  induction es generalizing l with
  | nil => cases h
  | cons e es ih =>
    rw [List.cons_append]
    rcases he : m.refuse l e with _ | y
    · rw [m.refusal_cons he] at h ⊢
      rw [m.performed_cons he, m.performed_cons he]
      obtain ⟨hrefusal, hperformed⟩ := ih h
      exact ⟨hrefusal, congrArg (e :: ·) hperformed⟩
    · rw [m.refusal_cons_refused he] at h ⊢
      rw [m.performed_cons_refused he, m.performed_cons_refused he]
      exact ⟨h, rfl⟩

/-- Two sequences complete when each does in its turn. -/
theorem completes_append :
    m.Completes l (es ++ fs) ↔ m.Completes l es ∧ m.Completes (m.after l es) fs := by
  rcases h : m.refusal l es with _ | x
  · unfold Completes
    rw [m.refusal_append h, h]
    simp
  · unfold Completes
    rw [(m.append_stop h).1, h]
    simp

/-- A plan stops at the event that is refused after the others happened. -/
theorem refusal_eq_some : m.refusal l es = some x ↔ ∃ e fs, es = m.performed l es ++ e :: fs ∧
    m.refuse (m.after l (m.performed l es)) e = some x := by
  induction es generalizing l with
  | nil => simp [refusal, performed]
  | cons f es ih =>
    rcases hf : m.refuse l f with _ | y
    · rw [m.refusal_cons hf, m.performed_cons hf, ih]
      simp [after]
    · rw [m.refusal_cons_refused hf, m.performed_cons_refused hf]
      constructor
      · exact fun h => ⟨f, es, rfl, hf.trans h⟩
      · rintro ⟨e, fs, he, hx⟩
        cases he
        exact hf.symm.trans hx

end EventMachine

namespace Expected

variable {ε σ α β γ L E : Type} {m : EventMachine L E ε} {R S : σ → L → Prop}

/-- What a method that goes through the plan `es` returns, on the log `l`: a value when the whole
plan is possible, and then `R` relates what it leaves to the log after it; when an event is refused,
the reason for that, and then `S` relates what it leaves to the log after the events that
happened. -/
def Reaches (m : EventMachine L E ε) (R S : σ → L → Prop) (es : List E) (l : L) :
    Except ε α × σ → Prop
  | (.ok _, s) => m.Completes l es ∧ R s (m.after l es)
  | (.error e, s) => m.refusal l es = some e ∧ S s (m.after l (m.performed l es))

/-- From every state that `R` relates to a log, the method goes through the plan. -/
def Follows (m : EventMachine L E ε) (R S : σ → L → Prop) (es : List E) (x : Expected ε σ α) :
    Prop :=
  ∀ s l, R s l → Reaches m R S es l (x s)

namespace Follows

variable {es fs : List E}

/-- A method that returns has performed all its events. -/
theorem ok {x : Expected ε σ α} (h : Follows m R S es x) {s s' : σ} {l : L} {a : α} (hs : R s l)
    (hx : x s = (.ok a, s')) : m.Completes l es ∧ R s' (m.after l es) := by
  have := h s l hs
  rw [hx] at this
  exact this

/-- A method that fails was refused the event that its error comes from, and has performed those
before. -/
theorem error {x : Expected ε σ α} (h : Follows m R S es x) {s s' : σ} {l : L} {e : ε} (hs : R s l)
    (hx : x s = (.error e, s')) :
    m.refusal l es = some e ∧ S s' (m.after l (m.performed l es)) := by
  have := h s l hs
  rw [hx] at this
  exact this

/-- What a method leaves, whether it fails or not. -/
theorem state {x : Expected ε σ α} (h : Follows m R S es x) (hRS : ∀ s l, R s l → S s l) {s : σ}
    {l : L} (hs : R s l) : S (x s).2 (m.after l (m.performed l es)) := by
  rcases hx : x s with ⟨e | a, s'⟩
  · exact (h.error hs hx).2
  · obtain ⟨hc, hr⟩ := h.ok hs hx
    rw [m.performed_of_completes hc]
    exact hRS _ _ hr

/-- Why a method fails. -/
theorem result {x : Expected ε σ α} (h : Follows m R S es x) {s : σ} {l : L} (hs : R s l) :
    m.refusal l es = match (x s).1 with
      | .ok _ => none
      | .error e => some e := by
  rcases hx : x s with ⟨e | a, s'⟩
  · exact (h.error hs hx).1
  · exact (h.ok hs hx).1

/-- A method that always succeeds and after which the log is that of the events, none refused. -/
theorem of_ok {x : Expected ε σ α} (hes : ∀ s l, R s l → m.Completes l es)
    (h : ∀ s l, R s l → ∃ a s', x s = (.ok a, s') ∧ R s' (m.after l es)) : Follows m R S es x := by
  intro s l hs
  obtain ⟨a, s', hx, hr⟩ := h s l hs
  rw [hx]
  exact ⟨hes s l hs, hr⟩

/-- A method that succeeds and keeps the relation goes through no events. -/
theorem silent {x : Expected ε σ α} (h : ∀ s l, R s l → ∃ a s', x s = (.ok a, s') ∧ R s' l) :
    Follows m R S [] x :=
  of_ok (fun _ l _ => m.completes_nil l) h

/-- Returning a value performs nothing. -/
theorem pure (a : α) : Follows m R S [] (Pure.pure a : Expected ε σ α) :=
  silent fun s _ hs => ⟨a, s, rfl, hs⟩

/-- The second part of a sequence goes on with its own plan from the state that the first left. -/
theorem bind_run {x : Expected ε σ α} {f : α → Expected ε σ β} (hx : Follows m R S es x)
    (hf : ∀ a s s' l, x s = (.ok a, s') → R s' l → Reaches m R S fs l (f a s')) :
    Follows m R S (es ++ fs) (x >>= f) := by
  intro s l hs
  -- The refusal of the first part stops the whole; otherwise the second part starts where it ended.
  rcases hr : x s with ⟨e | a, s'⟩
  · obtain ⟨hrefusal, hrel⟩ := hx.error hs hr
    obtain ⟨hwhole, hperformed⟩ : m.refusal l (es ++ fs) = some e ∧ _ := m.append_stop hrefusal
    rw [bind_run_error hr]
    exact ⟨hwhole, by rwa [hperformed]⟩
  · obtain ⟨hc, hrel⟩ := hx.ok hs hr
    have hrest := hf a s s' (m.after l es) hr hrel
    rw [bind_run_ok hr]
    rcases hr' : f a s' with ⟨e | b, s''⟩
    · rw [hr'] at hrest
      refine ⟨(m.refusal_append hc).trans hrest.1, ?_⟩
      rw [m.performed_append hc, m.after_append]
      exact hrest.2
    · rw [hr'] at hrest
      refine ⟨m.completes_append.mpr ⟨hc, hrest.1⟩, ?_⟩
      rw [m.after_append]
      exact hrest.2

/-- The second part of a sequence goes on with its own plan, on whatever value the first
returned. -/
theorem bind {x : Expected ε σ α} {f : α → Expected ε σ β} (hx : Follows m R S es x)
    (hf : ∀ a s s', x s = (.ok a, s') → Follows m R S fs (f a)) :
    Follows m R S (es ++ fs) (x >>= f) :=
  hx.bind_run fun a s s' l hr hrel => hf a s s' hr s' l hrel

/-- What a method does after it has read the state. -/
theorem get_bind {f : σ → Expected ε σ α} (h : ∀ s, Follows m R S es (f s)) :
    Follows m R S es (Expected.get >>= f) := fun s l hs => h s s l hs

/-- A check that passes goes through no events. -/
theorem query_bind {a : α} {g : α → Expected ε σ β} (h : Follows m R S es (g a)) :
    Follows m R S es (Expected.query (fun _ => .ok a) >>= g) := fun s l hs => h s l hs

/-- A loop goes through the plans of its rounds. -/
theorem forEach {f : β → Expected ε σ Unit} {plan : β → List E} {bs : List β}
    (h : ∀ b ∈ bs, Follows m R S (plan b) (f b)) :
    Follows m R S (bs.flatMap plan) (Expected.forEach f bs) := by
  induction bs with
  | nil => exact pure ()
  | cons b bs ih =>
    rw [forEach_cons, List.flatMap_cons]
    exact bind (h b (List.mem_cons_self ..)) fun _ _ _ _ =>
      ih fun b' hb' => h b' (List.mem_cons_of_mem _ hb')

/-- A loop follows the events of its rounds, one after the other. -/
theorem mapEach {f : β → Expected ε σ α} {plan : β → List E} {bs : List β}
    (h : ∀ b ∈ bs, Follows m R S (plan b) (f b)) :
    Follows m R S (bs.flatMap plan) (Expected.mapEach f bs) := by
  induction bs with
  | nil => exact pure []
  | cons b bs ih =>
    rw [mapEach_cons, List.flatMap_cons]
    refine bind (h b (List.mem_cons_self ..)) fun a _ _ _ => ?_
    have hrest := ih fun b' hb' => h b' (List.mem_cons_of_mem _ hb')
    rw [← List.append_nil (bs.flatMap plan)]
    exact bind hrest fun as _ _ _ => pure (a :: as)

end Follows

end Expected
