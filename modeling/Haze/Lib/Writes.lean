import Mathlib.Data.List.Induction
import Mathlib.Data.List.Pairwise
import Mathlib.Data.Nat.Notation
import Mathlib.Logic.Function.Basic
import Mathlib.Tactic.Common

/-!
# Writes to a map

A sequence of writes to a map from keys to values. What a key has afterwards is the last value that
was written to it, and what it had before where there is none (`all_eq`).

Copies from key to key write one after the other too, but each reads what the copies before it have
left. They copy what was there at the start exactly when no copy reads a key that an earlier one has
changed (`copyEach_eq_iff`).
-/

namespace Writes

variable {κ ν μ : Type} [DecidableEq κ]

/-- The map after a key was written. -/
def one (v : κ → Option ν) (write : κ × ν) : κ → Option ν :=
  Function.update v write.1 (some write.2)

/-- The map after several writes in order. -/
def all (v : κ → Option ν) (writes : List (κ × ν)) : κ → Option ν := writes.foldl one v

/-- The last value that is written to a key, if any is. -/
def last (writes : List (κ × ν)) : κ → Option ν := all (fun _ => none) writes

variable {v : κ → Option ν} {writes : List (κ × ν)} {a : κ}

/-- Writes that follow others are made on what the others leave. -/
theorem all_append (v : κ → Option ν) (writes writes' : List (κ × ν)) :
    all v (writes ++ writes') = all (all v writes) writes' :=
  List.foldl_append

/-- A write decides what its key has, unless a later one does. -/
theorem all_eq (v : κ → Option ν) (writes : List (κ × ν)) (a : κ) :
    all v writes a = (last writes a).or (v a) := by
  induction writes using List.reverseRecOn with
  | nil => rfl
  | append_singleton writes write ih =>
    have hone : ∀ u : κ → Option ν, all (all u writes) [write] a =
        if a = write.1 then some write.2 else all u writes a := fun u => by
      change Function.update _ _ _ a = _
      rw [Function.update_apply]
    rw [last, all_append, all_append, hone, hone]
    split_ifs
    · rfl
    · exact ih

/-- The later of two sequences of writes decides what is written last. -/
theorem last_append (writes writes' : List (κ × ν)) (a : κ) :
    last (writes ++ writes') a = (last writes' a).or (last writes a) := by
  rw [last, all_append, all_eq]
  rfl

/-- What no write is to stays. -/
theorem all_of_notMem (h : a ∉ writes.map Prod.fst) : all v writes a = v a := by
  induction writes generalizing v with
  | nil => rfl
  | cons write writes ih =>
    rw [List.map_cons, List.mem_cons, not_or] at h
    refine (ih h.2).trans ?_
    exact Function.update_of_ne h.1 _ _

/-- A key that is written has a last value. -/
theorem last_eq_none : last writes a = none ↔ a ∉ writes.map Prod.fst := by
  refine ⟨fun h hmem => ?_, all_of_notMem⟩
  induction writes using List.reverseRecOn with
  | nil => exact List.not_mem_nil hmem
  | append_singleton writes write ih =>
    rw [last, all_append] at h
    change Function.update (last writes) _ _ a = none at h
    rw [Function.update_apply] at h
    split_ifs at h with ha
    rw [List.map_append, List.mem_append] at hmem
    rcases hmem with hmem | hmem
    · exact ih h hmem
    · exact ha (by simpa using hmem)

/-- The last write to a key is the last of the later ones, or the first write if it is to that key.
-/
theorem last_cons (write : κ × ν) (writes : List (κ × ν)) (a : κ) :
    last (write :: writes) a =
      (last writes a).or (if a = write.1 then some write.2 else none) := by
  change all (one (fun _ => none) write) writes a = _
  rw [all_eq]
  congr 1
  exact Function.update_apply ..

/-- What a key has last was written to it. -/
theorem mem_of_last {value : ν} (h : last writes a = some value) : (a, value) ∈ writes := by
  induction writes with
  | nil => cases h
  | cons write writes ih =>
    rw [last_cons] at h
    rcases hrest : last writes a with _ | value' <;> rw [hrest] at h
    · rw [Option.none_or] at h
      split_ifs at h with ha
      rw [ha, ← Option.some.inj h]
      exact List.mem_cons_self ..
    · exact List.mem_cons_of_mem _ (ih (hrest.trans h))

/-- Where no key is written twice, each has what is written to it. -/
theorem last_of_mem (hdistinct : (writes.map Prod.fst).Nodup) {write : κ × ν}
    (h : write ∈ writes) : last writes write.1 = some write.2 := by
  obtain ⟨before, after, rfl⟩ := List.append_of_mem h
  rw [List.map_append, List.map_cons, List.nodup_append, List.nodup_cons] at hdistinct
  rw [last, all_append]
  change all (one _ write) after write.1 = _
  rw [all_of_notMem hdistinct.2.1.1]
  exact Function.update_self ..

/-- Keys that are all written one value have it. -/
theorem last_const (value : ν) (keys : List κ) (a : κ) :
    last (keys.map (·, value)) a = if a ∈ keys then some value else none := by
  rcases hlast : last (keys.map (·, value)) a with _ | value'
  · have ha := last_eq_none.mp hlast
    rw [List.map_map] at ha
    exact (if_neg (by simpa using ha)).symm
  · obtain ⟨b, hb, heq⟩ := List.mem_map.mp (mem_of_last hlast)
    cases heq
    exact (if_pos hb).symm

/-- Writing the images of values is taking the image of what is written last. -/
theorem last_map (f : κ → ν → μ) (writes : List (κ × ν)) (a : κ) :
    last (writes.map fun write => (write.1, f write.1 write.2)) a = (last writes a).map (f a) := by
  induction writes with
  | nil => rfl
  | cons write writes ih =>
    rw [List.map_cons, last_cons, last_cons, ih]
    rcases last writes a with _ | value
    · rw [Option.map_none, Option.none_or, Option.none_or]
      split_ifs with ha
      · rw [ha]
        rfl
      · rfl
    · rfl

/-! ## Copies -/

/-- The map after copies from a second key to a first, in order. -/
def copyEach (v : κ → ν) (copies : List (κ × κ)) : κ → ν :=
  copies.foldl (fun v copy => Function.update v copy.1 (v copy.2)) v

variable {f : κ → ν} {copies : List (κ × κ)}

/-- What a key has after copies is what some key had before them, whatever the values. -/
theorem copyEach_comp (f : κ → ν) (g : ν → μ) (copies : List (κ × κ)) :
    copyEach (g ∘ f) copies = g ∘ copyEach f copies := by
  induction copies generalizing f with
  | nil => rfl
  | cons copy copies ih =>
    have hone : Function.update (g ∘ f) copy.1 ((g ∘ f) copy.2) =
        g ∘ Function.update f copy.1 (f copy.2) :=
      (Function.comp_update g f copy.1 (f copy.2)).symm
    change copyEach (Function.update (g ∘ f) copy.1 ((g ∘ f) copy.2)) copies = _
    rw [hone]
    exact ih _

/-- A key keeps its value unless it is copied to. -/
theorem copyEach_of_notMem (h : a ∉ copies.map Prod.fst) : copyEach f copies a = f a := by
  induction copies generalizing f with
  | nil => rfl
  | cons copy copies ih =>
    rw [List.map_cons, List.mem_cons, not_or] at h
    refine (ih h.2).trans ?_
    exact Function.update_of_ne h.1 _ _

/-- A key that is never copied to may be read by every copy. -/
theorem copyEach_of_source (hdistinct : (copies.map Prod.fst).Nodup) {copy : κ × κ}
    (hmem : copy ∈ copies) (hsource : copy.2 ∉ copies.map Prod.fst) :
    copyEach f copies copy.1 = f copy.2 := by
  induction copies generalizing f with
  | nil => exact absurd hmem List.not_mem_nil
  | cons first copies ih =>
    rw [List.map_cons, List.nodup_cons] at hdistinct
    rw [List.map_cons, List.mem_cons, not_or] at hsource
    change copyEach (Function.update f first.1 (f first.2)) copies copy.1 = _
    rcases List.mem_cons.mp hmem with rfl | hmem
    · rw [copyEach_of_notMem hdistinct.1, Function.update_self]
    · rw [ih hdistinct.2 hmem hsource.2, Function.update_of_ne hsource.1]

/-- Copies to distinct keys copy the values at the start exactly when no copy reads a key that an
earlier copy has given another value. -/
theorem copyEach_eq_iff (hdistinct : (copies.map Prod.fst).Nodup) :
    (∀ copy ∈ copies, copyEach f copies copy.1 = f copy.2) ↔
      copies.Pairwise fun earlier later => earlier.1 = later.2 → f earlier.2 = f later.2 := by
  induction copies generalizing f with
  | nil => exact ⟨fun _ => .nil, fun _ _ h => absurd h List.not_mem_nil⟩
  | cons first copies ih =>
    rw [List.map_cons, List.nodup_cons] at hdistinct
    have hrest := ih (f := Function.update f first.1 (f first.2)) hdistinct.2
    -- The first copy is as at the start, since its key is not copied to again.
    have hfirst : copyEach f (first :: copies) first.1 = f first.2 :=
      (copyEach_of_notMem hdistinct.1).trans (Function.update_self ..)
    -- Where the later copies read the key of the first, its value has to be theirs.
    have hread : (∀ copy ∈ copies, first.1 = copy.2 → f first.2 = f copy.2) →
        ∀ copy ∈ copies, Function.update f first.1 (f first.2) copy.2 = f copy.2 := by
      intro h copy hmem
      by_cases heq : first.1 = copy.2
      · rw [← heq, Function.update_self, heq]
        exact h copy hmem heq
      · exact Function.update_of_ne (Ne.symm heq) _ _
    rw [List.forall_mem_cons, List.pairwise_cons]
    constructor
    · rintro ⟨-, hall⟩
      have hsame : ∀ copy ∈ copies, first.1 = copy.2 → f first.2 = f copy.2 := by
        intro copy hmem heq
        have hnow : copyEach f (first :: copies) copy.1 =
            Function.update f first.1 (f first.2) copy.2 :=
          copyEach_of_source hdistinct.2 hmem (heq ▸ hdistinct.1)
        rw [hall copy hmem, ← heq, Function.update_self] at hnow
        rw [← heq]
        exact hnow.symm
      refine ⟨hsame, (hrest.mp fun copy hmem => ?_).imp_of_mem fun he hl h heq => ?_⟩
      · exact (hall copy hmem).trans (hread hsame copy hmem).symm
      · rw [← hread hsame _ he, ← hread hsame _ hl]
        exact h heq
    · rintro ⟨hsame, hpairs⟩
      refine ⟨hfirst, fun copy hmem => ?_⟩
      refine (hrest.mpr ?_ copy hmem).trans (hread hsame copy hmem)
      refine hpairs.imp_of_mem fun he hl h heq => ?_
      rw [hread hsame _ he, hread hsame _ hl]
      exact h heq

end Writes
