import Mathlib.Data.List.AList
import Mathlib.Tactic.Common

/-!
# Unordered maps and sets

An unordered map is one of Mathlib's association lists with distinct keys (`AList`), and an
unordered set that a program iterates over is such a map to `Unit`. The lemmas give each operation
by what a lookup finds after it, with one case distinction on the key, so that `simp` and
`split_ifs` decide a lookup after any sequence of updates.
-/

/-- An unordered map from `K` to `V`. -/
abbrev UMap (K V : Type) : Type := AList fun _ : K => V

/-- An unordered set of `K`. -/
abbrev USet (K : Type) : Type := UMap K Unit

/-- The order in which a program meets the elements of an unordered container, which may be any. -/
structure IterationOrder (α : Type) where
  /-- The elements in the order of the iteration. -/
  order : List α → List α
  /-- An iteration meets every element as often as it is there. -/
  perm : ∀ l, (order l).Perm l

/-- The iteration in the order of the list. -/
def IterationOrder.inOrder {α : Type} : IterationOrder α where
  order l := l
  perm _ := List.Perm.refl _

/-- An order has the elements of the list that it is of. -/
@[simp] theorem IterationOrder.mem_order {α : Type} (o : IterationOrder α) {l : List α} {a : α} :
    a ∈ o.order l ↔ a ∈ l := (o.perm l).mem_iff

namespace UMap

variable {K V : Type} [DecidableEq K] {m : UMap K V} {k k' : K} {v w : V}

/-- What a lookup finds after an insertion, which replaces an old binding of its key. -/
@[simp] theorem lookup_insert_ite :
    AList.lookup k' (AList.insert k v m) = if k' = k then some v else AList.lookup k' m := by
  split_ifs with h
  · subst h
    exact AList.lookup_insert m
  · exact AList.lookup_insert_ne h

/-- What a lookup finds after an erasure. -/
@[simp] theorem lookup_erase_ite :
    AList.lookup k' (AList.erase k m) = if k' = k then none else AList.lookup k' m := by
  split_ifs with h
  · subst h
    exact AList.lookup_erase k' m
  · exact AList.lookup_erase_ne h

/-- A key of the map is one that a lookup finds. -/
theorem mem_iff_lookup : k ∈ m ↔ ∃ v, AList.lookup k m = some v := by
  rw [← AList.lookup_isSome, Option.isSome_iff_exists]

/-- A key with a value is in the map. -/
theorem mem_of_lookup (h : AList.lookup k m = some v) : k ∈ m := mem_iff_lookup.mpr ⟨v, h⟩

/-- A key that is not in the map has no value. -/
theorem notMem_iff_lookup : k ∉ m ↔ AList.lookup k m = none := AList.lookup_eq_none.symm

/-- An entry of the map is a binding that a lookup finds. -/
theorem mem_entries_iff : (⟨k, v⟩ : Sigma fun _ : K => V) ∈ m.entries ↔ AList.lookup k m = some v :=
  AList.mem_lookup_iff.symm

/-- A map with no keys is empty. -/
theorem eq_empty_iff : m = ∅ ↔ ∀ k, k ∉ m := by
  constructor
  · rintro rfl k
    exact AList.notMem_empty k
  · intro h
    apply AList.ext
    rw [AList.empty_entries, List.eq_nil_iff_forall_not_mem]
    rintro ⟨k, v⟩ hmem
    exact h k (mem_of_lookup (mem_entries_iff.mp hmem))

/-- Whether a map is empty is read off its entries. -/
instance decidableEmpty (m : UMap K V) : Decidable (m = ∅) :=
  decidable_of_iff (m.entries.isEmpty = true)
    ⟨fun h => AList.ext (List.isEmpty_iff.mp h), fun h => h ▸ rfl⟩

/-- Two bindings of one value are of one key when the map is injective. -/
def Injective (m : UMap K V) : Prop :=
  ∀ k k' v, AList.lookup k m = some v → AList.lookup k' m = some v → k = k'

/-- The empty map gives no two keys one value. -/
theorem injective_empty : Injective (∅ : UMap K V) := by
  intro k k' v h
  simp at h

/-- An injective map stays injective with a binding to a value that it did not take. -/
theorem Injective.insert (h : Injective m) (hv : ∀ k', AList.lookup k' m ≠ some v) :
    Injective (AList.insert k v m) := by
  intro a b w ha hb
  rw [lookup_insert_ite] at ha hb
  split_ifs at ha hb with h₁ h₂ h₂
  · rw [h₁, h₂]
  · cases ha
    exact absurd hb (hv b)
  · cases hb
    exact absurd ha (hv a)
  · exact h a b w ha hb

/-- A map stays injective when a key is erased. -/
theorem Injective.erase (h : Injective m) : Injective (AList.erase k m) := by
  intro a b w ha hb
  rw [lookup_erase_ite] at ha hb
  split_ifs at ha hb
  exact h a b w ha hb

/-- Erasing a list of keys, one after the other. -/
def eraseAll (ks : List K) (m : UMap K V) : UMap K V := ks.foldl (fun m k => AList.erase k m) m

/-- The erased keys have no value, and the others keep theirs. -/
@[simp] theorem lookup_eraseAll {ks : List K} :
    AList.lookup k (eraseAll ks m) = if k ∈ ks then none else AList.lookup k m := by
  induction ks generalizing m with
  | nil => simp [eraseAll]
  | cons a ks ih =>
    change AList.lookup k (eraseAll ks (AList.erase a m)) = _
    rw [ih, lookup_erase_ite]
    by_cases ha : k = a <;> by_cases hk : k ∈ ks <;> simp [ha, hk]

/-- The keys that are left are those that were not erased. -/
@[simp] theorem mem_eraseAll {ks : List K} : k ∈ eraseAll ks m ↔ k ∉ ks ∧ k ∈ m := by
  rw [mem_iff_lookup, mem_iff_lookup, lookup_eraseAll]
  split_ifs with h <;> simp [h]

/-- Erasing keys that are not there changes nothing. -/
theorem eraseAll_of_notMem {ks : List K} (h : ∀ k ∈ ks, k ∉ m) : eraseAll ks m = m := by
  induction ks with
  | nil => rfl
  | cons a ks ih =>
    have ha : AList.erase a m = m :=
      AList.ext (List.kerase_of_notMem_keys (h a (List.mem_cons_self ..)))
    change eraseAll ks (AList.erase a m) = m
    rw [ha]
    exact ih fun k hk => h k (List.mem_cons_of_mem _ hk)

/-- The order in which keys are erased does not matter. -/
theorem eraseAll_perm {ks ks' : List K} (h : ks.Perm ks') : eraseAll ks m = eraseAll ks' m :=
  h.foldl_eq' (fun a _ b _ m => AList.erase_erase a b m) m

end UMap
