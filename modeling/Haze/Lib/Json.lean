import Mathlib.Data.List.Basic
import Mathlib.Tactic.Common

/-!
# Searching a JSON document

A JSON document is a tree whose inner nodes are arrays and objects. A search in preorder looks at a
document before its children, and at the children in their order (`Json.findFirst`). What it finds
is described by where it stands: a `Place` is the path from the document down to one of its parts,
with the siblings on both sides, and the search finds the part whose place has nothing to be found
before it (`findFirst_eq_some_iff`).
-/

/-- A JSON document over a type of numbers. The members of an object stand in the order in which they
are iterated. -/
inductive Json (N : Type) where
  | null
  | boolean (b : Bool)
  | string (s : String)
  | number (n : N)
  | array (elements : List (Json N))
  | object (members : List (String × Json N))

namespace Json

variable {N α : Type}

mutual

/-- What `p` finds first, looking at a document before its children. -/
def findFirst (p : Json N → Option α) : Json N → Option α
  | .array elements => (p (.array elements)).or (findFirstElement p elements)
  | .object members => (p (.object members)).or (findFirstMember p members)
  | j => p j

def findFirstElement (p : Json N → Option α) : List (Json N) → Option α
  | [] => none
  | j :: js => (findFirst p j).or (findFirstElement p js)

def findFirstMember (p : Json N → Option α) : List (String × Json N) → Option α
  | [] => none
  | (_, j) :: ms => (findFirst p j).or (findFirstMember p ms)

end

/-! ## Parts of a document -/

/-- Where a part of a document stands: the path down to it, with the siblings on both sides. -/
inductive Place (N : Type) where
  | here
  | element (before : List (Json N)) (inner : Place N) (after : List (Json N))
  | member (before : List (String × Json N)) (key : String) (inner : Place N)
      (after : List (String × Json N))

/-- The document with a part at a place. -/
def Place.fill : Place N → Json N → Json N
  | .here, k => k
  | .element before inner after, k => .array (before ++ inner.fill k :: after)
  | .member before key inner after, k => .object (before ++ (key, inner.fill k) :: after)

/-- In no part of the document is anything found. -/
def Bare (p : Json N → Option α) (j : Json N) : Prop :=
  ∀ (place : Place N) (k : Json N), place.fill k = j → p k = none

/-- Nothing is found before a part: not in what it is a part of, and not in what stands before it. -/
def Place.First (p : Json N → Option α) (k : Json N) : Place N → Prop
  | .here => True
  | .element before inner after =>
    p (.array (before ++ inner.fill k :: after)) = none ∧ (∀ j ∈ before, Bare p j) ∧ inner.First p k
  | .member before key inner after =>
    p (.object (before ++ (key, inner.fill k) :: after)) = none ∧
      (∀ m ∈ before, Bare p m.2) ∧ inner.First p k

section

variable {p : Json N → Option α}

/-- An array is bare when it is no place itself and all its elements are bare. -/
theorem bare_array {elements : List (Json N)} :
    Bare p (.array elements) ↔ p (.array elements) = none ∧ ∀ j ∈ elements, Bare p j := by
  constructor
  · refine fun h => ⟨h .here _ rfl, fun j hj place k hk => ?_⟩
    obtain ⟨before, after, rfl⟩ := List.append_of_mem hj
    exact h (.element before place after) k (by rw [Place.fill, hk])
  · rintro ⟨hp, h⟩ (_ | ⟨before, inner, after⟩ | ⟨before, key, inner, after⟩) k hk
    · rw [Place.fill] at hk
      rwa [hk]
    · cases hk
      exact h _ (List.mem_append_right _ (List.mem_cons_self ..)) inner k rfl
    · cases hk

/-- An object is bare when it is no place itself and all its members are bare. -/
theorem bare_object {members : List (String × Json N)} :
    Bare p (.object members) ↔ p (.object members) = none ∧ ∀ m ∈ members, Bare p m.2 := by
  constructor
  · refine fun h => ⟨h .here _ rfl, fun m hm place k hk => ?_⟩
    obtain ⟨before, after, rfl⟩ := List.append_of_mem hm
    exact h (.member before m.1 place after) k (by rw [Place.fill, hk])
  · rintro ⟨hp, h⟩ (_ | ⟨before, inner, after⟩ | ⟨before, key, inner, after⟩) k hk
    · rw [Place.fill] at hk
      rwa [hk]
    · cases hk
    · cases hk
      exact h _ (List.mem_append_right _ (List.mem_cons_self ..)) inner k rfl

/-- A document without children. -/
theorem bare_leaf {j : Json N} (harray : ∀ elements, j ≠ .array elements)
    (hobject : ∀ members, j ≠ .object members) : Bare p j ↔ p j = none := by
  refine ⟨fun h => h .here _ rfl, ?_⟩
  rintro h (_ | ⟨before, inner, after⟩ | ⟨before, key, inner, after⟩) k rfl
  · exact h
  · exact absurd rfl (harray _)
  · exact absurd rfl (hobject _)

mutual

/-- Nothing is found if and only if nothing is there. -/
theorem findFirst_eq_none : ∀ j : Json N, findFirst p j = none ↔ Bare p j
  | .array elements => by
    rw [findFirst, Option.or_eq_none_iff, findFirstElement_eq_none elements, bare_array]
  | .object members => by
    rw [findFirst, Option.or_eq_none_iff, findFirstMember_eq_none members, bare_object]
  | .null => (bare_leaf (p := p) (j := .null) nofun nofun).symm
  | .boolean x => (bare_leaf (p := p) (j := .boolean x) nofun nofun).symm
  | .string x => (bare_leaf (p := p) (j := .string x) nofun nofun).symm
  | .number x => (bare_leaf (p := p) (j := .number x) nofun nofun).symm

/-- Nothing is found in elements that are all bare, and in no others. -/
theorem findFirstElement_eq_none :
    ∀ elements : List (Json N), findFirstElement p elements = none ↔ ∀ j ∈ elements, Bare p j
  | [] => by simp [findFirstElement]
  | j :: js => by
    rw [findFirstElement, Option.or_eq_none_iff, findFirst_eq_none j, findFirstElement_eq_none js,
      List.forall_mem_cons]

/-- Nothing is found in members that are all bare, and in no others. -/
theorem findFirstMember_eq_none :
    ∀ members : List (String × Json N),
      findFirstMember p members = none ↔ ∀ m ∈ members, Bare p m.2
  | [] => by simp [findFirstMember]
  | (_, j) :: ms => by
    rw [findFirstMember, Option.or_eq_none_iff, findFirst_eq_none j, findFirstMember_eq_none ms,
      List.forall_mem_cons]

end

/-- Something is found first among the elements of an array if it is found first in one of them, and
nothing is there in those before. -/
theorem findFirstElement_append {before : List (Json N)} (h : ∀ j ∈ before, Bare p j) (j : Json N)
    (after : List (Json N)) : findFirstElement p (before ++ j :: after) =
      (findFirst p j).or (findFirstElement p after) := by
  induction before with
  | nil => rfl
  | cons b before ih =>
    rw [List.forall_mem_cons] at h
    rw [List.cons_append, findFirstElement, (findFirst_eq_none b).mpr h.1, Option.none_or, ih h.2]

/-- Behind bare members the search goes on with the next one. -/
theorem findFirstMember_append {before : List (String × Json N)} (h : ∀ m ∈ before, Bare p m.2)
    (key : String) (j : Json N) (after : List (String × Json N)) :
    findFirstMember p (before ++ (key, j) :: after) =
      (findFirst p j).or (findFirstMember p after) := by
  induction before with
  | nil => rfl
  | cons b before ih =>
    obtain ⟨bkey, b⟩ := b
    rw [List.forall_mem_cons] at h
    rw [List.cons_append, findFirstMember, (findFirst_eq_none b).mpr h.1, Option.none_or, ih h.2]

/-- What is found in a part that stands first is found. -/
theorem Place.First.findFirst_fill {a : α} {k : Json N} (hk : findFirst p k = some a)
    {place : Place N} (h : place.First p k) : findFirst p (place.fill k) = some a := by
  induction place with
  | here => exact hk
  | element before inner after ih =>
    obtain ⟨hp, hbefore, hinner⟩ := h
    rw [fill, findFirst, hp, Option.none_or, findFirstElement_append hbefore, ih hinner,
      Option.some_or]
  | member before key inner after ih =>
    obtain ⟨hp, hbefore, hinner⟩ := h
    rw [fill, findFirst, hp, Option.none_or, findFirstMember_append hbefore, ih hinner,
      Option.some_or]

/-- A node that is a place itself is found before anything in it. -/
theorem findFirst_of_own {a : α} {k : Json N} (h : p k = some a) : findFirst p k = some a := by
  cases k with
  | array elements => rw [findFirst, h, Option.some_or]
  | object members => rw [findFirst, h, Option.some_or]
  | _ => exact h

/-- There is a part in which `a` is found, and it stands first. -/
def Finds (p : Json N → Option α) (j : Json N) (a : α) : Prop :=
  ∃ (place : Place N) (k : Json N), place.fill k = j ∧ place.First p k ∧ p k = some a

mutual

/-- What is found in a node stands at a place of it that nothing comes before. -/
theorem finds_of_findFirst {a : α} : ∀ j : Json N, findFirst p j = some a → Finds p j a
  | .array elements => by
    rw [findFirst, Option.or_eq_some_iff]
    rintro (hown | ⟨hp, hchild⟩)
    · exact ⟨.here, _, rfl, trivial, hown⟩
    · obtain ⟨before, j, after, rfl, hbefore, place, k, rfl, hfirst, hk⟩ :=
        finds_of_findFirstElement elements hchild
      exact ⟨.element before place after, k, rfl, ⟨hp, hbefore, hfirst⟩, hk⟩
  | .object members => by
    rw [findFirst, Option.or_eq_some_iff]
    rintro (hown | ⟨hp, hchild⟩)
    · exact ⟨.here, _, rfl, trivial, hown⟩
    · obtain ⟨before, key, j, after, rfl, hbefore, place, k, rfl, hfirst, hk⟩ :=
        finds_of_findFirstMember members hchild
      exact ⟨.member before key place after, k, rfl, ⟨hp, hbefore, hfirst⟩, hk⟩
  | .null => fun h => ⟨.here, _, rfl, trivial, h⟩
  | .boolean _ => fun h => ⟨.here, _, rfl, trivial, h⟩
  | .string _ => fun h => ⟨.here, _, rfl, trivial, h⟩
  | .number _ => fun h => ⟨.here, _, rfl, trivial, h⟩

/-- What is found in elements stands in one of them, behind bare ones. -/
theorem finds_of_findFirstElement {a : α} : ∀ elements : List (Json N),
    findFirstElement p elements = some a → ∃ before j after, before ++ j :: after = elements ∧
      (∀ b ∈ before, Bare p b) ∧ Finds p j a
  | [] => fun h => nomatch h
  | j :: js => by
    rw [findFirstElement, Option.or_eq_some_iff]
    rintro (hown | ⟨hnone, hrest⟩)
    · exact ⟨[], j, js, rfl, fun b hb => absurd hb List.not_mem_nil, finds_of_findFirst j hown⟩
    · obtain ⟨before, k, after, rfl, hbefore, hk⟩ := finds_of_findFirstElement js hrest
      exact ⟨j :: before, k, after, rfl,
        List.forall_mem_cons.mpr ⟨(findFirst_eq_none j).mp hnone, hbefore⟩, hk⟩

/-- What is found in members stands in one of them, behind bare ones. -/
theorem finds_of_findFirstMember {a : α} : ∀ members : List (String × Json N),
    findFirstMember p members = some a → ∃ before key j after,
      before ++ (key, j) :: after = members ∧ (∀ m ∈ before, Bare p m.2) ∧ Finds p j a
  | [] => fun h => nomatch h
  | (key, j) :: ms => by
    rw [findFirstMember, Option.or_eq_some_iff]
    rintro (hown | ⟨hnone, hrest⟩)
    · exact ⟨[], key, j, ms, rfl, fun b hb => absurd hb List.not_mem_nil, finds_of_findFirst j hown⟩
    · obtain ⟨before, bkey, k, after, rfl, hbefore, hk⟩ := finds_of_findFirstMember ms hrest
      exact ⟨(key, j) :: before, bkey, k, after, rfl,
        List.forall_mem_cons.mpr ⟨(findFirst_eq_none j).mp hnone, hbefore⟩, hk⟩

end

/-- The search finds what stands first. -/
theorem findFirst_eq_some_iff {a : α} {j : Json N} : findFirst p j = some a ↔ Finds p j a := by
  refine ⟨finds_of_findFirst j, ?_⟩
  rintro ⟨place, k, rfl, hfirst, hk⟩
  exact hfirst.findFirst_fill (findFirst_of_own hk)

end

end Json
