import Haze.Core.Fhetch
import Haze.Lib.Json

/-!
# Reading the values of a polynomial

`core/polynomial_io.cpp` reads the values of a replayed polynomial from the JSON document that the
library saves it as. The layout of the document is not known there: the values are the first array
under a key `values`, wherever it is. `findValuesArray_first` says which array that is, and so
which layouts are tolerated: nothing under such a key may stand before the polynomial's values, and
everything else is free. What the numbers of a document are, and which word the JSON library
converts an element to, are parameters.
-/

namespace Haze

variable {N : Type}

/-- The array under the key `values` of an object. -/
def ownValues (members : List (String × Json N)) : Option (List (Json N)) :=
  match members.lookup "values" with
  | some (.array values) => some values
  | _ => none

mutual

/-- The first array under a key `values`: that of the object itself, or else the first one in its
members, in their order. -/
def findValuesArray : Json N → Option (List (Json N))
  | .object members => (ownValues members).or (findValuesInMembers members)
  | .array elements => findValuesInElements elements
  | _ => none

def findValuesInElements : List (Json N) → Option (List (Json N))
  | [] => none
  | v :: vs => (findValuesArray v).or (findValuesInElements vs)

def findValuesInMembers : List (String × Json N) → Option (List (Json N))
  | [] => none
  | (_, v) :: kvs => (findValuesArray v).or (findValuesInMembers kvs)

end

/-- The values of a document, where `toWord` is the library's conversion of an element to a word. A
single element that it does not convert makes the whole conversion fail. -/
def documentValues (toWord : Json N → Option UInt64) (doc : Json N) : Option (List UInt64) :=
  (findValuesArray doc).bind fun values => values.mapM toWord

/-- The compiler whose polynomials are saved as these documents, where they can be saved and parsed. -/
def CompilerReplies.ofDocuments {P : Type} (env : CompilerReplies P)
    (toWord : Json N → Option UInt64) (docs : P → ProbeName → Option (Json N)) :
    CompilerReplies P :=
  { env with savedValues := fun poly tag => (docs poly tag).bind (documentValues toWord) }

/-! ## The array that is found -/

/-- What is looked for in a part of a document. -/
def valuesOf : Json N → Option (List (Json N))
  | .object members => ownValues members
  | _ => none

mutual

/-- The walk over the document is the first place that has values. -/
theorem findValuesArray_eq : ∀ doc : Json N, findValuesArray doc = doc.findFirst valuesOf
  | .object members => by
    rw [findValuesArray, Json.findFirst, findValuesInMembers_eq members, valuesOf]
  | .array elements => by
    rw [findValuesArray, Json.findFirst, findValuesInElements_eq elements]
    rfl
  | .null => rfl
  | .boolean _ => rfl
  | .string _ => rfl
  | .number _ => rfl

/-- So it is over the elements of an array. -/
theorem findValuesInElements_eq :
    ∀ elements : List (Json N),
      findValuesInElements elements = Json.findFirstElement valuesOf elements
  | [] => rfl
  | v :: vs => by
    rw [findValuesInElements, Json.findFirstElement, findValuesArray_eq v, findValuesInElements_eq vs]

/-- So it is over the members of an object. -/
theorem findValuesInMembers_eq : ∀ members : List (String × Json N),
    findValuesInMembers members = Json.findFirstMember valuesOf members
  | [] => rfl
  | (_, v) :: kvs => by
    rw [findValuesInMembers, Json.findFirstMember, findValuesArray_eq v, findValuesInMembers_eq kvs]

end

/-- The values stand in an object of the document, before which no array stands under a key
`values`, and they are the words that the elements of the array that this object has under it are
converted to. -/
def ReadsAs (toWord : Json N → Option UInt64) (doc : Json N) (values : List UInt64) : Prop :=
  ∃ (place : Json.Place N) (members : List (String × Json N)) (elements : List (Json N)),
    place.fill (.object members) = doc ∧ place.First valuesOf (.object members) ∧
      members.lookup "values" = some (.array elements) ∧
      List.Forall₂ (fun e v => toWord e = some v) elements values

section

variable {toWord : Json N → Option UInt64}

/-- The values of an object are the array under its key, when that is an array. -/
theorem ownValues_eq_some_iff {members : List (String × Json N)} {elements : List (Json N)} :
    ownValues members = some elements ↔ members.lookup "values" = some (.array elements) := by
  unfold ownValues
  split
  · next values h => rw [h, Option.some_inj, Option.some_inj, Json.array.injEq]
  · next h =>
    constructor
    · rintro ⟨⟩
    · exact fun hlookup => absurd hlookup (h elements)

/-- Elements are read as words when each of them is, in order. -/
theorem mapM_toWord_eq_some_iff {elements : List (Json N)} {values : List UInt64} :
    elements.mapM toWord = some values ↔
      List.Forall₂ (fun e v => toWord e = some v) elements values := by
  induction elements generalizing values with
  | nil =>
    rw [List.mapM_nil, List.forall₂_nil_left_iff]
    exact Option.some_inj.trans eq_comm
  | cons e elements ih =>
    rw [List.mapM_cons, List.forall₂_cons_left_iff]
    simp only [← ih]
    rcases toWord e with _ | v
    · simp
    · rcases elements.mapM toWord with _ | vs
      · simp
      · simp [eq_comm]

/-- The array that is found is that of an object before which none is found. -/
theorem findValuesArray_eq_some_iff {doc : Json N} {elements : List (Json N)} :
    findValuesArray doc = some elements ↔
      ∃ (place : Json.Place N) (members : List (String × Json N)),
        place.fill (.object members) = doc ∧ place.First valuesOf (.object members) ∧
        members.lookup "values" = some (.array elements) := by
  rw [findValuesArray_eq, Json.findFirst_eq_some_iff]
  constructor
  · rintro ⟨place, k, hfill, hfirst, hown⟩
    cases k with
    | object members => exact ⟨place, members, hfill, hfirst, ownValues_eq_some_iff.mp hown⟩
    | _ => cases hown
  · rintro ⟨place, members, hfill, hfirst, hlookup⟩
    exact ⟨place, _, hfill, hfirst, ownValues_eq_some_iff.mpr hlookup⟩

/-- No array is found where no object of the document has one. -/
theorem findValuesArray_eq_none_iff {doc : Json N} :
    findValuesArray doc = none ↔ ∀ (place : Json.Place N) (members : List (String × Json N))
      (elements : List (Json N)), place.fill (.object members) = doc →
        members.lookup "values" ≠ some (.array elements) := by
  rw [findValuesArray_eq, Json.findFirst_eq_none]
  constructor
  · intro h place members elements hfill hlookup
    cases (h place _ hfill).symm.trans (ownValues_eq_some_iff.mpr hlookup)
  · intro h place k hfill
    cases k with
    | object members =>
      refine Option.eq_none_iff_forall_ne_some.mpr fun elements hown => ?_
      exact h place members elements hfill (ownValues_eq_some_iff.mp hown)
    | _ => rfl

/-- The walk of a document, whatever its layout. It finds the array under the key `values` of the
first object that has one, where an object stands before everything in it and otherwise the order is
that of the elements and members; and it finds nothing only where no object has one. -/
theorem findValuesArray_first (doc : Json N) :
    (∀ elements, findValuesArray doc = some elements ↔
      ∃ (place : Json.Place N) (members : List (String × Json N)),
        place.fill (.object members) = doc ∧ place.First valuesOf (.object members) ∧
        members.lookup "values" = some (.array elements)) ∧
    (findValuesArray doc = none ↔ ∀ (place : Json.Place N) (members : List (String × Json N))
      (elements : List (Json N)), place.fill (.object members) = doc →
        members.lookup "values" ≠ some (.array elements)) :=
  ⟨fun _ => findValuesArray_eq_some_iff, findValuesArray_eq_none_iff⟩

/-- The values of a document are those that it reads as. -/
theorem documentValues_eq_some_iff {doc : Json N} {values : List UInt64} :
    documentValues toWord doc = some values ↔ ReadsAs toWord doc values := by
  unfold documentValues
  rw [Option.bind_eq_some_iff]
  constructor
  · rintro ⟨elements, hfound, hvalues⟩
    obtain ⟨place, members, hfill, hfirst, hlookup⟩ := findValuesArray_eq_some_iff.mp hfound
    exact ⟨place, members, elements, hfill, hfirst, hlookup, mapM_toWord_eq_some_iff.mp hvalues⟩
  · rintro ⟨place, members, elements, hfill, hfirst, hlookup, hvalues⟩
    exact ⟨elements, findValuesArray_eq_some_iff.mpr ⟨place, members, hfill, hfirst, hlookup⟩,
      mapM_toWord_eq_some_iff.mpr hvalues⟩

end

end Haze
