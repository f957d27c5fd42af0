import Haze.Lib.Expected
import Mathlib.Algebra.GroupWithZero.Nat
import Mathlib.Data.List.SplitLengths

/-!
# Slicing the values of an array

`slice_array_values` of `replay_bridge/src/openfhe_template.cpp` cuts the flat list of a captured
array's residues into one row for each ciphertext element. A cursor runs through the flat list
across the rows, and nothing but the check of the total keeps it inside. `sliceRows_run` is the
invariant: from any cursor with enough values behind it, the rows are the consecutive pieces of the
remaining values, and the cursor moves by their total. So the function throws on a wrong total and
otherwise inverts the concatenation of the rows (`sliceArrayValues_exact`).

The access to the flat list is checked in the model, so that an access outside it would be a result
of its own. Sizes are natural numbers: the vectors lie in memory together.
-/

namespace Haze

namespace Bridge

/-- How a function of the bridge ends other than by returning. -/
inductive Fault where
  /-- A `std::runtime_error` with its text. -/
  | runtimeError (what : String)
  /-- An access outside a vector, which C++ leaves undefined. -/
  | outOfRange
deriving DecidableEq

/-- Read the value at the cursor and move the cursor past it. -/
def nextValue (perResidueValues : List (List UInt64)) : Expected Fault ℕ (List UInt64) := do
  let cursor ← Expected.get
  match perResidueValues[cursor]? with
  | none => Expected.fail .outOfRange
  | some value => do
    Expected.modify fun cursor => cursor + 1
    pure value

/-- The row of one element: as many values as the element has moduli. -/
def sliceRow (perResidueValues : List (List UInt64)) (elemModuli : List UInt64) :
    Expected Fault ℕ (List (List UInt64)) :=
  Expected.mapEach (fun _ => nextValue perResidueValues) (List.range elemModuli.length)

/-- The text of the exception of `slice_array_values`. -/
def sliceMismatch (size expected : ℕ) : String :=
  "slice_array_values: per_residue_values.size()=" ++ toString size ++
    " != sum of per_element_moduli sizes (" ++ toString expected ++ ")"

/-- Reshape flat per-residue values into per-element rows, with the sizes of the moduli lists as
boundaries. -/
def sliceArrayValues (perResidueValues : List (List UInt64))
    (perElementModuli : List (List UInt64)) : Except Fault (List (List (List UInt64))) :=
  let expected := perElementModuli.foldl (fun sum m => sum + m.length) 0
  if perResidueValues.length ≠ expected then
    .error (.runtimeError (sliceMismatch perResidueValues.length expected))
  else (Expected.mapEach (sliceRow perResidueValues) perElementModuli 0).1

variable (values : List (List UInt64)) (moduli : List (List UInt64))

/-! ## The cursor -/

/-- Below the number of values the next one is taken. -/
theorem nextValue_run {cursor : ℕ} (h : cursor < values.length) :
    nextValue values cursor = (.ok values[cursor], cursor + 1) := by
  unfold nextValue
  rw [Expected.get_bind_run, List.getElem?_eq_getElem h]
  rfl

/-- Reading a number of values from the cursor on. The induction is on the positions that the inner
loop runs over, of which only their number matters. -/
theorem nextValues_run (is : List ℕ) {cursor : ℕ} (h : cursor + is.length ≤ values.length) :
    Expected.mapEach (fun _ => nextValue values) is cursor =
      (.ok ((values.drop cursor).take is.length), cursor + is.length) := by
  induction is generalizing cursor with
  | nil => rfl
  | cons i is ih =>
    rw [List.length_cons] at h ⊢
    have hin : cursor < values.length := by omega
    rw [Expected.mapEach_cons, Expected.bind_run_ok (nextValue_run values hin),
      Expected.bind_run_ok (ih (by omega)), List.drop_eq_getElem_cons hin, List.take_succ_cons,
      Nat.add_right_comm, Nat.add_assoc]
    rfl

/-- A row takes as many values as it has moduli. -/
theorem sliceRow_run (row : List UInt64) {cursor : ℕ} (h : cursor + row.length ≤ values.length) :
    sliceRow values row cursor =
      (.ok ((values.drop cursor).take row.length), cursor + row.length) := by
  have hrange : cursor + (List.range row.length).length ≤ values.length := by
    rwa [List.length_range]
  have hrun := nextValues_run values (List.range row.length) hrange
  rwa [List.length_range] at hrun

/-- The loop over the elements: the rows are the consecutive pieces of the values behind the cursor,
which moves by their total. -/
theorem sliceRows_run {cursor : ℕ} (h : cursor + (moduli.map List.length).sum ≤ values.length) :
    Expected.mapEach (sliceRow values) moduli cursor =
      (.ok ((moduli.map List.length).splitLengths (values.drop cursor)),
        cursor + (moduli.map List.length).sum) := by
  induction moduli generalizing cursor with
  | nil => rfl
  | cons row moduli ih =>
    rw [List.map_cons, List.sum_cons] at h ⊢
    rw [Expected.mapEach_cons, Expected.bind_run_ok (sliceRow_run values row (by omega)),
      Expected.bind_run_ok (ih (by omega)), List.splitLengths_cons, List.drop_drop, Nat.add_assoc]
    rfl

/-! ## The function -/

/-- The running sum of the row sizes is their sum. -/
theorem expected_eq_sum (n : ℕ) :
    moduli.foldl (fun sum m => sum + m.length) n = n + (moduli.map List.length).sum := by
  induction moduli generalizing n with
  | nil => rfl
  | cons row moduli ih => rw [List.foldl_cons, ih, List.map_cons, List.sum_cons, Nat.add_assoc]

/-- A wrong number of values is thrown with both numbers. -/
theorem sliceArrayValues_of_ne (h : values.length ≠ (moduli.map List.length).sum) :
    sliceArrayValues values moduli = .error
      (.runtimeError (sliceMismatch values.length (moduli.map List.length).sum)) := by
  unfold sliceArrayValues
  rw [expected_eq_sum, Nat.zero_add]
  exact if_pos h

/-- Otherwise the values are split into rows. -/
theorem sliceArrayValues_of_eq (h : values.length = (moduli.map List.length).sum) :
    sliceArrayValues values moduli = .ok ((moduli.map List.length).splitLengths values) := by
  unfold sliceArrayValues
  rw [expected_eq_sum, Nat.zero_add]
  dsimp only
  rw [if_neg (not_not.mpr h), sliceRows_run values moduli (by omega), List.drop_zero]

/-- Rows of given sizes are the pieces of their concatenation. -/
theorem splitLengths_flatten (rows : List (List (List UInt64))) :
    (rows.map List.length).splitLengths rows.flatten = rows := by
  induction rows with
  | nil => rfl
  | cons row rows ih =>
    rw [List.map_cons, List.splitLengths_cons, List.flatten_cons, List.take_left, List.drop_left, ih]

/-- Slicing inverts concatenation: it throws exactly on a wrong total, never reads outside the
values, otherwise returns a row of the right size for each element whose concatenation is the
values, and returns any rows of these sizes from their concatenation. -/
theorem sliceArrayValues_exact :
    ((∃ what, sliceArrayValues values moduli = .error (.runtimeError what)) ↔
      values.length ≠ (moduli.map List.length).sum) ∧
    sliceArrayValues values moduli ≠ .error .outOfRange ∧
    (values.length = (moduli.map List.length).sum → ∃ rows,
      sliceArrayValues values moduli = .ok rows ∧ rows.length = moduli.length ∧
        rows.map List.length = moduli.map List.length ∧ rows.flatten = values) ∧
    ∀ rows : List (List (List UInt64)), rows.map List.length = moduli.map List.length →
      sliceArrayValues rows.flatten moduli = .ok rows := by
  -- Both answers are decided by the total length alone.
  refine ⟨?_, ?_, fun h => ?_, fun rows hrows => ?_⟩
  · by_cases h : values.length = (moduli.map List.length).sum
    · rw [sliceArrayValues_of_eq values moduli h]
      refine iff_of_false ?_ (not_not.mpr h)
      rintro ⟨what, hthrown⟩
      cases hthrown
    · exact iff_of_true ⟨_, sliceArrayValues_of_ne values moduli h⟩ h
  · intro hout
    by_cases h : values.length = (moduli.map List.length).sum
    · rw [sliceArrayValues_of_eq values moduli h] at hout
      cases hout
    · rw [sliceArrayValues_of_ne values moduli h] at hout
      cases hout
  -- The rows are consecutive pieces of the list, with the lengths of the moduli.
  · refine ⟨_, sliceArrayValues_of_eq values moduli h, ?_,
      List.map_splitLengths_length values _ h.ge, List.flatten_splitLengths values _ h.le⟩
    rw [List.length_splitLengths, List.length_map]
  · have htotal : rows.flatten.length = (moduli.map List.length).sum := by
      rw [List.length_flatten, hrows]
    rw [sliceArrayValues_of_eq rows.flatten moduli htotal, ← hrows, splitLengths_flatten]

/-- Rows of two sizes around an empty one. -/
example : sliceArrayValues [[1], [2, 3], [4]] [[17, 19], [], [23]] =
    .ok [[[1], [2, 3]], [], [[4]]] := by decide

end Bridge

end Haze
