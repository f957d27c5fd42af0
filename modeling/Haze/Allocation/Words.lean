import Haze.Core.Allocator
import Haze.Lib.Simulation

/-!
# Allocators with the same words

Two states of the allocator have the same words when they differ at most in where the entries of
`shadow_data_` stand in its container. No method tells them apart: each returns the same from both
and leaves the same words.
-/

namespace Haze

namespace DeviceAllocator

/-- The states differ at most in where the words stand in their container. -/
def SameWords (s t : DeviceAllocator) : Prop :=
  ∃ words, t = { s with shadowData := words } ∧
    ∀ a, AList.lookup a words = AList.lookup a s.shadowData

/-- An allocator has its own words. -/
theorem SameWords.refl (s : DeviceAllocator) : s.SameWords s := ⟨s.shadowData, rfl, fun _ => rfl⟩

/-- Allocators with the same words agree on each address. -/
theorem SameWords.shadow {s t : DeviceAllocator} (h : s.SameWords t) (a : DevAddr) :
    t.shadow a = s.shadow a := by
  obtain ⟨words, rfl, hwords⟩ := h
  exact hwords a

/-- The method does not tell states with the same words apart. -/
def Extensional {α : Type} (x : Method α) : Prop := Expected.Relates SameWords x x

/-- Writing the same words keeps the words the same. -/
theorem SameWords.insert {s t : DeviceAllocator} (h : s.SameWords t) (b : DevAddr)
    (values : List UInt64) :
    SameWords { s with shadowData := AList.insert b values s.shadowData }
      { t with shadowData := AList.insert b values t.shadowData } := by
  obtain ⟨words, rfl, hwords⟩ := h
  refine ⟨AList.insert b values words, rfl, fun a => ?_⟩
  rw [UMap.lookup_insert_ite, UMap.lookup_insert_ite, hwords]

/-- Dropping the words of an address keeps them the same. -/
theorem SameWords.erase {s t : DeviceAllocator} (h : s.SameWords t) (b : DevAddr) :
    SameWords { s with shadowData := AList.erase b s.shadowData }
      { t with shadowData := AList.erase b t.shadowData } := by
  obtain ⟨words, rfl, hwords⟩ := h
  refine ⟨AList.erase b words, rfl, fun a => ?_⟩
  rw [UMap.lookup_erase_ite, UMap.lookup_erase_ite, hwords]

/-! ## Allocating and freeing -/

/-- Allocating one address does not look at the order of the entries. -/
theorem allocateOneLocked_extensional : Extensional allocateOneLocked := by
  rintro s t ⟨words, rfl, hwords⟩
  unfold allocateOneLocked
  dsimp only
  rcases s.poolFree with _ | ⟨addr, rest⟩
  · exact ⟨rfl, words, rfl, hwords⟩
  · dsimp only
    split_ifs
    · exact ⟨rfl, words, rfl, hwords⟩
    · exact ⟨rfl, words, rfl, hwords⟩

/-- Nor does freeing one. -/
theorem freeOneLocked_extensional (addr : DevAddr) : Extensional (freeOneLocked addr) := by
  rintro s t ⟨words, rfl, hwords⟩
  unfold freeOneLocked
  dsimp only
  split_ifs
  · refine ⟨rfl, AList.erase addr words, rfl, fun a => ?_⟩
    rw [UMap.lookup_erase_ite, UMap.lookup_erase_ite, hwords]
  · exact ⟨rfl, words, rfl, hwords⟩

/-- Nor does checking a size. -/
theorem validatePolySizeLocked_extensional (bytes : UInt64) :
    Extensional (Expected.query (validatePolySizeLocked bytes)) := by
  refine .query ?_
  rintro s t ⟨words, rfl, -⟩
  rfl

/-- Nor does `hazeMalloc`. -/
theorem allocate_extensional (bytes : UInt64) : Extensional (allocate bytes) :=
  .bind (validatePolySizeLocked_extensional bytes) fun _ => allocateOneLocked_extensional

/-- Nor does a reservation. -/
theorem reserve_extensional (n : ℕ) (out : List DevAddr) : Extensional (reserve n out) := by
  induction n generalizing out with
  | zero => exact .pure out
  | succ n ih =>
    refine .bind allocateOneLocked_extensional.attempt fun r => ?_
    rcases r with e | addr
    · exact .bind (.forEach fun done _ => .bind (freeOneLocked_extensional done).attempt
        fun _ => .pure ()) fun _ => .fail e
    · exact ih _

/-- Nor does `hazeMallocMrp`. -/
theorem allocateMany_extensional (count : ℕ) (bytes : UInt64) :
    Extensional (allocateMany count bytes) :=
  .ite (.pure []) (.bind (validatePolySizeLocked_extensional bytes) fun _ =>
    reserve_extensional count [])

/-- Nor does `hazeFree`. -/
theorem free_extensional (addr : DevAddr) : Extensional (free addr) :=
  .ite (.pure ()) (freeOneLocked_extensional addr)

/-- Nor does freeing a list. -/
theorem freeEach_extensional (addrs : List DevAddr) (first : Except HazeInternalError Unit) :
    Extensional (freeEach addrs first) := by
  induction addrs generalizing first with
  | nil => exact .query fun _ _ _ => rfl
  | cons addr addrs ih =>
    exact .ite (ih first) (.bind (freeOneLocked_extensional addr).attempt fun freed => ih _)

/-- Nor does `hazeFreeMrp`. -/
theorem freeMany_extensional (addrs : List DevAddr) : Extensional (freeMany addrs) :=
  freeEach_extensional addrs (.ok ())

/-- A change of size leaves the same words. -/
theorem SameWords.setPolynomialSize {s t : DeviceAllocator} (h : s.SameWords t) (bytes : UInt64) :
    (s.setPolynomialSize bytes).SameWords (t.setPolynomialSize bytes) := by
  obtain ⟨words, rfl, hwords⟩ := h
  unfold DeviceAllocator.setPolynomialSize clearPoolLocked
  dsimp only
  split_ifs
  · refine ⟨UMap.eraseAll s.poolFree words, rfl, fun a => ?_⟩
    rw [UMap.lookup_eraseAll, UMap.lookup_eraseAll, hwords]
  · exact ⟨words, rfl, hwords⟩

/-! ## Reading and writing words -/

/-- Nor does checking a range. -/
theorem checkRange_extensional (addr : DevAddr) (count : UInt64) :
    Extensional (Expected.query (checkRange addr count)) := by
  refine .query ?_
  rintro s t ⟨words, rfl, -⟩
  rfl

/-- A write over a part of the words keeps them the same. -/
theorem SameWords.writeShadow {s t : DeviceAllocator} (h : s.SameWords t) (dst : DevAddr)
    (src : List UInt8) : (s.writeShadow dst src).SameWords (t.writeShadow dst src) := by
  have hsized : t.sizedShadow dst = s.sizedShadow dst := by
    unfold sizedShadow
    rw [h.shadow]
    obtain ⟨words, rfl, -⟩ := h
    rfl
  unfold DeviceAllocator.writeShadow
  rw [hsized]
  exact h.insert dst _

/-- Uploading does not look at the order of the entries. -/
theorem copyH2d_extensional (dst : DevAddr) (src : Option (List UInt8)) (count : UInt64) :
    Extensional (copyH2d dst src count) := by
  rcases src with _ | bytes
  · exact .fail _
  · exact .bind (checkRange_extensional dst count) fun _ => .modify fun _ _ hst =>
      hst.writeShadow dst _

/-- Nor does setting. -/
theorem memset_extensional (addr : DevAddr) (value : ℤ) (count : UInt64) :
    Extensional (memset addr value count) :=
  .bind (checkRange_extensional addr count) fun _ => .modify fun _ _ hst => hst.writeShadow addr _

/-- The components of an address are the same. -/
theorem SameWords.components {s t : DeviceAllocator} (h : s.SameWords t) (addr : DevAddr)
    (ringDim : UInt64) :
    DeviceAllocator.components addr ringDim t = DeviceAllocator.components addr ringDim s := by
  unfold DeviceAllocator.components
  rw [h.shadow]
  obtain ⟨words, rfl, -⟩ := h
  rfl

/-- Extracting them does not look at the order of the entries. -/
theorem extractPolynomialComponents_extensional (addr : DevAddr) (ringDim : UInt64) :
    Extensional (extractPolynomialComponents addr ringDim) := by
  intro s t hst
  unfold extractPolynomialComponents
  rw [hst.components addr ringDim]
  split
  · exact ⟨rfl, hst.erase addr⟩
  · exact ⟨rfl, hst.erase addr⟩
  · exact ⟨rfl, hst⟩

/-- Nor does reading them. -/
theorem readPolynomialComponents_extensional (addr : DevAddr) (ringDim : UInt64) :
    Extensional (readPolynomialComponents addr ringDim) :=
  .query fun _ _ hst => hst.components addr ringDim

/-- Nor does a copy to the host. -/
theorem copyToHost_extensional (dst : Bool) (src : DevAddr) (count : UInt64) :
    Extensional (Expected.query (copyToHost dst src count)) := by
  refine .query fun s t hst => ?_
  unfold copyToHost
  rw [hst.shadow]
  obtain ⟨words, rfl, -⟩ := hst
  rfl

/-- Nor does storing what was read back. -/
theorem updateShadow_extensional (addr : DevAddr) (values : List UInt64) :
    Extensional (updateShadow addr values) := by
  intro s t hst
  have hinsert := hst.insert addr (values.takeD s.wantElems 0)
  obtain ⟨words, rfl, hwords⟩ := hst
  unfold updateShadow
  dsimp only
  split_ifs
  · exact ⟨rfl, hinsert⟩
  · exact ⟨rfl, words, rfl, hwords⟩

end DeviceAllocator

end Haze
