import Mathlib.Data.Nat.Notation
import Mathlib.Data.List.Basic
import Mathlib.Tactic.Common

/-!
# The bytes of a vector of 64-bit limbs

A vector of 64-bit words is read and written through a byte pointer to its storage, in the
little-endian order of the machines that the library runs on. `bytesOf` is the storage of a vector
and `limbsOf` reads words back from bytes. They are inverse to each other on whole words
(`limbsOf_bytesOf`, `bytesOf_limbsOf`), and `overwrite` is a `memcpy` over the start of the
storage.
-/

namespace Limbs

/-- The eight bytes of a word, the lowest first. -/
def wordBytes (x : UInt64) : List UInt8 :=
  [UInt8.ofNat x.toNat, UInt8.ofNat (x.toNat / 0x100), UInt8.ofNat (x.toNat / 0x10000),
    UInt8.ofNat (x.toNat / 0x1000000), UInt8.ofNat (x.toNat / 0x100000000),
    UInt8.ofNat (x.toNat / 0x10000000000), UInt8.ofNat (x.toNat / 0x1000000000000),
    UInt8.ofNat (x.toNat / 0x100000000000000)]

/-- The word of eight bytes, the lowest first. -/
def word (b0 b1 b2 b3 b4 b5 b6 b7 : UInt8) : UInt64 :=
  UInt64.ofNat (b0.toNat + 0x100 * b1.toNat + 0x10000 * b2.toNat + 0x1000000 * b3.toNat +
    0x100000000 * b4.toNat + 0x10000000000 * b5.toNat + 0x1000000000000 * b6.toNat +
    0x100000000000000 * b7.toNat)

/-- The storage of a vector of words. -/
def bytesOf : List UInt64 → List UInt8
  | [] => []
  | x :: xs => wordBytes x ++ bytesOf xs

/-- The words of a storage; a rest of fewer than eight bytes is not a word. -/
def limbsOf : List UInt8 → List UInt64
  | b0 :: b1 :: b2 :: b3 :: b4 :: b5 :: b6 :: b7 :: bs => word b0 b1 b2 b3 b4 b5 b6 b7 :: limbsOf bs
  | _ => []

/-- `memcpy` of `src` over the start of the storage of a vector. -/
def overwrite (src : List UInt8) (xs : List UInt64) : List UInt64 :=
  limbsOf (src ++ (bytesOf xs).drop src.length)

/-- The bytes of a word give it back. -/
theorem limbsOf_wordBytes_append (x : UInt64) (bs : List UInt8) :
    limbsOf (wordBytes x ++ bs) = x :: limbsOf bs := by
  have hx := x.toNat_lt
  simp only [wordBytes, List.cons_append, List.nil_append, limbsOf, List.cons.injEq, and_true]
  apply UInt64.toNat_inj.mp
  simp only [word, UInt64.toNat_ofNat', UInt8.toNat_ofNat']
  omega

/-- The bytes of a word made of eight bytes are those bytes. -/
theorem wordBytes_word (b0 b1 b2 b3 b4 b5 b6 b7 : UInt8) :
    wordBytes (word b0 b1 b2 b3 b4 b5 b6 b7) = [b0, b1, b2, b3, b4, b5, b6, b7] := by
  have h0 := b0.toNat_lt
  have h1 := b1.toNat_lt
  have h2 := b2.toNat_lt
  have h3 := b3.toNat_lt
  have h4 := b4.toNat_lt
  have h5 := b5.toNat_lt
  have h6 := b6.toNat_lt
  have h7 := b7.toNat_lt
  simp only [wordBytes, word, List.cons.injEq, and_true, ← UInt8.toNat_inj, UInt8.toNat_ofNat',
    UInt64.toNat_ofNat']
  refine ⟨?_, ?_, ?_, ?_, ?_, ?_, ?_, ?_⟩ <;> omega

/-- A vector's storage gives the vector back. -/
@[simp] theorem limbsOf_bytesOf (xs : List UInt64) : limbsOf (bytesOf xs) = xs := by
  induction xs with
  | nil => rfl
  | cons x xs ih => rw [bytesOf, limbsOf_wordBytes_append, ih]

/-- A storage of whole words is the storage of its words. -/
theorem bytesOf_limbsOf {n : ℕ} {bs : List UInt8} (h : bs.length = 8 * n) :
    bytesOf (limbsOf bs) = bs := by
  induction n generalizing bs with
  | zero =>
    rw [List.eq_nil_of_length_eq_zero h]
    rfl
  | succ n ih =>
    match bs, h with
    | b0 :: b1 :: b2 :: b3 :: b4 :: b5 :: b6 :: b7 :: bs, h =>
      simp only [List.length_cons] at h
      rw [limbsOf, bytesOf, wordBytes_word, ih (by omega)]
      rfl

/-- A vector has eight bytes for each word. -/
@[simp] theorem length_bytesOf (xs : List UInt64) : (bytesOf xs).length = 8 * xs.length := by
  induction xs with
  | nil => rfl
  | cons x xs ih =>
    rw [bytesOf, List.length_append, ih, List.length_cons]
    simp only [wordBytes, List.length_cons, List.length_nil]
    omega

/-- A storage has a word for every eight bytes. -/
theorem length_limbsOf (bs : List UInt8) : (limbsOf bs).length = bs.length / 8 := by
  fun_induction limbsOf bs with
  | case1 b0 b1 b2 b3 b4 b5 b6 b7 bs ih =>
    simp only [List.length_cons, ih]
    omega
  | case2 bs h =>
    rcases bs with _ | ⟨b0, _ | ⟨b1, _ | ⟨b2, _ | ⟨b3, _ | ⟨b4, _ | ⟨b5, _ | ⟨b6, _ | ⟨b7, bs⟩⟩⟩⟩⟩⟩⟩⟩
    case cons.cons.cons.cons.cons.cons.cons.cons => exact absurd rfl (h b0 b1 b2 b3 b4 b5 b6 b7 bs)
    all_goals simp

/-- Two vectors with the same storage are equal. -/
theorem bytesOf_injective {xs ys : List UInt64} (h : bytesOf xs = bytesOf ys) : xs = ys := by
  rw [← limbsOf_bytesOf xs, h, limbsOf_bytesOf]

section Overwrite

variable {src : List UInt8} {xs : List UInt64}

/-- Bytes that fit, with what stands behind them in the storage, are as many as the storage has. -/
theorem length_overwrite_bytes (h : src.length ≤ 8 * xs.length) :
    (src ++ (bytesOf xs).drop src.length).length = 8 * xs.length := by
  rw [List.length_append, List.length_drop, length_bytesOf]
  omega

/-- `memcpy` keeps the vector's length: what it writes ends within the vector's last word. -/
theorem length_overwrite (h : src.length < 8 * xs.length + 8) :
    (overwrite src xs).length = xs.length := by
  rw [overwrite, length_limbsOf, List.length_append, List.length_drop, length_bytesOf]
  omega

/-- The storage after a `memcpy` within it: the bytes copied, then the old bytes behind them. -/
theorem bytesOf_overwrite (h : src.length ≤ 8 * xs.length) :
    bytesOf (overwrite src xs) = src ++ (bytesOf xs).drop src.length :=
  bytesOf_limbsOf (length_overwrite_bytes h)

/-- Of two `memcpy`s of one length the second is left. -/
theorem overwrite_overwrite {src' : List UInt8} (h : src.length ≤ 8 * xs.length)
    (hlen : src'.length = src.length) : overwrite src' (overwrite src xs) = overwrite src' xs := by
  unfold overwrite
  rw [bytesOf_limbsOf (length_overwrite_bytes h), hlen, List.drop_left]

end Overwrite

end Limbs
