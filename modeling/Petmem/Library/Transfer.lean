import Petmem.Library.ByteMemory
import Mathlib.Data.List.GetD
import Mathlib.Logic.Function.Basic

/-!
# Copies across a protection boundary

The memory of one party, of which another one can read some bytes and write some. `read` copies a
block out of it, all of it or nothing. `write` copies a block into it byte by byte, and stops at the
first byte that cannot be written; what was stored before that stays (`write_of_frame`). `store` is
what the owner does to it.
-/

namespace Transfer

open ByteMemory

/-- Bytes, and what the other party can do with them. -/
@[ext] structure Space where
  byte : ℕ → Byte
  readable : ℕ → Bool
  writable : ℕ → Bool

namespace Space

/-- The `n` bytes from `a` on. -/
def block (u : Space) (a n : ℕ) : List Byte := (List.range n).map fun i => u.byte (a + i)

/-- All of the `n` bytes from `a` on can be read. -/
def Readable (u : Space) (a n : ℕ) : Prop := ∀ i < n, u.readable (a + i) = true

instance (u : Space) (a n : ℕ) : Decidable (u.Readable a n) :=
  inferInstanceAs (Decidable (∀ i < n, _))

/-- All of the `n` bytes from `a` on can be written. -/
def Writable (u : Space) (a n : ℕ) : Prop := ∀ i < n, u.writable (a + i) = true

instance (u : Space) (a n : ℕ) : Decidable (u.Writable a n) :=
  inferInstanceAs (Decidable (∀ i < n, _))

/-- The other party reads `n` bytes from `a` on. -/
def read (u : Space) (a n : ℕ) : Option (List Byte) :=
  if u.Readable a n then some (u.block a n) else none

/-- The owner stores bytes from `a` on. -/
def store : Space → ℕ → List Byte → Space
  | u, _, [] => u
  | u, a, b :: bytes => store { u with byte := Function.update u.byte a b } (a + 1) bytes

/-- The other party writes bytes from `a` on: what the memory is then, and whether all of them were
stored. -/
def write : Space → ℕ → List Byte → Space × Bool
  | u, _, [] => (u, true)
  | u, a, b :: bytes =>
    if u.writable a = true then write { u with byte := Function.update u.byte a b } (a + 1) bytes
    else (u, false)

variable {u : Space} {a n x : ℕ} {bytes : List Byte}

theorem read_of_readable (h : u.Readable a n) : u.read a n = some (u.block a n) := if_pos h

@[simp] theorem readable_store (u : Space) (a : ℕ) (bytes : List Byte) :
    (u.store a bytes).readable = u.readable := by
  induction bytes generalizing u a with
  | nil => rfl
  | cons b bytes ih => exact ih _ _

@[simp] theorem writable_store (u : Space) (a : ℕ) (bytes : List Byte) :
    (u.store a bytes).writable = u.writable := by
  induction bytes generalizing u a with
  | nil => rfl
  | cons b bytes ih => exact ih _ _

/-- A store changes the bytes it is made to, and no others. -/
theorem byte_store_of_notMem (h : x < a ∨ a + bytes.length ≤ x) :
    (u.store a bytes).byte x = u.byte x := by
  induction bytes generalizing u a with
  | nil => rfl
  | cons b bytes ih =>
    rw [List.length_cons] at h
    rw [store, ih (by omega)]
    exact Function.update_of_ne (by omega) _ _

theorem byte_store {i : ℕ} (h : i < bytes.length) :
    (u.store a bytes).byte (a + i) = bytes.getD i 0 := by
  induction bytes generalizing u a i with
  | nil => cases h
  | cons b bytes ih =>
    rw [store]
    cases i with
    | zero =>
      rw [byte_store_of_notMem (by omega)]
      exact Function.update_self _ _ _
    | succ i =>
      rw [show a + (i + 1) = a + 1 + i by omega, ih (by simpa using h)]
      rfl

theorem byte_store_eq (u : Space) (a : ℕ) (bytes : List Byte) (x : ℕ) :
    (u.store a bytes).byte x
      = if a ≤ x ∧ x < a + bytes.length then bytes.getD (x - a) 0 else u.byte x := by
  split
  · rename_i h
    obtain ⟨i, rfl⟩ := Nat.exists_eq_add_of_le h.1
    rw [byte_store (by omega), Nat.add_sub_cancel_left]
  · exact byte_store_of_notMem (by omega)

/-- Bytes that follow one another can be stored one part after the other. -/
theorem store_append (u : Space) (a : ℕ) (xs ys : List Byte) :
    u.store a (xs ++ ys) = (u.store a xs).store (a + xs.length) ys := by
  induction xs generalizing u a with
  | nil => rfl
  | cons x xs ih =>
    rw [List.cons_append, store, store, ih, List.length_cons]
    congr 1
    omega

/-- The first bytes of what was stored are replaced. -/
theorem store_overwrite (u : Space) (a : ℕ) (xs ys : List Byte) {zs : List Byte}
    (h : zs.length = xs.length) : (u.store a (xs ++ ys)).store a zs = u.store a (zs ++ ys) := by
  ext x
  · rw [byte_store_eq, byte_store_eq, byte_store_eq, List.length_append, List.length_append, h]
    by_cases hx : a ≤ x ∧ x < a + xs.length
    · rw [if_pos hx, if_pos ⟨hx.1, by omega⟩, List.getD_append _ _ _ _ (by omega)]
    · rw [if_neg hx]
      by_cases hy : a ≤ x ∧ x < a + (xs.length + ys.length)
      · rw [if_pos hy, if_pos hy, List.getD_append_right _ _ _ _ (by omega),
          List.getD_append_right _ _ _ _ (by omega), h]
      · rw [if_neg hy, if_neg hy]
  · simp only [readable_store]
  · simp only [writable_store]

/-- What was stored is what the block holds. -/
@[simp] theorem block_store (u : Space) (a : ℕ) (bytes : List Byte) :
    (u.store a bytes).block a bytes.length = bytes := by
  unfold block
  apply List.ext_getElem
  · rw [List.length_map, List.length_range]
  · intro i h1 h2
    rw [List.getElem_map, List.getElem_range, byte_store h2]
    exact List.getD_eq_getElem _ _ h2

/-- The other party reads what the owner has stored. -/
theorem read_store (h : u.Readable a bytes.length) :
    (u.store a bytes).read a bytes.length = some bytes := by
  have hread : (u.store a bytes).Readable a bytes.length := fun i hi => by
    rw [readable_store]
    exact h i hi
  rw [read_of_readable hread, block_store]

/-! ## Writes -/

/-- Where everything can be written, a write is a store. -/
theorem write_of_writable (h : u.Writable a bytes.length) :
    u.write a bytes = (u.store a bytes, true) := by
  induction bytes generalizing u a with
  | nil => rfl
  | cons b bytes ih =>
    have h0 : u.writable a = true := h 0 (by simp)
    rw [write, if_pos h0, store]
    apply ih
    intro i hi
    rw [show a + 1 + i = a + (i + 1) by omega]
    exact h (i + 1) (by simpa using hi)

end Space

end Transfer
