import Mathlib.Data.Nat.Notation

/-!
# Byte memory

Flat memory as a function from addresses to bytes, with the little-endian 64-bit word
accesses a C program makes on it, `memset` and `memcpy`.

A word access is determined by its eight bytes: `read64_congr` moves a read across any
change elsewhere, and `read64_write64_same` / `read64_write64_disjoint` are the two cases
of a read after a write. The accesses are irreducible, so that comparing two memories
never computes with addresses.
-/

namespace ByteMemory

/-- A byte. -/
abbrev Byte := BitVec 8

/-- Memory: the byte at each address. -/
abbrev Mem := ℕ → Byte

/-- The 64-bit little-endian word at `a`. -/
@[irreducible] def read64 (m : Mem) (a : ℕ) : BitVec 64 :=
  m (a + 7) ++ m (a + 6) ++ m (a + 5) ++ m (a + 4) ++ m (a + 3) ++ m (a + 2) ++ m (a + 1) ++ m a

/-- Store the 64-bit little-endian word `w` at `a`. -/
@[irreducible] def write64 (m : Mem) (a : ℕ) (w : BitVec 64) : Mem := fun x =>
  if a ≤ x ∧ x < a + 8 then w.extractLsb' (8 * (x - a)) 8 else m x

/-- `memset(a, v, n)`. -/
@[irreducible] def memset (m : Mem) (a : ℕ) (v : Byte) (n : ℕ) : Mem := fun x =>
  if a ≤ x ∧ x < a + n then v else m x

/-- Store the `n` bytes `src 0 .. src (n - 1)` at `a`. -/
@[irreducible] def blit (m : Mem) (a : ℕ) (src : ℕ → Byte) (n : ℕ) : Mem := fun x =>
  if a ≤ x ∧ x < a + n then src (x - a) else m x

/-! ## Word accesses -/

theorem read64_congr {m m' : Mem} {a : ℕ} (h : ∀ i < 8, m' (a + i) = m (a + i)) :
    read64 m' a = read64 m a := by
  have h0 := h 0 (by omega)
  rw [Nat.add_zero] at h0
  simp only [read64, h0, h 1 (by omega), h 2 (by omega), h 3 (by omega), h 4 (by omega),
    h 5 (by omega), h 6 (by omega), h 7 (by omega)]

theorem read64_of_zero {m : Mem} {a : ℕ} (h : ∀ i < 8, m (a + i) = 0) : read64 m a = 0 := by
  rw [read64_congr (m := fun _ => 0) h, read64]
  decide

theorem write64_apply {m : Mem} {a i : ℕ} {w : BitVec 64} (hi : i < 8) :
    write64 m a w (a + i) = w.extractLsb' (8 * i) 8 := by
  unfold write64
  rw [if_pos (by omega), Nat.add_sub_cancel_left]

theorem write64_of_notMem {m : Mem} {a x : ℕ} {w : BitVec 64} (h : x < a ∨ a + 8 ≤ x) :
    write64 m a w x = m x := by
  unfold write64
  rw [if_neg (by omega)]

/-- Eight consecutive bytes of a word put together again. -/
theorem append_extractLsb'_eq (w : BitVec 64) :
    w.extractLsb' 56 8 ++ w.extractLsb' 48 8 ++ w.extractLsb' 40 8 ++ w.extractLsb' 32 8 ++
      w.extractLsb' 24 8 ++ w.extractLsb' 16 8 ++ w.extractLsb' 8 8 ++ w.extractLsb' 0 8
      = w := by
  simp only [BitVec.extractLsb'_append_extractLsb'_eq_extractLsb', BitVec.extractLsb'_eq_self]

@[simp] theorem read64_write64_same (m : Mem) (a : ℕ) (w : BitVec 64) :
    read64 (write64 m a w) a = w := by
  have h0 := write64_apply (m := m) (a := a) (w := w) (i := 0) (by omega)
  rw [Nat.add_zero] at h0
  unfold read64
  rw [h0]
  simp only [write64_apply (show 1 < 8 by omega), write64_apply (show 2 < 8 by omega),
    write64_apply (show 3 < 8 by omega), write64_apply (show 4 < 8 by omega),
    write64_apply (show 5 < 8 by omega), write64_apply (show 6 < 8 by omega),
    write64_apply (show 7 < 8 by omega)]
  exact append_extractLsb'_eq w

theorem read64_write64_disjoint {m : Mem} {a b : ℕ} {w : BitVec 64}
    (h : a + 8 ≤ b ∨ b + 8 ≤ a) : read64 (write64 m a w) b = read64 m b :=
  read64_congr fun _ _ => write64_of_notMem (by omega)

/-- A word consists of its eight bytes. -/
theorem getLsbD_read64 {m : Mem} {a i j : ℕ} (hi : i < 8) (hj : j < 8) :
    (read64 m a).getLsbD (8 * i + j) = (m (a + i)).getLsbD j := by
  have hcases : i = 0 ∨ i = 1 ∨ i = 2 ∨ i = 3 ∨ i = 4 ∨ i = 5 ∨ i = 6 ∨ i = 7 := by omega
  unfold read64
  simp only [BitVec.getLsbD_append]
  rcases hcases with rfl | rfl | rfl | rfl | rfl | rfl | rfl | rfl <;>
    simp (disch := omega) only [if_neg, if_pos] <;> congr 1 <;> omega

theorem extractLsb'_read64 {m : Mem} {a i : ℕ} (hi : i < 8) :
    (read64 m a).extractLsb' (8 * i) 8 = m (a + i) := by
  apply BitVec.eq_of_getLsbD_eq
  intro j hj
  rw [BitVec.getLsbD_extractLsb', getLsbD_read64 hi hj]
  simp [hj]

/-! ## Block accesses -/

/-- `memset` is a fill with one byte. -/
theorem memset_eq_blit (m : Mem) (a n : ℕ) (v : Byte) :
    memset m a v n = blit m a (fun _ => v) n := by
  unfold memset blit
  rfl

theorem blit_apply {m : Mem} {a n i : ℕ} {src : ℕ → Byte} (hi : i < n) :
    blit m a src n (a + i) = src i := by
  unfold blit
  rw [if_pos (by omega), Nat.add_sub_cancel_left]

theorem blit_of_notMem {m : Mem} {a n x : ℕ} {src : ℕ → Byte} (h : x < a ∨ a + n ≤ x) :
    blit m a src n x = m x := by
  unfold blit
  rw [if_neg (by omega)]

end ByteMemory
