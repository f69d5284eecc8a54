import Mathlib.Order.Bounds.Basic

/-!
# Windows of consecutive indices

A window of a set `s` of indices is a start `w` such that `w`, …, `w + n - 1` are all in `s`.
`Scanned` is the invariant of a search for the first window that goes up from 0 and counts the
length of the run it is in. `Tried` says which windows come up when the search is repeated, each
time without some index of the window found before that is in a set `bad`.
-/

namespace Windows

/-- The starts of the windows of length `n` in `s`. -/
def windows (s : Set ℕ) (n : ℕ) : Set ℕ := {w | ∀ i < n, w + i ∈ s}

variable {s t bad : Set ℕ} {n i len w v r : ℕ}

theorem mem_of_mem_windows (h : w ∈ windows s n) (hi : w ≤ i) (hlt : i < w + n) : i ∈ s := by
  have := h (i - w) (by omega)
  rwa [Nat.add_sub_cancel' hi] at this

theorem mem_windows_iff : w ∈ windows s n ↔ ∀ i, w ≤ i → i < w + n → i ∈ s :=
  ⟨fun h _ hi hlt => mem_of_mem_windows h hi hlt, fun h i hi => h (w + i) (by omega) (by omega)⟩

theorem windows_mono (h : s ⊆ t) : windows s n ⊆ windows t n := fun _ hw i hi => h (hw i hi)

/-- A window can be moved down by one into an index of the set. -/
theorem mem_windows_of_succ (h : w + 1 ∈ windows s n) (hw : w ∈ s) : w ∈ windows s n := by
  rw [mem_windows_iff] at h ⊢
  intro i hi hlt
  rcases Nat.eq_or_lt_of_le hi with rfl | hgt
  · exact hw
  · exact h i (by omega) (by omega)

/-- In front of the first window there is an index that is not in the set. -/
theorem notMem_of_isLeast_succ (h : IsLeast (windows s n) (w + 1)) : w ∉ s := fun hw => by
  have := h.2 (mem_windows_of_succ h.1 hw)
  omega

/-! ## The search for the first window -/

/-- The indices below `i` have been looked at, the last `len` of them are in `s`, and no window
starts before these. -/
structure Scanned (s : Set ℕ) (n i len : ℕ) : Prop where
  len_le : len ≤ i
  lt : len < n
  run : ∀ j, i - len ≤ j → j < i → j ∈ s
  below : ∀ w ∈ windows s n, i - len ≤ w

namespace Scanned

theorem start (hn : 0 < n) : Scanned s n 0 0 where
  len_le := le_refl 0
  lt := hn
  run _ _ hj := absurd hj (Nat.not_lt_zero _)
  below _ _ := Nat.zero_le _

/-- An index that is not in the set: the count begins anew behind it. -/
theorem skip (h : Scanned s n i len) (hi : i ∉ s) : Scanned s n (i + 1) 0 where
  len_le := Nat.zero_le _
  lt := lt_of_le_of_lt (Nat.zero_le _) h.lt
  run j hj hlt := by omega
  below w hw := by
    by_contra hle
    have hlow := h.below w hw
    have := h.len_le
    have := h.lt
    exact hi (mem_of_mem_windows hw (by omega) (by omega))

theorem extend (h : Scanned s n i len) (hi : i ∈ s) (hlt : len + 1 < n) :
    Scanned s n (i + 1) (len + 1) where
  len_le := Nat.succ_le_succ h.len_le
  lt := hlt
  run j hj hji := by
    rcases Nat.eq_or_lt_of_le (Nat.le_of_lt_succ hji) with rfl | hj'
    · exact hi
    · exact h.run j (by omega) hj'
  below w hw := by
    have := h.below w hw
    omega

/-- The count is full: the run is the first window. -/
theorem found (h : Scanned s n i len) (hi : i ∈ s) (heq : len + 1 = n) :
    IsLeast (windows s n) (i - len) := by
  have hle := h.len_le
  refine ⟨mem_windows_iff.2 fun j hj hlt => ?_, h.below⟩
  rcases Nat.lt_or_ge j i with hji | hji
  · exact h.run j hj hji
  · obtain rfl : j = i := by omega
    exact hi

/-- All of the set has been looked at: there is no window. -/
theorem windows_eq_empty (h : Scanned s n i len) (hall : ∀ j ∈ s, j < i) : windows s n = ∅ := by
  refine Set.eq_empty_of_forall_notMem fun w hw => ?_
  have hlow := h.below w hw
  have hlt := h.lt
  have := hall _ (mem_of_mem_windows hw (i := w + n - 1) (by omega) (by omega))
  omega

end Scanned

/-! ## Searches that drop bad indices

Each search finds the first window of what is left; if it has a bad index, the first of these is
dropped and the search repeated. -/

/-- A window of `s` with nothing but the start or an index outside `s \ bad` in front of it, and
without a window of `s \ bad` that starts before it. -/
structure Tried (s bad : Set ℕ) (n w : ℕ) : Prop where
  window : w ∈ windows s n
  fresh : w = 0 ∨ w - 1 ∉ s \ bad
  first : ∀ v < w, v ∉ windows (s \ bad) n

/-- Where only bad indices were dropped, the first window that is left is one of these. -/
theorem tried_of_isLeast (hts : t ⊆ s) (hst : s \ bad ⊆ t) (h : IsLeast (windows t n) w) :
    Tried s bad n w where
  window := windows_mono hts h.1
  fresh := by
    cases w with
    | zero => exact .inl rfl
    | succ w => exact .inr fun hw => notMem_of_isLeast_succ h (hst hw)
  first v hv hgood := by
    have := h.2 (windows_mono hst hgood)
    omega

/-- A window found before a tried one has its first bad index in front of the tried one. -/
theorem Tried.lt_of_first_bad (h : Tried s bad n w) (hts : t ⊆ s) (hv : v ∈ windows t n)
    (hvw : v < w) (hr : r < v + n) (hgood : ∀ j, v ≤ j → j < r → j ∉ bad) : r < w := by
  by_contra hge
  rcases h.fresh with rfl | hfresh
  · omega
  · exact hfresh ⟨hts (mem_of_mem_windows hv (by omega) (by omega)), hgood _ (by omega) (by omega)⟩

/-- It has a bad index, the tried window being the first without one or later. -/
theorem Tried.exists_bad (h : Tried s bad n w) (hts : t ⊆ s) (hv : v ∈ windows t n)
    (hvw : v < w) : ∃ i < n, v + i ∈ bad := by
  by_contra hnone
  push Not at hnone
  exact h.first v hvw fun i hi => ⟨hts (hv i hi), hnone i hi⟩

/-- Dropping an index in front of a window keeps the window. -/
theorem mem_windows_diff_singleton (h : w ∈ windows t n) (hr : r < w) : w ∈ windows (t \ {r}) n :=
  fun i hi => ⟨h i hi, fun heq => by
    have : w + i = r := heq
    omega⟩

end Windows
