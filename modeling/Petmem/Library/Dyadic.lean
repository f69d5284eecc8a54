import Mathlib.Algebra.BigOperators.Ring.Finset
import Mathlib.Data.Multiset.Filter
import Mathlib.Data.Nat.Bitwise
import Mathlib.Order.Interval.Finset.Nat
import Mathlib.Tactic.Linarith
import Mathlib.Tactic.Ring

/-!
# Dyadic blocks and tilings

The arithmetic behind every buddy system: blocks of `2^order` bytes that start at a
multiple of their own size.

* `Block.buddy` / `Block.parent`: the sibling of a block and the block the two make up,
  with `covers_parent` splitting the parent's bytes between them;
* `Tiling P M`: the multiset `M` of aligned blocks covers each byte below `2^P` exactly
  once. Covering is a count, so splitting a block and merging two buddies are one line of
  arithmetic each (`Tiling.split`, `Tiling.merge`);
* `Tiling.at_buddy`: the buddy position of a tile is the start of a tile that is no
  larger, the fact that makes a test at the buddy's address meaningful;
* `Tiling.sum_size`: the sizes of the tiles add up to the size of the whole;
* `Tiling.exists_order_ge`: where no two marked tiles are buddies, an aligned window of
  marked tiles lies inside one marked tile.
-/

namespace Dyadic

/-- A block of `2^order` bytes at offset `off`. -/
structure Block where
  off : ℕ
  order : ℕ
deriving DecidableEq, Repr

namespace Block

/-- The byte `x` belongs to the block. -/
def Covers (b : Block) (x : ℕ) : Prop := b.off ≤ x ∧ x < b.off + 2 ^ b.order

instance (b : Block) (x : ℕ) : Decidable (b.Covers x) :=
  inferInstanceAs (Decidable (_ ∧ _))

/-- The block starts at a multiple of its own size. -/
def Aligned (b : Block) : Prop := 2 ^ b.order ∣ b.off

/-- The sibling block: the other half of the block twice as large. -/
def buddy (b : Block) : Block := ⟨b.off ^^^ 2 ^ b.order, b.order⟩

/-- The block twice as large that contains `b`. -/
def parent (b : Block) : Block := ⟨min b.off b.buddy.off, b.order + 1⟩

@[simp] theorem buddy_order (b : Block) : b.buddy.order = b.order := rfl

@[simp] theorem parent_order (b : Block) : b.parent.order = b.order + 1 := rfl

theorem covers_off (b : Block) : b.Covers b.off :=
  ⟨le_refl _, Nat.lt_add_of_pos_right (Nat.two_pow_pos _)⟩

/-! ## The buddy of an aligned block -/

/-- Flipping bit `k` of a multiple of `2^k` either adds `2^k` or takes it away. -/
theorem xor_two_pow_cases {o k : ℕ} (h : 2 ^ k ∣ o) :
    (2 ^ (k + 1) ∣ o ∧ o ^^^ 2 ^ k = o + 2 ^ k) ∨
      (2 ^ k ≤ o ∧ 2 ^ (k + 1) ∣ o - 2 ^ k ∧ o ^^^ 2 ^ k = o - 2 ^ k) := by
  obtain ⟨q, rfl⟩ := h
  have hmul : ∀ q, 2 ^ k * q ^^^ 2 ^ k = 2 ^ k * (q ^^^ 1) := fun q => by
    have h1 := Nat.shiftLeft_xor_distrib (a := q) (b := 1) (i := k)
    simp only [Nat.shiftLeft_eq, Nat.one_mul] at h1
    rw [Nat.mul_comm _ q, ← h1, Nat.mul_comm]
  rw [hmul]
  rcases Nat.even_or_odd' q with ⟨c, rfl | rfl⟩
  · left
    have hx : 2 * c ^^^ 1 = 2 * c + 1 := Nat.xor_one_of_even (by simp)
    refine ⟨⟨c, by ring⟩, ?_⟩
    rw [hx]; ring
  · right
    have hx : (2 * c + 1) ^^^ 1 = 2 * c := Nat.xor_one_of_odd ⟨c, rfl⟩
    have hsub : 2 ^ k * (2 * c + 1) - 2 ^ k = 2 ^ k * (2 * c) := by
      rw [Nat.mul_add, Nat.mul_one, Nat.add_sub_cancel]
    refine ⟨Nat.le_mul_of_pos_right _ (by omega), ⟨c, by rw [hsub]; ring⟩, ?_⟩
    rw [hx, hsub]

/-- The two positions a block can have inside its parent. -/
theorem Aligned.buddy_cases {b : Block} (h : b.Aligned) :
    (2 ^ (b.order + 1) ∣ b.off ∧ b.buddy.off = b.off + 2 ^ b.order) ∨
      (2 ^ b.order ≤ b.off ∧ 2 ^ (b.order + 1) ∣ b.off - 2 ^ b.order ∧
        b.buddy.off = b.off - 2 ^ b.order) :=
  xor_two_pow_cases h

theorem Aligned.buddy {b : Block} (h : b.Aligned) : b.buddy.Aligned := by
  unfold Aligned
  rcases h.buddy_cases with ⟨_, h'⟩ | ⟨_, _, h'⟩ <;> rw [h', buddy_order]
  · exact Nat.dvd_add h (Nat.dvd_refl _)
  · exact Nat.dvd_sub h (Nat.dvd_refl _)

@[simp] theorem buddy_buddy (b : Block) : b.buddy.buddy = b := by
  simp [Block.buddy]

theorem buddy_ne (b : Block) : b.buddy ≠ b := by
  intro h
  have hx : b.off ^^^ 2 ^ b.order = b.off := congrArg Block.off h
  have h0 : b.off ^^^ (b.off ^^^ 2 ^ b.order) = b.off ^^^ b.off := by rw [hx]
  rw [← Nat.xor_assoc, Nat.xor_self, Nat.zero_xor] at h0
  exact (Nat.two_pow_pos b.order).ne' h0

theorem Aligned.parent {b : Block} (h : b.Aligned) : b.parent.Aligned := by
  unfold Aligned Block.parent
  rcases h.buddy_cases with ⟨hd, h'⟩ | ⟨_, hd, h'⟩ <;> simp only [h']
  · rwa [Nat.min_eq_left (by omega)]
  · rwa [Nat.min_eq_right (by omega)]

/-- The upper half of a block twice as large is the buddy of the lower one. -/
theorem buddy_of_dvd {o k : ℕ} (h : 2 ^ (k + 1) ∣ o) :
    (⟨o, k⟩ : Block).buddy = ⟨o + 2 ^ k, k⟩ := by
  have hal : (⟨o, k⟩ : Block).Aligned := (pow_dvd_pow 2 (Nat.le_succ k)).trans h
  rcases hal.buddy_cases with ⟨_, h'⟩ | ⟨hle, hd, _⟩
  · exact Block.mk.injEq .. ▸ ⟨h', rfl⟩
  · -- `o` and `o - 2^k` cannot both be multiples of `2^(k+1)`
    have hd' : 2 ^ (k + 1) ∣ 2 ^ k := by
      have := Nat.dvd_sub h hd
      rwa [Nat.sub_sub_self hle] at this
    have := Nat.le_of_dvd (Nat.two_pow_pos k) hd'
    have := Nat.pow_lt_pow_right (a := 2) (by norm_num) (Nat.lt_succ_self k)
    omega

theorem parent_of_dvd {o k : ℕ} (h : 2 ^ (k + 1) ∣ o) :
    (⟨o, k⟩ : Block).parent = ⟨o, k + 1⟩ := by
  simp [parent, buddy_of_dvd h]

/-- A parent's bytes are those of the block and of its buddy. -/
theorem Aligned.covers_parent {b : Block} (h : b.Aligned) (x : ℕ) :
    b.parent.Covers x ↔ b.Covers x ∨ b.buddy.Covers x := by
  unfold Covers
  have hp : 2 ^ (b.order + 1) = 2 ^ b.order + 2 ^ b.order := by ring
  simp only [Block.parent, buddy_order, hp]
  rcases h.buddy_cases with ⟨_, h'⟩ | ⟨hle, _, h'⟩ <;> rw [h'] <;> omega

/-- A block and its buddy share no byte. -/
theorem Aligned.not_covers_buddy {b : Block} (h : b.Aligned) {x : ℕ} (hx : b.Covers x) :
    ¬ b.buddy.Covers x := by
  unfold Covers at *
  rcases h.buddy_cases with ⟨_, h'⟩ | ⟨_, _, h'⟩ <;> rw [h', buddy_order] <;> omega

/-! ## Aligned blocks are nested or disjoint -/

/-- The start of the aligned block of a given order around a byte. -/
theorem Aligned.off_eq {b : Block} (h : b.Aligned) {x : ℕ} (hx : b.Covers x) :
    b.off = 2 ^ b.order * (x / 2 ^ b.order) := by
  obtain ⟨q, hq⟩ := h
  obtain ⟨h1, h2⟩ := hx
  have : x / 2 ^ b.order = q := by
    apply Nat.div_eq_of_lt_le
    · rw [Nat.mul_comm, ← hq]; exact h1
    · rw [Nat.add_mul, Nat.one_mul, Nat.mul_comm q, ← hq]; exact h2
  rw [this, ← hq]

/-- A block that shares a byte with a block at least as large lies inside it. -/
theorem Aligned.covers_of_le {b c : Block} (hb : b.Aligned) (hc : c.Aligned)
    (hle : b.order ≤ c.order) {x : ℕ} (hbx : b.Covers x) (hcx : c.Covers x) {y : ℕ}
    (hy : b.Covers y) : c.Covers y := by
  have hbo := hb.off_eq hbx
  have hco := hc.off_eq hcx
  obtain ⟨d, hd⟩ := Nat.exists_eq_add_of_le hle
  have hpow : 2 ^ c.order = 2 ^ b.order * 2 ^ d := by rw [hd, pow_add]
  -- all bytes of `b` have one quotient by `2^b.order`, hence one by `2^c.order`
  have hyx : y / 2 ^ b.order = x / 2 ^ b.order := by
    have hy' := hb.off_eq hy
    have := hbo.symm.trans hy'
    exact (Nat.eq_of_mul_eq_mul_left (Nat.two_pow_pos _) this).symm
  have hq : y / 2 ^ c.order = x / 2 ^ c.order := by
    rw [hpow, ← Nat.div_div_eq_div_mul, ← Nat.div_div_eq_div_mul, hyx]
  unfold Covers
  rw [hco, ← hq]
  have h1 := Nat.div_add_mod y (2 ^ c.order)
  have h2 := Nat.mod_lt y (Nat.two_pow_pos c.order)
  omega

/-- A block strictly inside a larger one has its buddy inside it as well. -/
theorem Aligned.covers_buddy_of_lt {b c : Block} (hb : b.Aligned) (hc : c.Aligned)
    (hlt : b.order < c.order) {x : ℕ} (hbx : b.Covers x) (hcx : c.Covers x) {y : ℕ}
    (hy : b.buddy.Covers y) : c.Covers y :=
  hb.parent.covers_of_le hc hlt ((hb.covers_parent x).2 (.inl hbx)) hcx
    ((hb.covers_parent y).2 (.inr hy))

/-- A block covering the first byte of a block at least as large starts there. -/
theorem Aligned.off_eq_of_covers_off {b c : Block} (hb : b.Aligned) (hc : c.Aligned)
    (hle : c.order ≤ b.order) (hcx : c.Covers b.off) : c.off = b.off := by
  obtain ⟨d, hd⟩ := Nat.exists_eq_add_of_le hle
  obtain ⟨q, hq⟩ := hb
  have hq' : b.off = 2 ^ c.order * (2 ^ d * q) := by rw [hq, hd, pow_add]; ring
  have hco := hc.off_eq hcx
  rw [hco, hq', Nat.mul_div_cancel_left _ (Nat.two_pow_pos _)]

end Block

/-! ## Tilings -/

/-- How many blocks of `M` cover the byte `x`, one block at a time. -/
theorem countP_covers_cons (b : Block) (M : Multiset Block) (x : ℕ) :
    (b ::ₘ M).countP (fun c => c.Covers x)
      = M.countP (fun c => c.Covers x) + if b.Covers x then 1 else 0 :=
  Multiset.countP_cons _ _ _

/-- A parent covers as often as its two halves. -/
theorem Block.Aligned.countP_parent {b : Block} (hb : b.Aligned) (M : Multiset Block) (x : ℕ) :
    (b.parent ::ₘ M).countP (fun c => c.Covers x)
      = (b ::ₘ b.buddy ::ₘ M).countP (fun c => c.Covers x) := by
  simp only [countP_covers_cons, hb.covers_parent x]
  have := @Block.Aligned.not_covers_buddy b hb x
  split_ifs <;> tauto

/-- A block covers as many bytes as its size says. -/
theorem Block.card_covers (b : Block) {n : ℕ} (h : b.off + 2 ^ b.order ≤ n) :
    ((Finset.range n).filter fun x => b.Covers x).card = 2 ^ b.order := by
  have hIco : (Finset.range n).filter (fun x => b.Covers x)
      = Finset.Ico b.off (b.off + 2 ^ b.order) := by
    ext x
    rw [Finset.mem_filter, Finset.mem_range, Finset.mem_Ico]
    unfold Block.Covers
    omega
  rw [hIco, Nat.card_Ico, Nat.add_sub_cancel_left]

/-- Covered bytes are counted byte by byte, or block by block. -/
theorem sum_countP_covers (M : Multiset Block) {n : ℕ} (h : ∀ b ∈ M, b.off + 2 ^ b.order ≤ n) :
    ∑ x ∈ Finset.range n, M.countP (fun b => b.Covers x)
      = (M.map fun b => 2 ^ b.order).sum := by
  induction M using Multiset.induction_on with
  | empty => simp
  | cons b M ih =>
    have hrest := ih fun c hc => h c (Multiset.mem_cons_of_mem hc)
    simp only [countP_covers_cons, Finset.sum_add_distrib, Multiset.map_cons, Multiset.sum_cons]
    rw [hrest, ← Finset.card_filter, b.card_covers (h b (Multiset.mem_cons_self b M)),
      Nat.add_comm]

/-- `M` tiles the bytes below `2^P` by aligned blocks. -/
structure Tiling (P : ℕ) (M : Multiset Block) : Prop where
  aligned : ∀ b ∈ M, b.Aligned
  cover : ∀ x, M.countP (fun b => b.Covers x) = if x < 2 ^ P then 1 else 0

namespace Tiling

variable {P : ℕ} {M : Multiset Block}

/-- The whole pool as one tile. -/
theorem single (P : ℕ) : Tiling P {⟨0, P⟩} where
  aligned b hb := by
    rw [Multiset.mem_singleton] at hb
    subst hb
    exact Nat.dvd_zero _
  cover x := by
    rw [← Multiset.cons_zero, countP_covers_cons, Multiset.countP_zero]
    simp [Block.Covers]

theorem exists_covers (h : Tiling P M) {x : ℕ} (hx : x < 2 ^ P) :
    ∃ b ∈ M, b.Covers x := by
  have hc := h.cover x
  rw [if_pos hx] at hc
  exact Multiset.countP_pos.1 (by omega)

theorem lt_of_covers (h : Tiling P M) {b : Block} (hb : b ∈ M) {x : ℕ} (hx : b.Covers x) :
    x < 2 ^ P := by
  by_contra hlt
  have hc := h.cover x
  rw [if_neg hlt] at hc
  exact (Multiset.countP_pos.2 ⟨b, hb, hx⟩).ne' hc

theorem off_add_le (h : Tiling P M) {b : Block} (hb : b ∈ M) :
    b.off + 2 ^ b.order ≤ 2 ^ P := by
  have hpos := Nat.two_pow_pos b.order
  have := h.lt_of_covers hb (x := b.off + 2 ^ b.order - 1) ⟨by omega, by omega⟩
  omega

theorem order_le (h : Tiling P M) {b : Block} (hb : b ∈ M) : b.order ≤ P := by
  have := h.off_add_le hb
  exact (Nat.pow_le_pow_iff_right (by norm_num)).1 (le_trans (Nat.le_add_left _ _) this)

/-- A tile occurs once, and no other tile shares a byte with it. -/
theorem not_covers_of_cons {b : Block} (h : Tiling P (b ::ₘ M)) {c : Block} (hc : c ∈ M)
    {x : ℕ} (hbx : b.Covers x) : ¬ c.Covers x := by
  intro hcx
  have hcov := h.cover x
  rw [countP_covers_cons, if_pos hbx] at hcov
  have hpos : 0 < M.countP (fun b => b.Covers x) := Multiset.countP_pos.2 ⟨c, hc, hcx⟩
  split at hcov <;> omega

theorem notMem_of_cons {b : Block} (h : Tiling P (b ::ₘ M)) : b ∉ M := fun hb =>
  h.not_covers_of_cons hb b.covers_off b.covers_off

theorem eq_of_covers (h : Tiling P M) {b c : Block} (hb : b ∈ M) (hc : c ∈ M) {x : ℕ}
    (hbx : b.Covers x) (hcx : c.Covers x) : b = c := by
  by_contra hne
  obtain ⟨M', rfl⟩ := Multiset.exists_cons_of_mem hb
  rcases Multiset.mem_cons.1 hc with rfl | hc'
  · exact hne rfl
  · exact h.not_covers_of_cons hc' hbx hcx

/-- Two tiles lie one after the other. -/
theorem off_add_le_or (h : Tiling P M) {b c : Block} (hb : b ∈ M) (hc : c ∈ M) (hne : b ≠ c) :
    b.off + 2 ^ b.order ≤ c.off ∨ c.off + 2 ^ c.order ≤ b.off := by
  by_contra hno
  push Not at hno
  have hpb := Nat.two_pow_pos b.order
  have hpc := Nat.two_pow_pos c.order
  rcases Nat.le_total b.off c.off with hle | hle
  · exact hne (h.eq_of_covers hb hc (x := c.off) ⟨hle, hno.1⟩ c.covers_off)
  · exact hne (h.eq_of_covers hb hc (x := b.off) b.covers_off ⟨hle, hno.2⟩)

theorem nodup (h : Tiling P M) : M.Nodup := by
  rw [Multiset.nodup_iff_ne_cons_cons]
  rintro b t rfl
  exact h.notMem_of_cons (Multiset.mem_cons_self b t)

/-- Replacing a tile and its buddy by their parent. -/
theorem merge {b : Block} (h : Tiling P (b ::ₘ b.buddy ::ₘ M)) : Tiling P (b.parent ::ₘ M) := by
  have hb : b.Aligned := h.aligned _ (Multiset.mem_cons_self _ _)
  constructor
  · intro c hc
    rcases Multiset.mem_cons.1 hc with rfl | hc
    · exact hb.parent
    · exact h.aligned c (Multiset.mem_cons_of_mem (Multiset.mem_cons_of_mem hc))
  · intro x
    rw [← h.cover x, hb.countP_parent]

/-- Replacing a tile by its two halves. -/
theorem split {o k : ℕ} (h : Tiling P (⟨o, k + 1⟩ ::ₘ M)) :
    Tiling P (⟨o, k⟩ ::ₘ ⟨o + 2 ^ k, k⟩ ::ₘ M) := by
  have ho : 2 ^ (k + 1) ∣ o := h.aligned _ (Multiset.mem_cons_self _ _)
  have hlow : (⟨o, k⟩ : Block).Aligned := (pow_dvd_pow 2 (Nat.le_succ k)).trans ho
  constructor
  · intro b hb
    rcases Multiset.mem_cons.1 hb with rfl | hb
    · exact hlow
    rcases Multiset.mem_cons.1 hb with rfl | hb
    · exact Nat.dvd_add hlow (Nat.dvd_refl _)
    · exact h.aligned b (Multiset.mem_cons_of_mem hb)
  · intro x
    rw [← h.cover x, ← Block.buddy_of_dvd ho, ← Block.parent_of_dvd ho, hlow.countP_parent]

/-- The sizes of the tiles add up. -/
theorem sum_size (h : Tiling P M) : (M.map fun b => 2 ^ b.order).sum = 2 ^ P := by
  rw [← sum_countP_covers M fun b hb => h.off_add_le hb]
  have hone : ∀ x ∈ Finset.range (2 ^ P), M.countP (fun b => b.Covers x) = 1 := fun x hx => by
    rw [h.cover x, if_pos (Finset.mem_range.1 hx)]
  rw [Finset.sum_congr rfl hone, Finset.sum_const, Finset.card_range, Nat.nsmul_eq_mul, Nat.mul_one]

/-- The position of a tile's buddy is the start of a tile no larger than it. -/
theorem at_buddy (h : Tiling P M) {b : Block} (hb : b ∈ M) (hlt : b.order < P) :
    ∃ c ∈ M, c.off = b.buddy.off ∧ c.order ≤ b.order := by
  have hal := h.aligned b hb
  have hin : b.buddy.off < 2 ^ P := by
    -- the pool is a block larger than `b`, so it contains the buddy too
    have hpool : (⟨0, P⟩ : Block).Aligned := Nat.dvd_zero _
    have hcov : (⟨0, P⟩ : Block).Covers b.off :=
      ⟨Nat.zero_le _, by simpa using h.lt_of_covers hb b.covers_off⟩
    have := hal.covers_buddy_of_lt hpool hlt b.covers_off hcov b.buddy.covers_off
    simpa [Block.Covers] using this.2
  obtain ⟨c, hc, hcx⟩ := h.exists_covers hin
  have hle : c.order ≤ b.order := by
    by_contra hgt
    have hcal := h.aligned c hc
    have hcov := hal.buddy.covers_buddy_of_lt hcal (by simpa using hgt) b.buddy.covers_off hcx
      (y := b.off) (by simpa using b.covers_off)
    have := h.eq_of_covers hb hc b.covers_off hcov
    subst this
    exact hgt (le_refl _)
  exact ⟨c, hc, hal.buddy.off_eq_of_covers_off (h.aligned c hc) hle hcx, hle⟩

/-- Where no two marked tiles are buddies, an aligned window covered by marked tiles lies
inside one marked tile. -/
theorem exists_order_ge (h : Tiling P M) {p : Block → Prop}
    (hmerged : ∀ b ∈ M, p b → b.order < P → ¬ (b.buddy ∈ M ∧ p b.buddy))
    {w : Block} (hw : w.Aligned) (hwP : w.off + 2 ^ w.order ≤ 2 ^ P)
    (hmark : ∀ b ∈ M, ∀ x, b.Covers x → w.Covers x → p b) :
    ∃ b ∈ M, p b ∧ w.order ≤ b.order := by
  by_contra hno
  push Not at hno
  have hsmall : ∀ b ∈ M, ∀ x, b.Covers x → w.Covers x → b.order < w.order :=
    fun b hb x hbx hwx => hno b hb (hmark b hb x hbx hwx)
  have hwlt : w.order ≤ P := (Nat.pow_le_pow_iff_right (by norm_num)).1
    (le_trans (Nat.le_add_left _ _) hwP)
  -- a tile of the window of least order
  have hex : ∃ n, ∃ b ∈ M, b.order = n ∧ ∃ x, b.Covers x ∧ w.Covers x := by
    have hpos := Nat.two_pow_pos w.order
    obtain ⟨b, hb, hbx⟩ := h.exists_covers (x := w.off) (by omega)
    exact ⟨b.order, b, hb, rfl, w.off, hbx, w.covers_off⟩
  classical
  obtain ⟨b, hb, hbn, x, hbx, hwx⟩ := Nat.find_spec hex
  have hmin : ∀ c ∈ M, ∀ y, c.Covers y → w.Covers y → b.order ≤ c.order :=
    fun c hc y hcy hwy => by
      rw [hbn]
      exact Nat.find_min' hex ⟨c, hc, rfl, y, hcy, hwy⟩
  have hblt := hsmall b hb x hbx hwx
  -- its buddy position starts a tile of the window, of the same order by minimality
  obtain ⟨c, hc, hco, hcle⟩ := h.at_buddy hb (by omega)
  have hwc : w.Covers c.off := by
    rw [hco]
    exact (h.aligned b hb).covers_buddy_of_lt hw hblt hbx hwx b.buddy.covers_off
  have hcb : c = b.buddy := by
    have hge := hmin c hc c.off c.covers_off hwc
    cases c
    simp only [Block.buddy, Block.mk.injEq] at *
    exact ⟨hco, by omega⟩
  refine hmerged b hb (hmark b hb x hbx hwx) (by omega) ⟨hcb ▸ hc, ?_⟩
  exact hcb ▸ hmark c hc c.off c.covers_off hwc

end Tiling

end Dyadic
