import Mathlib.Data.Nat.Factorization.Basic
import Petmem.BuddyRoundTrip

/-!
# Double frees

`buddy_free` tests the tag bit at the address it is given before it changes anything. Between a
block's free and its next allocation that bit is set exactly when the address has been the start
of a listed block (`tag_iff_listed`): a free sets the bit of the merged block, a split those of
the halves it lists, and only the allocation of the block itself clears it.

An address in free memory starts a listed block unless the smallest aligned block that contains
it, but does not start with it, is free as a whole (`KeptApart`). So a double free goes unnoticed
when the block was merged into a lower one and nothing has been allocated there since.
-/

namespace Petmem
namespace Buddy

open Dyadic ByteMemory

/-- The states since `(addr, order)` was freed in `s₀`, most recent first; no byte of it was
allocated again. -/
inductive SinceFree (s₀ : PoolState) (addr order : ℕ) : List PoolState → Prop
  | free {m : Mem} {mp : BuddyMempool} : (addr, order) ∈ s₀.out →
      buddyFree s₀.mem s₀.mp addr order = .ok (m, mp) →
      SinceFree s₀ addr order [⟨m, mp, s₀.out.erase (addr, order)⟩]
  | step {s t : PoolState} {ts : List PoolState} : SinceFree s₀ addr order (s :: ts) →
      PoolStep s t → ¬ MeetsOutstanding t addr (max order t.mp.minOrder) →
      SinceFree s₀ addr order (t :: s :: ts)

/-- The smallest aligned block that contains `addr` but does not start with it shares a byte with
an outstanding block. At the start of the pool there is no such block. -/
def KeptApart (s : PoolState) (addr : ℕ) : Prop :=
  ∀ k, 2 ^ k ∣ addr - s.mp.baseAddr → ¬ 2 ^ (k + 1) ∣ addr - s.mp.baseAddr →
    MeetsOutstanding s (addr - 2 ^ k) (k + 1)

/-! ## Listed addresses -/

/-- An offset that is an odd multiple of `2^k` lies in the middle of an aligned block. -/
theorem window_of_odd {mp : BuddyMempool} {o k : ℕ} (ho : o < 2 ^ mp.poolOrder) (hk : 2 ^ k ∣ o)
    (hodd : ¬ 2 ^ (k + 1) ∣ o) :
    2 ^ k ≤ o ∧ Window mp (mp.baseAddr + (o - 2 ^ k)) (k + 1) := by
  obtain ⟨q, rfl⟩ := hk
  have hpow : 2 ^ (k + 1) = 2 ^ k * 2 := pow_succ 2 k
  have hq : q % 2 = 1 := by
    by_contra hne
    refine hodd ⟨q / 2, ?_⟩
    rw [hpow, Nat.mul_assoc]
    congr 1
    omega
  -- the offset is an odd multiple of the block size, so the window starts one block below
  obtain ⟨c, rfl⟩ : ∃ c, q = 2 * c + 1 := ⟨q / 2, by omega⟩
  have hsub : 2 ^ k * (2 * c + 1) - 2 ^ k = 2 ^ (k + 1) * c := by
    rw [hpow, Nat.mul_add, Nat.mul_one, Nat.add_sub_cancel]
    ring
  have hle : 2 ^ k ≤ 2 ^ k * (2 * c + 1) := Nat.le_mul_of_pos_right _ (by omega)
  have hlt : k < mp.poolOrder :=
    (Nat.pow_lt_pow_iff_right (a := 2) (by norm_num)).1 (lt_of_le_of_lt hle ho)
  refine ⟨hle, Nat.le_add_right _ _, ?_, ?_⟩
  · rw [Nat.add_sub_cancel_left, hsub]
    exact Nat.dvd_mul_right _ _
  · -- the end of the block is a multiple of its size too
    have hdvd : 2 ^ (k + 1) ∣ 2 ^ mp.poolOrder := pow_dvd_pow 2 (by omega)
    obtain ⟨d, hd⟩ := hdvd
    rw [hsub]
    have hcd : c < d := by
      have h1 : 2 ^ (k + 1) * c < 2 ^ (k + 1) * d := by
        rw [← hd, ← hsub]
        omega
      exact Nat.lt_of_mul_lt_mul_left h1
    have h2 : 2 ^ (k + 1) * (c + 1) ≤ 2 ^ (k + 1) * d := Nat.mul_le_mul_left _ hcd
    rw [hd]
    rw [Nat.mul_add, Nat.mul_one] at h2
    omega

namespace RunInv

variable {s : PoolState} {o k : ℕ}

/-- A free address starts a listed block exactly when what lies below it is not all free. -/
theorem listed_iff_keptApart (h : RunInv s) (hw : Window s.mp (s.mp.baseAddr + o) k)
    (hclear : ¬ MeetsOutstanding s (s.mp.baseAddr + o) k) :
    (∃ j, s.mp.baseAddr + o ∈ s.mp.avail j) ↔ KeptApart s (s.mp.baseAddr + o) := by
  have hpos := Nat.two_pow_pos k
  have hoff : o < 2 ^ s.mp.poolOrder := by
    have := hw.2.2
    omega
  unfold KeptApart
  rw [Nat.add_sub_cancel_left]
  constructor
  · rintro ⟨j, hj⟩ i hi hodd
    by_contra hno
    obtain ⟨hle, hwin⟩ := window_of_odd hoff hi hodd
    rw [Nat.add_sub_assoc hle] at hno
    -- the listed block around the window would start at the address
    obtain ⟨n, b, hb, -, hb1, hb2⟩ := h.exists_listed_of_window hwin hno
    have hbase := (h.inv.listed n b hb).2.2.1
    have hpi := Nat.two_pow_pos i
    have hpow : 2 ^ (i + 1) = 2 ^ i + 2 ^ i := by ring
    have heq := h.inv.tiling.eq_of_covers (h.inv.tile_of_mem hj) (h.inv.tile_of_mem hb)
      (x := o) ⟨by simp [blk], by simp only [blk]; have := Nat.two_pow_pos j; omega⟩
      ⟨by simp only [blk]; omega, by simp only [blk]; omega⟩
    simp only [blk, Block.mk.injEq] at heq
    omega
  · intro hapart
    obtain ⟨n, b, hb, -, hb1, hb2⟩ := h.exists_listed_of_window hw hclear
    by_cases hbo : b = s.mp.baseAddr + o
    · exact ⟨n, hbo ▸ hb⟩
    · exfalso
      -- the block around the address starts below it and so contains the window
      obtain ⟨c, rfl⟩ := Nat.exists_eq_add_of_le (h.inv.listed n b hb).2.2.1
      have hcdvd : 2 ^ n ∣ c := by
        have := h.inv.tiling.aligned _ (h.inv.tile_of_mem hb)
        simpa [blk, Block.Aligned] using this
      have hne : o ≠ 0 := by omega
      obtain ⟨i, q, hq, rfl⟩ := Nat.exists_eq_two_pow_mul_odd hne
      obtain ⟨r, rfl⟩ := hq
      have hni : i < n := by
        by_contra hge
        have := Block.Aligned.off_eq_of_covers_off (b := ⟨2 ^ i * (2 * r + 1), i⟩) (c := ⟨c, n⟩)
          (Nat.dvd_mul_right _ _) hcdvd (Nat.le_of_not_lt hge)
          ⟨by simp only; omega, by simp only; omega⟩
        simp only at this
        omega
      have hodd : ¬ 2 ^ (i + 1) ∣ 2 ^ i * (2 * r + 1) := by
        rw [pow_succ, Nat.mul_dvd_mul_iff_left (Nat.two_pow_pos i)]
        omega
      obtain ⟨hle, hwin⟩ := window_of_odd hoff (Nat.dvd_mul_right _ _) hodd
      obtain ⟨p, hp, x, hpx, hwx⟩ := hapart i (Nat.dvd_mul_right _ _) hodd
      refine (h.window_of_listed hb).2 ⟨p, hp, x, hpx, ?_⟩
      -- both are aligned, and the larger one contains the address
      have hsub := hwin.2.1
      rw [Nat.add_sub_cancel_left] at hsub
      unfold InBlock at hwx ⊢
      have hcov : (⟨c, n⟩ : Block).Covers (x - s.mp.baseAddr) :=
        Block.Aligned.covers_of_le (b := ⟨2 ^ i * (2 * r + 1) - 2 ^ i, i + 1⟩)
          (c := ⟨c, n⟩) hsub hcdvd hni (x := 2 ^ i * (2 * r + 1))
          ⟨by simp only; omega, by simp only [pow_succ]; omega⟩
          ⟨by simp only; omega, by simp only; omega⟩ ⟨by simp only; omega, by simp only; omega⟩
      unfold Block.Covers at hcov
      simp only at hcov
      omega

end RunInv

/-! ## The tag bits -/

theorem listDel_cases (mp : BuddyMempool) (a : ℕ) :
    listDel mp a = .ok { mp with avail := fun j => (mp.avail j).erase a } ∨
      listDel mp a = .error .listCorrupted := by
  unfold listDel
  split
  · exact .inl rfl
  · exact .inr rfl

/-- The merge loop leaves the tag bits alone. -/
theorem freeMerge_tagBits : ∀ (n : ℕ) {b k b' k' : ℕ} {m m' : Mem} {mp mp' : BuddyMempool},
    freeMerge n b k m mp = .ok (b', k', m', mp') → mp'.tagBits = mp.tagBits := by
  intro n
  induction n with
  | zero =>
    intro b k b' k' m m' mp mp' h
    obtain ⟨-, -, -, rfl⟩ : b = b' ∧ k = k' ∧ m = m' ∧ mp = mp' := by
      simpa [freeMerge] using h
    rfl
  | succ n ih =>
    intro b k b' k' m m' mp mp' h
    rw [freeMerge] at h
    obtain ⟨buddy, -, h⟩ := bind_eq_ok.1 h
    obtain ⟨av, -, h⟩ := bind_eq_ok.1 h
    split at h
    · obtain ⟨-, -, -, rfl⟩ : b = b' ∧ k = k' ∧ m = m' ∧ mp = mp' := by
        simpa [pure, Except.pure] using h
      rfl
    · split at h
      · obtain ⟨-, -, -, rfl⟩ : b = b' ∧ k = k' ∧ m = m' ∧ mp = mp' := by
          simpa [pure, Except.pure] using h
        rfl
      · obtain ⟨mp₁, hdel, h⟩ := bind_eq_ok.1 h
        rw [ih h]
        rcases listDel_cases mp buddy with heq | heq
        · rw [heq] at hdel
          rw [← Except.ok.inj hdel]
        · rw [heq] at hdel
          cases hdel

/-- `buddy_free` sets the tag bit of the block it lists, and no other. -/
theorem buddyFree_tags {m m' : Mem} {mp mp' : BuddyMempool} {U : Multiset Block} {o order : ℕ}
    (h : Inv m mp 0 (⟨o, effOrder mp order⟩ ::ₘ U)) (hord : order ≤ mp.poolOrder)
    (hrun : buddyFree m mp (mp.baseAddr + o) order = .ok (m', mp')) :
    ∃ c j, mp.baseAddr + c ∈ mp'.avail j ∧ 2 ^ mp.minOrder ∣ c ∧
      ∀ x, mp'.tagBits x = true ↔ mp.tagBits x = true ∨ x = c >>> mp.minOrder := by
  have hle : effOrder mp order ≤ mp.poolOrder := by
    rw [effOrder_eq_max]; exact Nat.max_le.2 ⟨hord, h.geom.min_le⟩
  have hhand := h.take_back
  obtain ⟨c, m₁, mp₁, hmerge, hinv, hshape, -, -⟩ :=
    freeMerge_spec (mp.poolOrder - effOrder mp order) hhand (by simp only; omega)
  have hc : c.off < 2 ^ mp.poolOrder := by
    have := hinv.lt_pool (b := c) (by simp)
    rwa [hshape.pool] at this
  have heq := buddyFree_eq h.geom hord (hhand.lt_pool (b := ⟨o, _⟩) (by simp))
    (h.used _ (Multiset.mem_cons_self _ _)).2 hmerge hshape hc
  rw [hrun] at heq
  obtain ⟨-, rfl⟩ := Prod.mk.inj (Except.ok.inj heq)
  have hdvd := hinv.min_dvd_off (b := c) (by simp)
  rw [hshape.min] at hdvd
  refine ⟨c.off, c.order, mem_avail_listAdd.2 (.inl ⟨rfl, rfl⟩), hdvd, fun x => ?_⟩
  have htags := freeMerge_tagBits _ hmerge
  by_cases hx : x = c.off >>> mp.minOrder
  · simp [listAdd, setTag, hshape.min, hx]
  · simp [listAdd, setTag, hshape.min, hx, htags]

/-- Block starts and their tag bits. -/
theorem shiftRight_eq_iff {k o o' : ℕ} (ho : 2 ^ k ∣ o) (ho' : 2 ^ k ∣ o') :
    o >>> k = o' >>> k ↔ o = o' := by
  refine ⟨fun h => ?_, fun h => by rw [h]⟩
  by_contra hne
  exact Inv.shiftRight_ne ho ho' hne h

/-- One step keeps the tag bit of a free address, or sets it because the address starts a listed
block. -/
theorem RunInv.step_tag {s t : PoolState} (h : RunInv s) (hst : PoolStep s t) {o k : ℕ}
    (ho : 2 ^ s.mp.minOrder ∣ o) (hclear : ¬ MeetsOutstanding t (s.mp.baseAddr + o) k) :
    tag t.mp o = true ↔ tag s.mp o = true ∨ ∃ j, s.mp.baseAddr + o ∈ t.mp.avail j := by
  obtain ⟨ht, hshape⟩ := h.step hst
  have hlisted : (∃ j, s.mp.baseAddr + o ∈ t.mp.avail j) → tag t.mp o = true := by
    rintro ⟨j, hj⟩
    have := (ht.inv.listed j _ hj).2.2.2.1
    rwa [hshape.base, Nat.add_sub_cancel_left] at this
  cases hst with
  | @alloc order block m mp hord hrun =>
    by_cases hb : block = 0
    · subst hb
      obtain ⟨r, hr, hres⟩ := buddyAlloc_spec h.inv hord
      rw [hrun] at hr
      obtain rfl := Except.ok.inj hr
      rcases hres with ⟨heq, -⟩ | ⟨o', hblock, -⟩
      · obtain ⟨-, heq⟩ := Prod.mk.inj heq
        obtain ⟨-, rfl⟩ := Prod.mk.inj heq
        exact ⟨.inl, fun hor => hor.elim id hlisted⟩
      · have := h.inv.geom.base_pos
        simp only at hblock
        omega
    · obtain ⟨j, o', rest, rfl, htk⟩ := buddyAlloc_taken h.inv hrun hb
      have hmem : s.mp.baseAddr + o' ∈ s.mp.avail j := by
        rw [htk.list]
        exact List.mem_cons_self
      have hdvd : 2 ^ s.mp.minOrder ∣ o' := by
        have := h.inv.min_dvd_off (h.inv.tile_of_mem hmem)
        simpa [blk] using this
      -- the block that was taken is not the free one
      have hne : o ≠ o' := by
        rintro rfl
        rw [if_neg hb] at hclear
        refine hclear ⟨_, List.mem_cons_self, s.mp.baseAddr + o, ⟨le_refl _, ?_⟩, ⟨le_refl _, ?_⟩⟩
        · have := Nat.two_pow_pos (max order mp.minOrder)
          simp only
          omega
        · have := Nat.two_pow_pos k
          omega
      have htag : tag mp o = true ↔ tag s.mp o = true ∨
          ∃ i, effOrder s.mp order ≤ i ∧ i < j ∧ o = o' + 2 ^ i := by
        unfold tag
        rw [show mp.minOrder = s.mp.minOrder from hshape.min, htk.tags]
        have hmin : s.mp.minOrder ≤ effOrder s.mp order := by
          rw [effOrder_eq_max]
          exact Nat.le_max_right _ _
        refine or_congr ⟨And.left, fun hx => ⟨hx, Inv.shiftRight_ne ho hdvd hne⟩⟩ ?_
        refine exists_congr fun i => and_congr_right fun hi => and_congr_right fun _ => ?_
        exact shiftRight_eq_iff ho (Nat.dvd_add hdvd (pow_dvd_pow 2 (le_trans hmin hi)))
      refine htag.trans ⟨?_, fun hor => htag.1 (hor.elim (fun hx => htag.2 (.inl hx)) hlisted)⟩
      rintro (hx | ⟨i, h1, h2, rfl⟩)
      · exact .inl hx
      · refine .inr ⟨i, ?_⟩
        show _ ∈ mp.avail i
        rw [htk.avail i, if_neg (by omega), if_pos ⟨h1, h2⟩]
        simp
  | @free addr order m mp hmem hrun =>
    obtain ⟨hle, hord⟩ := h.mem_out _ hmem
    have hinv := h.inv
    rw [outBlocks_erase hmem] at hinv
    obtain ⟨c, j, hc, hdvd, htags⟩ := buddyFree_tags (o := addr - s.mp.baseAddr) hinv hord (by
      simp only at hle
      rw [Nat.add_sub_cancel' hle]
      exact hrun)
    have htag : tag mp o = true ↔ tag s.mp o = true ∨ o = c := by
      unfold tag
      rw [show mp.minOrder = s.mp.minOrder from hshape.min, htags, shiftRight_eq_iff ho hdvd]
    refine htag.trans ⟨?_, fun hor => htag.1 (hor.elim (fun hx => htag.2 (.inl hx)) hlisted)⟩
    rintro (hx | rfl)
    · exact .inl hx
    · exact .inr ⟨j, hc⟩
  | client => exact ⟨.inl, fun hor => hor.elim id hlisted⟩

/-! ## Since the free -/

/-- A block that was just freed meets no outstanding block. -/
theorem RunInv.not_meets_erase {s : PoolState} (h : RunInv s) {p : ℕ × ℕ} (hp : p ∈ s.out) {m : Mem}
    {mp : BuddyMempool} (hmin : mp.minOrder = s.mp.minOrder) :
    ¬ MeetsOutstanding ⟨m, mp, s.out.erase p⟩ p.1 (max p.2 mp.minOrder) := by
  rintro ⟨q, hq, x, hqx, hpx⟩
  rw [hmin] at hpx
  simp only [hmin] at hqx
  have hple := (h.mem_out p hp).1
  have hqle := (h.mem_out q (List.mem_of_mem_erase hq)).1
  have htil := h.inv.tiling
  rw [zero_add, outBlocks_erase hp, Multiset.cons_add] at htil
  have hmem : blk s.mp q.1 (effOrder s.mp q.2) ∈
      outBlocks s.mp (s.out.erase p) + freeBlocks s.mp :=
    Multiset.mem_add.2 (.inl (Multiset.mem_map_of_mem _ (Multiset.mem_coe.2 hq)))
  unfold InBlock at hqx hpx
  refine htil.not_covers_of_cons hmem (x := x - s.mp.baseAddr) ⟨?_, ?_⟩ ⟨?_, ?_⟩ <;>
    simp only [blk, effOrder_eq_max] <;> omega

/-- What is known of a state since the free. -/
structure StillFree (s₀ s : PoolState) (addr order : ℕ) : Prop where
  inv : RunInv s
  shape : SameShape s₀.mp s.mp
  clear : ¬ MeetsOutstanding s addr (max order s.mp.minOrder)

theorem SinceFree.inv {s₀ : PoolState} {addr order : ℕ} {ts : List PoolState} (h₀ : RunInv s₀)
    (h : SinceFree s₀ addr order ts) : ∀ t ∈ ts, StillFree s₀ t addr order := by
  induction h with
  | free hmem hrun =>
    intro t ht
    obtain rfl := List.mem_singleton.1 ht
    obtain ⟨hinv, hshape⟩ := h₀.step (.free hmem hrun)
    exact ⟨hinv, hshape, h₀.not_meets_erase hmem hshape.min⟩
  | step _ hst hclear ih =>
    intro t ht
    rcases List.mem_cons.1 ht with rfl | ht
    · have hs := ih _ List.mem_cons_self
      obtain ⟨hinv, hshape⟩ := hs.inv.step hst
      exact ⟨hinv, hs.shape.trans hshape, hclear⟩
    · exact ih t ht

/-- Since the free the tag bit at the block's address is set exactly when the address has started
a listed block. -/
theorem tag_iff_listed {s₀ s : PoolState} {o order : ℕ} {ts : List PoolState} (h₀ : RunInv s₀)
    (ho : 2 ^ s₀.mp.minOrder ∣ o) (h : SinceFree s₀ (s₀.mp.baseAddr + o) order (s :: ts)) :
    tag s.mp o = true ↔ ∃ t ∈ s :: ts, ∃ j, s₀.mp.baseAddr + o ∈ t.mp.avail j := by
  generalize hl : s :: ts = l at h
  induction h generalizing s ts with
  | @free m mp hmem hrun =>
    obtain ⟨rfl, rfl⟩ := List.cons.inj hl
    obtain ⟨-, hshape⟩ := h₀.step (.free hmem hrun)
    rw [h₀.step_tag (.free hmem hrun) ho (h₀.not_meets_erase hmem hshape.min)]
    have hused := (h₀.inv.used _ (Multiset.mem_map_of_mem _ (Multiset.mem_coe.2 hmem))).2
    simp only [blk, Nat.add_sub_cancel_left] at hused
    rw [hused]
    simp
  | @step s' t ts' hs hst hclear ih =>
    obtain ⟨rfl, rfl⟩ := List.cons.inj hl
    have hstill := hs.inv h₀ s' List.mem_cons_self
    have htag := hstill.inv.step_tag hst (o := o) (by rw [hstill.shape.min]; exact ho)
      (by rw [hstill.shape.base]; exact hclear)
    rw [htag, ih rfl, hstill.shape.base]
    simp only [List.exists_mem_cons_iff]
    exact or_comm

/-- Where the tag bit is clear `buddy_free` does not trip `BUG_ON`: all positions the merge loop
tests lie in the pool. -/
theorem freeMerge_ne_bugOn : ∀ (n : ℕ) {m : Mem} {mp : BuddyMempool} {b : Block}, Geometry mp →
    b.Aligned → b.off < 2 ^ mp.poolOrder → b.order + n = mp.poolOrder →
    freeMerge n (mp.baseAddr + b.off) b.order m mp ≠ .error .bugOn ∧
      ∀ b' k' m' mp', freeMerge n (mp.baseAddr + b.off) b.order m mp = .ok (b', k', m', mp') →
        SameShape mp mp' ∧ ∃ c, b' = mp.baseAddr + c ∧ c < 2 ^ mp.poolOrder := by
  intro n
  induction n with
  | zero =>
    intro m mp b g hal hb hn
    refine ⟨by simp [freeMerge], fun b' k' m' mp' h => ?_⟩
    obtain ⟨rfl, -, -, rfl⟩ : mp.baseAddr + b.off = b' ∧ b.order = k' ∧ m = m' ∧ mp = mp' := by
      simpa [freeMerge] using h
    exact ⟨.refl _, b.off, rfl, hb⟩
  | succ n ih =>
    intro m mp b g hal hb hn
    have hlt : b.order < mp.poolOrder := by omega
    have hbud : b.buddy.off < 2 ^ mp.poolOrder := by
      have hpos := Nat.two_pow_pos b.order
      rcases hal.buddy_cases with ⟨⟨q, hq⟩, heq⟩ | ⟨-, -, heq⟩
      · obtain ⟨d, hd⟩ : 2 ^ (b.order + 1) ∣ 2 ^ mp.poolOrder := pow_dvd_pow 2 hlt
        have hqd : q < d := by
          rw [hq, hd] at hb
          exact Nat.lt_of_mul_lt_mul_left hb
        have hmul : 2 ^ (b.order + 1) * (q + 1) ≤ 2 ^ (b.order + 1) * d :=
          Nat.mul_le_mul_left _ hqd
        have hpow : 2 ^ (b.order + 1) = 2 ^ b.order + 2 ^ b.order := by ring
        rw [Nat.mul_add, Nat.mul_one] at hmul
        omega
      · omega
    -- where the loop ends at once, the block is still its own
    have hself : ∀ b' k' m' mp', Except.ok (ε := Stop) (mp.baseAddr + b.off, b.order, m, mp)
        = .ok (b', k', m', mp') → SameShape mp mp' ∧ ∃ c, b' = mp.baseAddr + c ∧
        c < 2 ^ mp.poolOrder := by
      intro b' k' m' mp' h
      obtain ⟨rfl, -, -, rfl⟩ : mp.baseAddr + b.off = b' ∧ b.order = k' ∧ m = m' ∧ mp = mp' := by
        simpa using h
      exact ⟨.refl _, b.off, rfl, hb⟩
    rw [freeMerge]
    simp only [findBuddy_eq g hb hbud hlt, isAvailable_eq g hbud, bind, Except.bind]
    by_cases htag : tag mp b.buddy.off = true
    · by_cases hword : readOrder m (mp.baseAddr + b.buddy.off) = b.order
      · simp only [htag, hword, Bool.not_true, Bool.false_eq_true, if_false, ne_eq,
          not_true_eq_false]
        rcases listDel_cases mp (mp.baseAddr + b.buddy.off) with hdel | hdel
        · -- the loop goes on with the parent
          rw [hdel]
          have hpar := lower_half mp.baseAddr b
          have hparlt : b.parent.off < 2 ^ mp.poolOrder := by
            simp only [Block.parent]
            omega
          simp only [hpar]
          have g' : Geometry { mp with
              avail := fun j => (mp.avail j).erase (mp.baseAddr + b.buddy.off) } :=
            g.of_eq rfl rfl rfl rfl
          obtain ⟨h1, h2⟩ := ih (m := writeOrder m (mp.baseAddr + b.parent.off) (b.order + 1))
            (b := b.parent) g' hal.parent hparlt (by
              simp only [Block.parent_order]
              omega)
          refine ⟨h1, fun b' k' m' mp' h => ?_⟩
          obtain ⟨hsh, hc⟩ := h2 b' k' m' mp' h
          exact ⟨(shape_avail mp _).trans hsh, hc⟩
        · rw [hdel]
          exact ⟨by simp, fun b' k' m' mp' h => by cases h⟩
      · simp only [htag, hword, Bool.not_true, Bool.false_eq_true, if_false, ne_eq,
          not_false_eq_true, if_true, pure, Except.pure]
        exact ⟨by simp, hself⟩
    · simp only [htag, Bool.not_false, if_true, pure, Except.pure]
      exact ⟨by simp, hself⟩

/-- `buddy_free` of an aligned block trips `BUG_ON` exactly when the block's tag bit is set. -/
theorem buddyFree_bugOn_iff {m : Mem} {mp : BuddyMempool} {o order : ℕ} (g : Geometry mp)
    (hord : order ≤ mp.poolOrder) (ho : o < 2 ^ mp.poolOrder) (hal : 2 ^ effOrder mp order ∣ o) :
    buddyFree m mp (mp.baseAddr + o) order = .error .bugOn ↔ tag mp o = true := by
  have hle : effOrder mp order ≤ mp.poolOrder := by
    rw [effOrder_eq_max]; exact Nat.max_le.2 ⟨hord, g.min_le⟩
  obtain ⟨h1, h2⟩ := freeMerge_ne_bugOn (m := m) (mp.poolOrder - effOrder mp order)
    (b := ⟨o, effOrder mp order⟩) g hal ho (by simp only; omega)
  have heff : (if order < mp.minOrder then mp.minOrder else order) = effOrder mp order := rfl
  unfold buddyFree
  rw [if_neg (by omega), heff]
  simp only [isAvailable_eq g ho, bind, Except.bind, pure, Except.pure]
  by_cases htag : tag mp o = true
  · simp [htag, throw, throwThe, MonadExceptOf.throw]
  · simp only [htag, Bool.false_eq_true, if_false, iff_false]
    rcases hrun : freeMerge (mp.poolOrder - effOrder mp order) (mp.baseAddr + o)
        (effOrder mp order) m mp with e | ⟨b', k', m', mp'⟩
    · rw [hrun] at h1
      simpa using h1
    · obtain ⟨hshape, c, rfl, hc⟩ := h2 b' k' m' mp' hrun
      have hmark := markAvailable_eq (hshape.geometry g) (o := c) (by rw [hshape.pool]; exact hc)
      rw [hshape.base] at hmark
      simp [hmark]

/-- **Double frees.** A second `buddy_free` of a block that was freed, and not allocated again,
trips `BUG_ON` exactly when at some moment since the free an outstanding block lay in the smallest
aligned block that contains its address but does not start with it. -/
theorem double_free_caught_iff {base pool min : ℕ} {mp₀ mp₁ : BuddyMempool} {m₀ m₁ : Mem}
    (hinit : buddyInit base pool min = some mp₀) (hbase : base ≠ 0)
    (hspace : base + 2 ^ pool ≤ 2 ^ 64)
    (hfree : buddyFree m₀ mp₀ base pool = .ok (m₁, mp₁)) {s₀ s : PoolState}
    (hs : Relation.ReflTransGen PoolStep ⟨m₁, mp₁, []⟩ s₀) {addr order : ℕ} {ts : List PoolState}
    (h : SinceFree s₀ addr order (s :: ts)) :
    buddyFree s.mem s.mp addr order = .error .bugOn ↔ ∃ t ∈ s :: ts, KeptApart t addr := by
  obtain ⟨m₁', mp₁', hrun, hinv, -, -⟩ := start_spec m₀ hinit hbase hspace
  rw [hfree] at hrun
  cases hrun
  have h₀ := (runInv_of_reaches hinv hs).1
  have hstill := h.inv h₀
  have hmem : (addr, order) ∈ s₀.out := by
    clear hstill
    generalize s :: ts = l at h
    induction h with
    | free hmem _ => exact hmem
    | step _ _ _ ih => exact ih
  obtain ⟨hle, hord⟩ := h₀.mem_out _ hmem
  obtain ⟨o, rfl⟩ := Nat.exists_eq_add_of_le hle
  -- the block as a tile of the pool
  have htile : (⟨o, effOrder s₀.mp order⟩ : Block) ∈
      0 + outBlocks s₀.mp s₀.out + freeBlocks s₀.mp := by
    have := Multiset.mem_map_of_mem (fun p : ℕ × ℕ => blk s₀.mp p.1 (effOrder s₀.mp p.2))
      (Multiset.mem_coe.2 hmem)
    simp only [blk, Nat.add_sub_cancel_left] at this
    rw [zero_add]
    exact Multiset.mem_add.2 (.inl this)
  have hal : 2 ^ effOrder s₀.mp order ∣ o := h₀.inv.tiling.aligned _ htile
  have ho := h₀.inv.lt_pool htile
  have hend := h₀.inv.tiling.off_add_le htile
  have hcur := hstill s List.mem_cons_self
  have hbug := @buddyFree_bugOn_iff s.mem _ o order hcur.inv.inv.geom
    (by rw [hcur.shape.pool]; exact hord) (by rw [hcur.shape.pool]; exact ho)
    (by rw [hcur.shape.effOrder_eq]; exact hal)
  rw [hcur.shape.base] at hbug
  rw [hbug, tag_iff_listed h₀ (h₀.inv.min_dvd_off htile) h]
  refine exists_congr fun t => and_congr_right fun ht => ?_
  have hst := hstill t ht
  have hwin : Window t.mp (t.mp.baseAddr + o) (max order t.mp.minOrder) := by
    refine ⟨Nat.le_add_right _ _, ?_, ?_⟩
    · rw [Nat.add_sub_cancel_left, ← effOrder_eq_max, hst.shape.effOrder_eq]
      exact hal
    · rw [← effOrder_eq_max, hst.shape.effOrder_eq, hst.shape.pool]
      simp only at hend
      omega
  have hiff := hst.inv.listed_iff_keptApart hwin (by
    rw [hst.shape.base]
    exact hst.clear)
  rwa [hst.shape.base] at hiff

/-- A pool of 64 bytes with both halves allocated, in a reachable state. -/
theorem both_halves_allocated :
    ∃ mp₀ m₁ mp₁ m mp, buddyInit 4096 6 0 = some mp₀ ∧
      buddyFree (fun _ => 0) mp₀ 4096 6 = .ok (m₁, mp₁) ∧
      Relation.ReflTransGen PoolStep ⟨m₁, mp₁, []⟩ ⟨m, mp, [(4128, 5), (4096, 5)]⟩ ∧
      (∃ m' mp', buddyFree m mp 4128 5 = .ok (m', mp') ∧ mp'.baseAddr = 4096) ∧
      ∃ m' mp' m'' mp'', buddyFree m mp 4096 5 = .ok (m', mp') ∧
        buddyFree m' mp' 4128 5 = .ok (m'', mp'') ∧ mp''.avail 6 = [4096] ∧
        ∃ m₃ mp₃, buddyFree m'' mp'' 4128 5 = .ok (m₃, mp₃) ∧ mp₃.avail 5 = [4128] := by
  have hres : ((buddyInit 4096 6 0).bind fun mp₀ =>
      (buddyFree (fun _ => 0) mp₀ 4096 6).toOption.bind fun r₁ =>
      (answers [.alloc 5, .alloc 5] ⟨r₁.1, r₁.2, []⟩).bind fun s =>
      (buddyFree s.mem s.mp 4128 5).toOption.bind fun r₂ =>
      (buddyFree s.mem s.mp 4096 5).toOption.bind fun r₃ =>
      (buddyFree r₃.1 r₃.2 4128 5).toOption.bind fun r₄ =>
      (buddyFree r₄.1 r₄.2 4128 5).toOption.map fun r₅ =>
        (s.out, r₂.2.baseAddr, r₄.2.avail 6, r₅.2.avail 5))
      = some ([(4128, 5), (4096, 5)], 4096, [4096], [4128]) := by
    decide +kernel
  obtain ⟨mp₀, hinit, hres⟩ := Option.bind_eq_some_iff.1 hres
  obtain ⟨⟨m₁, mp₁⟩, hfree, hres⟩ := Option.bind_eq_some_iff.1 hres
  obtain ⟨⟨m, mp, out⟩, hs, hres⟩ := Option.bind_eq_some_iff.1 hres
  obtain ⟨⟨m₂, mp₂⟩, hback, hres⟩ := Option.bind_eq_some_iff.1 hres
  obtain ⟨⟨m₃, mp₃⟩, hfirst, hres⟩ := Option.bind_eq_some_iff.1 hres
  obtain ⟨⟨m₄, mp₄⟩, hsecond, hres⟩ := Option.bind_eq_some_iff.1 hres
  obtain ⟨⟨m₅, mp₅⟩, hthird, heq⟩ := Option.map_eq_some_iff.1 hres
  simp only [Prod.mk.injEq] at heq
  obtain ⟨rfl, hbase, hav, hav'⟩ := heq
  exact ⟨mp₀, m₁, mp₁, m, mp, hinit, ok_of_toOption hfree, reaches_of_answers hs,
    ⟨m₂, mp₂, ok_of_toOption hback, hbase⟩, m₃, mp₃, m₄, mp₄, ok_of_toOption hfirst,
    ok_of_toOption hsecond, hav, m₅, mp₅, ok_of_toOption hthird, hav'⟩

/-- The upper half is freed while the lower one is outstanding: a second free is caught. -/
theorem double_free_caught_of_upper_half :
    ∃ s₀ s ts, SinceFree s₀ 4128 5 (s :: ts) ∧ (∃ t ∈ s :: ts, KeptApart t 4128) ∧
      buddyFree s.mem s.mp 4128 5 = .error .bugOn := by
  obtain ⟨mp₀, m₁, mp₁, m, mp, hinit, hfree, hs, ⟨m', mp', hback, hbase⟩, -⟩ :=
    both_halves_allocated
  have hsince : SinceFree ⟨m, mp, [(4128, 5), (4096, 5)]⟩ 4128 5 [⟨m', mp', [(4096, 5)]⟩] :=
    .free (by simp) hback
  have hapart : KeptApart ⟨m', mp', [(4096, 5)]⟩ 4128 := by
    intro k h1 h2
    simp only [hbase, show 4128 - 4096 = 2 ^ 5 from rfl] at h1 h2
    obtain rfl : k = 5 := by
      have h3 := (Nat.pow_dvd_pow_iff_le_right (x := 2) (by norm_num)).1 h1
      have h4 := mt (Nat.pow_dvd_pow_iff_le_right (x := 2) (by norm_num)).2 h2
      omega
    refine ⟨(4096, 5), by simp, 4096, ⟨le_refl _, ?_⟩, by norm_num, by norm_num⟩
    have := Nat.two_pow_pos (max 5 mp'.minOrder)
    simp only
    omega
  have hcond : ∃ t ∈ [(⟨m', mp', [(4096, 5)]⟩ : PoolState)], KeptApart t 4128 :=
    ⟨_, List.mem_singleton.2 rfl, hapart⟩
  exact ⟨_, _, _, hsince, hcond,
    (double_free_caught_iff hinit (by decide) (by norm_num) hfree hs hsince).2 hcond⟩

/-- The lower half is freed first, and the upper one is merged into it: a second free of the upper
half succeeds, and lists it beside the block it is part of. -/
theorem double_free_unnoticed :
    ∃ mp₀ m₁ mp₁ s₀ s ts, buddyInit 4096 6 0 = some mp₀ ∧
      buddyFree (fun _ => 0) mp₀ 4096 6 = .ok (m₁, mp₁) ∧
      Relation.ReflTransGen PoolStep ⟨m₁, mp₁, []⟩ s₀ ∧ SinceFree s₀ 4128 5 (s :: ts) ∧
      s.mp.avail 6 = [4096] ∧
      ∃ m mp, buddyFree s.mem s.mp 4128 5 = .ok (m, mp) ∧ mp.avail 5 = [4128] := by
  obtain ⟨mp₀, m₁, mp₁, m, mp, hinit, hfree, hs, -, m', mp', m'', mp'', hlow, hup, hav, hagain⟩ :=
    both_halves_allocated
  have hstep : PoolStep ⟨m, mp, [(4128, 5), (4096, 5)]⟩ ⟨m', mp', [(4128, 5)]⟩ :=
    PoolStep.free (s := ⟨m, mp, [(4128, 5), (4096, 5)]⟩)
      (show (4096, 5) ∈ [(4128, 5), (4096, 5)] by simp) hlow
  have hsince : SinceFree ⟨m', mp', [(4128, 5)]⟩ 4128 5 [⟨m'', mp'', []⟩] :=
    .free List.mem_cons_self hup
  exact ⟨mp₀, m₁, mp₁, _, _, _, hinit, hfree, .tail hs hstep, hsince, hav, hagain⟩

end Buddy

end Petmem
