import Petmem.PoolTheorems

/-!
# Capacity of the pools

`ADD_MEMORY` cuts a physical range into pools, one for each bit of its page count. The pools of
disjoint ranges satisfy `PoolsInv` and cover exactly the pages of the ranges (`addMemory_spec`),
whatever is allocated and freed in between. So `petmem_alloc_pages(1)` fails exactly when every
page that was added is outstanding (`capacity_exact`).
-/

namespace Petmem
namespace Pools

open ByteMemory Dyadic Buddy

/-! ## Adding a pool -/

/-- A pool that is whole and free, apart from the others. -/
theorem PoolsInv.addPool {k : Kern} {mp : BuddyMempool} {m' : Mem} (h : PoolsInv k)
    (hok : PoolOk mp) (hinv : Inv m' mp 0 0) (hapart : ∀ mp₂ ∈ k.pools, Apart mp mp₂)
    (hmem : ∀ x, ¬ (mp.baseAddr ≤ x ∧ x < mp.baseAddr + 2 ^ mp.poolOrder) → m' x = k.mem x) :
    PoolsInv { k with mem := m', pools := mp :: k.pools } where
  ok mp₂ hm := (List.mem_cons.1 hm).elim (fun he => he ▸ hok) (h.ok mp₂)
  inv mp₂ hm := by
    rcases List.mem_cons.1 hm with rfl | hm
    · -- what is outstanding lies in the pools that were there
      have hused : usedBlocks mp₂ k.outstanding = 0 := by
        unfold usedBlocks
        rw [List.filter_eq_nil_iff.2 fun x hx => ?_]
        · rfl
        · obtain ⟨-, mp₃, hmp₃, hc⟩ := h.out x hx
          simpa using (hapart mp₃ hmp₃).symm.not_covers hc
      show Inv m' mp₂ 0 (usedBlocks mp₂ k.outstanding)
      rw [hused]
      exact hinv
    · have hinv₂ := h.inv mp₂ hm
      refine hinv₂.of_mem_eq fun j a ha => hinv₂.readOrder_eq_of_busy (fun x hx => ?_) ha
      refine hmem x fun hin => hx (.inl fun hin₂ => ?_)
      have := hapart mp₂ hm
      unfold Apart at this
      omega
  apart := List.pairwise_cons.2 ⟨hapart, h.apart⟩
  out x hx := by
    obtain ⟨hdvd, mp₂, hm, hc⟩ := h.out x hx
    exact ⟨hdvd, mp₂, List.mem_cons_of_mem _ hm, hc⟩

/-- `buddy_init` accepts a pool of pages. -/
theorem buddyInit_page (base : ℕ) {order : ℕ} (hord : 12 ≤ order) :
    ∃ mp, buddyInit base order 12 = some mp ∧ mp.minOrder = 12 := by
  have hsize : ¬ shl64 12 < sizeofBlock := by decide
  unfold buddyInit
  simp only [if_neg hsize]
  rw [if_neg (show ¬ 12 > order by omega)]
  exact ⟨_, rfl, rfl⟩

/-- `buddy_init` and the first `buddy_free` of a pool of pages. -/
theorem freshPool_spec (m : Mem) {base order : ℕ} (hord : 12 ≤ order) (hord' : order ≤ 30)
    (hbase : 0 < base) (hdvd : 4096 ∣ base) (hlim : base + 2 ^ order ≤ physLimit) :
    ∃ mp m' mp', buddyInit (base + pageOffset) order 12 = some mp ∧
      buddyFree m mp (base + pageOffset) order = .ok (m', mp') ∧ Inv m' mp' 0 0 ∧ PoolOk mp' ∧
      mp'.baseAddr = base + pageOffset ∧ mp'.poolOrder = order ∧
      ∀ x, ¬ (base + pageOffset ≤ x ∧ x < base + pageOffset + 2 ^ order) → m' x = m x := by
  obtain ⟨mp, hinit, hmin⟩ := buddyInit_page (base + pageOffset) hord
  have hspace : base + pageOffset + 2 ^ order ≤ 2 ^ 64 := by
    unfold physLimit at hlim
    unfold pageOffset
    omega
  have hne : base + pageOffset ≠ 0 := by
    unfold pageOffset
    omega
  obtain ⟨-, hb, hp, -, -⟩ := geometry_of_init hinit hne hspace
  obtain ⟨m', mp', hrun, hinv, hshape, hframe⟩ := start_spec m hinit hne hspace
  have hbase' : mp'.baseAddr = base + pageOffset := hshape.base.trans hb
  have hpool' : mp'.poolOrder = order := hshape.pool.trans hp
  refine ⟨mp, m', mp', hinit, hrun, hinv.inv, ⟨hshape.min.trans hmin, by omega, by omega, ?_, ?_⟩,
    hbase', hpool', hframe⟩
  · rw [hbase']
    exact Nat.dvd_add hdvd pageOffset_dvd
  · rw [hbase', hpool']
    omega

/-! ## `ADD_MEMORY` -/

/-- The page at `x` lies in the `n` pages from `base`. -/
def InRange (base n x : ℕ) : Prop := base ≤ x ∧ x < base + 4096 * n

/-- What `ADD_MEMORY` does to the state: the pools cover the pages of the range as well. -/
structure Added (base n : ℕ) (k k' : Kern) : Prop where
  inv : PoolsInv k'
  out : k'.outstanding = k.outstanding
  file : k'.file = k.file
  covers : ∀ x, (∃ mp ∈ k'.pools, Covers mp x) ↔
    (∃ mp ∈ k.pools, Covers mp x) ∨ InRange base n x
  mem : ∀ x, ¬ InRange (base + pageOffset) n x → k'.mem x = k.mem x

/-- The highest bit of a page count. -/
theorem fls_spec {n : ℕ} (h : n ≠ 0) : ∃ r, fls n = r + 1 ∧ 2 ^ r ≤ n ∧ n < 2 ^ (r + 1) := by
  unfold fls
  rw [if_neg h]
  exact ⟨n.log2, rfl, Nat.log2_self_le h, Nat.lt_log2_self⟩

/-- Without its highest bit a page count needs one round less. -/
theorem sub_two_pow_lt {n r rounds : ℕ} (hlow : 2 ^ r ≤ n) (hhigh : n < 2 ^ (r + 1))
    (hn : n < 2 ^ (rounds + 1)) : n - 2 ^ r < 2 ^ rounds := by
  have hpow : 2 ^ r < 2 ^ (rounds + 1) := by omega
  have hle : r ≤ rounds := Nat.lt_succ_iff.1 ((Nat.pow_lt_pow_iff_right (by norm_num)).1 hpow)
  have hmono : 2 ^ r ≤ 2 ^ rounds := Nat.pow_le_pow_right (by norm_num) hle
  rw [pow_succ] at hhigh
  omega

/-- A round of the loop makes a pool of the pages that the highest bit counts. -/
theorem addPools_succ {b n r : ℕ} {m m₁ : Mem} {mp mp₁ : BuddyMempool} (rounds : ℕ)
    (pools : List BuddyMempool) (hr : fls n = r + 1) (hlow : 2 ^ r ≤ n) (hn : n < 2 ^ 31)
    (hspace : b + 4096 * 2 ^ r < 2 ^ 64) (hinit : buddyInit b (r + 12) 12 = some mp)
    (hfree : buddyFree m mp b (r + 12) = .ok (m₁, mp₁)) :
    addPools (rounds + 1) b n m pools
      = addPools rounds (b + 4096 * 2 ^ r) (n - 2 ^ r) m₁ (mp₁ :: pools) := by
  have hr31 : r < 31 := (Nat.pow_lt_pow_iff_right (a := 2) (by norm_num)).1 (by omega)
  have hsext : sext32 (2 ^ r) = 2 ^ r :=
    sext32_of_lt (Nat.pow_lt_pow_right (by norm_num) hr31)
  have hord : fls n + pageShift - 1 = r + 12 := by
    unfold pageShift
    omega
  have hnext : (b + sext32 (2 ^ r) * pageSize) % 2 ^ 64 = b + 4096 * 2 ^ r := by
    rw [hsext]
    unfold pageSize
    omega
  have hpages : (n + (2 ^ 32 - 2 ^ r)) % 2 ^ 32 = n - 2 ^ r := by omega
  rw [addPools]
  simp only [hord]
  rw [if_neg (by omega), show pageShift = 12 from rfl, hinit]
  simp only [hfree, bind, Except.bind, hr, Nat.add_sub_cancel, hnext, hpages]

/-- The range is clear of the pools. -/
def RangeClear (k : Kern) (base n : ℕ) : Prop :=
  ∀ mp ∈ k.pools, mp.baseAddr + 2 ^ mp.poolOrder ≤ base + pageOffset ∨
    base + 4096 * n + pageOffset ≤ mp.baseAddr

/-- The loop of `ADD_MEMORY` makes pools of the whole range. -/
theorem addPools_spec (rounds : ℕ) : ∀ (k : Kern) (base n : ℕ), PoolsInv k → n < 2 ^ rounds →
    n < 2 ^ 19 → 0 < base → 4096 ∣ base → base + 4096 * n ≤ physLimit → RangeClear k base n →
    ∃ m' pools', addPools rounds (base + pageOffset) n k.mem k.pools = .ok (m', pools') ∧
      Added base n k { k with mem := m', pools := pools' } := by
  induction rounds with
  | zero =>
    intro k base n h hn _ _ _ _ _
    obtain rfl : n = 0 := by omega
    refine ⟨k.mem, k.pools, rfl, h, rfl, rfl, fun x => ?_, fun _ _ => rfl⟩
    simp [InRange]
  | succ rounds ih =>
    intro k base n h hn hn19 hbase hdvd hlim hclear
    by_cases h0 : n = 0
    · subst h0
      refine ⟨k.mem, k.pools, rfl, h, rfl, rfl, fun x => ?_, fun _ _ => rfl⟩
      simp [InRange]
    obtain ⟨r, hr, hlow, hhigh⟩ := fls_spec h0
    have hr19 : r < 19 := (Nat.pow_lt_pow_iff_right (a := 2) (by norm_num)).1 (by omega)
    have hpow : 2 ^ (r + 12) = 4096 * 2 ^ r := by rw [pow_add]; ring
    -- the first pool takes the highest bit
    obtain ⟨mp, m₁, mp₁, hinit, hfree, hinv, hok, hb, hp, hframe⟩ := freshPool_spec k.mem
      (show 12 ≤ r + 12 by omega) (by omega) hbase hdvd (by omega)
    have hapart : ∀ mp₂ ∈ k.pools, Apart mp₁ mp₂ := by
      intro mp₂ hm
      have := hclear mp₂ hm
      unfold Apart
      rw [hb, hp]
      omega
    have hinv₁ := h.addPool hok hinv hapart (by rwa [hb, hp])
    have hclear₁ : RangeClear { k with mem := m₁, pools := mp₁ :: k.pools } (base + 4096 * 2 ^ r)
        (n - 2 ^ r) := by
      intro mp₂ hm
      rcases List.mem_cons.1 hm with rfl | hm
      · rw [hb, hp]
        omega
      · have := hclear mp₂ hm
        omega
    obtain ⟨m', pools', hrun, hadd⟩ := ih _ (base + 4096 * 2 ^ r) (n - 2 ^ r) hinv₁
      (sub_two_pow_lt hlow hhigh hn)
      (by omega) (by omega) (Nat.dvd_add hdvd (Nat.dvd_mul_right _ _)) (by omega) hclear₁
    have hstep : addPools (rounds + 1) (base + pageOffset) n k.mem k.pools
        = addPools rounds (base + 4096 * 2 ^ r + pageOffset) (n - 2 ^ r) m₁ (mp₁ :: k.pools) := by
      have hspace : base + pageOffset + 4096 * 2 ^ r < 2 ^ 64 := by
        unfold physLimit at hlim
        unfold pageOffset
        omega
      rw [addPools_succ rounds k.pools hr hlow (by omega) hspace hinit hfree, Nat.add_right_comm]
    refine ⟨m', pools', hstep.trans hrun, hadd.inv, hadd.out, hadd.file, fun x => ?_,
      fun x hx => ?_⟩
    · rw [hadd.covers]
      simp only [List.mem_cons, exists_eq_or_imp, Covers, hb, hp, InRange, hpow]
      constructor
      · rintro ((hx | hx) | hx)
        · exact .inr (by omega)
        · exact .inl hx
        · exact .inr (by omega)
      · rintro (hx | hx)
        · exact .inl (.inr hx)
        · by_cases hlt : x < base + 4096 * 2 ^ r
          · exact .inl (.inl (by omega))
          · exact .inr (by omega)
    · unfold InRange at hx
      rw [hadd.mem x (by unfold InRange; omega)]
      exact hframe x (by rw [hpow]; omega)

/-- The ranges `ADD_MEMORY` is called with. -/
structure RangeOk (k : Kern) (base n : ℕ) : Prop where
  pages : n < 2 ^ 19
  pos : 0 < base
  dvd : 4096 ∣ base
  limit : base + 4096 * n ≤ physLimit
  clear : RangeClear k base n

theorem addMemory_spec {k : Kern} {base n : ℕ} (h : PoolsInv k) (hr : RangeOk k base n) :
    ∃ k', addMemory base n k = .ok k' ∧ Added base n k k' := by
  obtain ⟨hn, hpos, hdvd, hlim, hclear⟩ := hr
  obtain ⟨m', pools', hrun, hadd⟩ := addPools_spec 32 k base n h (by omega) hn hpos hdvd hlim hclear
  have hva : va base = base + pageOffset := by
    unfold physLimit at hlim
    unfold va pageOffset
    omega
  refine ⟨_, ?_, hadd⟩
  unfold addMemory
  rw [hva, Nat.mod_eq_of_lt (by omega), hrun]
  rfl

/-! ## Pages of the pools -/

namespace PoolsInv

variable {k : Kern}

/-- No frame is outstanding twice. -/
theorem nodup (h : PoolsInv k) : k.outstanding.Nodup := by
  rw [List.nodup_iff_count_le_one]
  intro x
  by_cases hx : x ∈ k.outstanding
  · obtain ⟨-, mp, hmp, hc⟩ := h.out x hx
    have htil := (h.inv mp hmp).tiling.nodup
    rw [zero_add] at htil
    have hused : (usedBlocks mp k.outstanding).Nodup :=
      Multiset.nodup_of_le (Multiset.le_add_right _ _) htil
    have hfilter : (k.outstanding.filter fun x => Covers mp x).Nodup :=
      List.Nodup.of_map _ (Multiset.coe_nodup.1 hused)
    rw [← List.count_filter (p := fun x => decide (Covers mp x)) (by simpa using hc)]
    exact List.nodup_iff_count_le_one.1 hfilter x
  · rw [List.count_eq_zero_of_not_mem hx]
    exact Nat.zero_le 1

/-- A page of a pool that is not outstanding lies in a block on a free list. -/
theorem hasFree_of_not_held (h : PoolsInv k) {mp : BuddyMempool} {x : ℕ} (hmp : mp ∈ k.pools)
    (hdvd : 4096 ∣ x) (hc : Covers mp x) (hx : x ∉ k.outstanding) : HasFree k := by
  have hok := h.ok mp hmp
  have hc' := hc
  unfold Covers at hc
  -- the block of an outstanding page that covers the byte is the page itself
  have hfree : ∀ b ∈ usedBlocks mp k.outstanding, ¬ b.Covers (x + pageOffset - mp.baseAddr) := by
    intro b hb hcov
    obtain ⟨y, hy, rfl⟩ := List.mem_map.1 (Multiset.mem_coe.1 hb)
    obtain ⟨hy, hyc⟩ := List.mem_filter.1 hy
    have hyc : Covers mp y := by simpa using hyc
    obtain ⟨q, hq⟩ := (h.out y hy).1
    obtain ⟨q', hq'⟩ := hdvd
    unfold Covers at hyc
    unfold pageBlock Block.Covers at hcov
    simp only at hcov
    obtain rfl : y = x := by omega
    exact hx hy
  obtain ⟨i, hi, hne⟩ := exists_avail_of_not_used (h.inv mp hmp) (by omega) hfree
  exact ⟨mp, hmp, i, by rwa [hok.min] at hi, hne⟩

end PoolsInv

/-! ## Runs -/

/-- The pages of the ranges that were added. -/
def pagesOf (ranges : List (ℕ × ℕ)) : List ℕ :=
  ranges.flatMap fun r => (List.range r.2).map fun i => r.1 + 4096 * i

/-- A range of fewer than 2^19 whole pages below 2^46, without physical page 0 and disjoint from
the ranges that were added. -/
structure NewRange (ranges : List (ℕ × ℕ)) (base n : ℕ) : Prop where
  pages : n < 2 ^ 19
  pos : 0 < base
  dvd : 4096 ∣ base
  limit : base + 4096 * n ≤ physLimit
  disjoint : ∀ r ∈ ranges, base + 4096 * n ≤ r.1 ∨ r.1 + 4096 * r.2 ≤ base

/-- Runs of `ADD_MEMORY`, `petmem_alloc_pages(1)` and `petmem_free_pages(p, 1)` of outstanding
pages, whose owners write to them as they like. -/
inductive FrameRun : List (ℕ × ℕ) → Kern → Prop
  | start (m : Mem) (file : SwapFile) : FrameRun [] ⟨m, [], file, []⟩
  | add {ranges : List (ℕ × ℕ)} {k k' : Kern} {base n : ℕ} : FrameRun ranges k →
      NewRange ranges base n → addMemory base n k = .ok k' → FrameRun ((base, n) :: ranges) k'
  | alloc {ranges : List (ℕ × ℕ)} {k k' : Kern} {p : ℕ} : FrameRun ranges k →
      petmemAllocPages 1 k = .ok (p, k') → FrameRun ranges k'
  | free {ranges : List (ℕ × ℕ)} {k k' : Kern} {p : ℕ} : FrameRun ranges k →
      p ∈ k.outstanding → petmemFreePages p 1 k = .ok k' → FrameRun ranges k'
  | client {ranges : List (ℕ × ℕ)} {k : Kern} {m : Mem} : FrameRun ranges k →
      (∀ x, (∀ p ∈ k.outstanding, ¬ InRange (p + pageOffset) 1 x) → m x = k.mem x) →
      FrameRun ranges { k with mem := m }

/-- The pools cover exactly the pages of the ranges. -/
structure CapacityInv (ranges : List (ℕ × ℕ)) (k : Kern) : Prop where
  inv : PoolsInv k
  covers : ∀ x, (∃ mp ∈ k.pools, Covers mp x) ↔ ∃ r ∈ ranges, InRange r.1 r.2 x
  nodup : (pagesOf ranges).Nodup
  dvd : ∀ r ∈ ranges, 4096 ∣ r.1

theorem SamePools.covers_iff {k k' : Kern} (h : SamePools k k') {x : ℕ} :
    (∃ mp ∈ k'.pools, Covers mp x) ↔ ∃ mp ∈ k.pools, Covers mp x := by
  unfold SamePools at h
  generalize k.pools = l at h
  generalize k'.pools = l' at h
  induction h with
  | nil => simp
  | cons hab _ ih => simp only [List.mem_cons, exists_eq_or_imp, ih, covers_congr hab]

/-- A new range is clear of the pools, when these lie in the ranges that were added. -/
theorem rangeOk_of_within {ranges : List (ℕ × ℕ)} {k : Kern} {base n : ℕ} (hinv : PoolsInv k)
    (hcov : ∀ x, (∃ mp ∈ k.pools, Covers mp x) → ∃ r ∈ ranges, InRange r.1 r.2 x)
    (hnew : NewRange ranges base n) (hn : 0 < n) : RangeOk k base n := by
  refine ⟨hnew.pages, hnew.pos, hnew.dvd, hnew.limit, fun mp hmp => ?_⟩
  by_contra hno
  -- the first byte of the overlap lies in a range that was added
  have hbase := (hinv.ok mp hmp).base
  have hpos := Nat.two_pow_pos mp.poolOrder
  have hin : Covers mp (max base (mp.baseAddr - pageOffset)) := by
    unfold Covers
    omega
  obtain ⟨r, hr, hin⟩ := hcov _ ⟨mp, hmp, hin⟩
  have hdis := hnew.disjoint r hr
  unfold InRange at hin
  omega

/-- `ADD_MEMORY` of a new range returns. -/
theorem addMemory_added {ranges : List (ℕ × ℕ)} {k : Kern} {base n : ℕ} (hinv : PoolsInv k)
    (hcov : ∀ x, (∃ mp ∈ k.pools, Covers mp x) → ∃ r ∈ ranges, InRange r.1 r.2 x)
    (hnew : NewRange ranges base n) :
    ∃ k', Pools.addMemory base n k = .ok k' ∧ Added base n k k' := by
  by_cases hn : n = 0
  · subst hn
    exact ⟨k, rfl, hinv, rfl, rfl, fun x => by simp [InRange], fun _ _ => rfl⟩
  · exact addMemory_spec hinv (rangeOk_of_within hinv hcov hnew (Nat.pos_of_ne_zero hn))

namespace CapacityInv

variable {ranges : List (ℕ × ℕ)} {k k' : Kern}

theorem mem_pagesOf (h : CapacityInv ranges k) {x : ℕ} :
    x ∈ pagesOf ranges ↔ 4096 ∣ x ∧ ∃ r ∈ ranges, InRange r.1 r.2 x := by
  unfold pagesOf InRange
  rw [List.mem_flatMap]
  constructor
  · rintro ⟨r, hr, hx⟩
    obtain ⟨i, hi, rfl⟩ := List.mem_map.1 hx
    rw [List.mem_range] at hi
    exact ⟨Nat.dvd_add (h.dvd r hr) (Nat.dvd_mul_right _ _), r, hr, by omega, by omega⟩
  · rintro ⟨hdvd, r, hr, h1, h2⟩
    refine ⟨r, hr, List.mem_map.2 ⟨(x - r.1) / 4096, List.mem_range.2 (by omega), ?_⟩⟩
    obtain ⟨a, ha⟩ := h.dvd r hr
    omega

/-- Pages of the ranges and pages of the pools are the same. -/
theorem mem_pagesOf_iff (h : CapacityInv ranges k) {x : ℕ} (hx : 4096 ∣ x) :
    x ∈ pagesOf ranges ↔ ∃ mp ∈ k.pools, Covers mp x := by
  rw [h.mem_pagesOf, h.covers]
  exact and_iff_right hx

theorem addMemory (h : CapacityInv ranges k) {base n : ℕ} (hnew : NewRange ranges base n) :
    ∃ k', Pools.addMemory base n k = .ok k' ∧ CapacityInv ((base, n) :: ranges) k' := by
  obtain ⟨k', hrun, hadd⟩ := addMemory_added h.inv (fun x => (h.covers x).1) hnew
  have hcovers : ∀ x, (∃ mp ∈ k'.pools, Covers mp x) ↔
      ∃ r ∈ (base, n) :: ranges, InRange r.1 r.2 x := by
    intro x
    rw [hadd.covers, h.covers]
    simp only [List.mem_cons, exists_eq_or_imp]
    exact or_comm
  refine ⟨k', hrun, hadd.inv, hcovers, ?_, ?_⟩
  · unfold pagesOf
    rw [List.flatMap_cons]
    refine List.nodup_append.2 ⟨?_, h.nodup, fun a ha b hb hab => ?_⟩
    · exact List.Nodup.map (fun i j hij => by simp only at hij; omega) List.nodup_range
    · obtain ⟨i, hi, rfl⟩ := List.mem_map.1 ha
      rw [List.mem_range] at hi
      obtain ⟨r, hr, hin⟩ := (h.mem_pagesOf.1 hb).2
      have hdis := hnew.disjoint r hr
      unfold InRange at hin
      simp only at hab hi
      omega
  · intro r hr
    rcases List.mem_cons.1 hr with rfl | hr
    · exact hnew.dvd
    · exact h.dvd r hr

/-- What keeps the pools' dimensions keeps the pages they cover. -/
theorem of_samePools (h : CapacityInv ranges k) (hinv : PoolsInv k') (hsame : SamePools k k') :
    CapacityInv ranges k' :=
  ⟨hinv, fun x => hsame.covers_iff.trans (h.covers x), h.nodup, h.dvd⟩

theorem free (h : CapacityInv ranges k) {p : ℕ} (hp : p ∈ k.outstanding) :
    ∃ k', petmemFreePages p 1 k = .ok k' ∧ k'.outstanding = k.outstanding.erase p ∧
      CapacityInv ranges k' := by
  obtain ⟨f, rfl⟩ := (h.inv.out p hp).1
  rw [Nat.mul_comm] at hp ⊢
  obtain ⟨k', hrun, hfreed⟩ := petmemFreePages_spec h.inv hp
  exact ⟨k', hrun, hfreed.out, h.of_samePools hfreed.inv hfreed.pools⟩

theorem client (h : CapacityInv ranges k) {m : Mem}
    (hm : ∀ x, (∀ p ∈ k.outstanding, ¬ InRange (p + pageOffset) 1 x) → m x = k.mem x) :
    CapacityInv ranges { k with mem := m } := by
  refine h.of_samePools (h.inv.of_mem fun x hx => hm x fun p hp hin => ?_) (SamePools.of_eq rfl)
  obtain ⟨f, rfl⟩ := (h.inv.out p hp).1
  have hheld : Held k f := by
    unfold Held
    rwa [Nat.mul_comm]
  unfold InRange at hin
  refine hx f (x - pageOffset - 4096 * f) (.inl hheld) (by omega) ?_
  rw [frameVa_eq (h.inv.held_lt hheld) (by omega)]
  omega

end CapacityInv

theorem capacityInv_of_run {ranges : List (ℕ × ℕ)} {k : Kern} (h : FrameRun ranges k) :
    CapacityInv ranges k := by
  induction h with
  | start m file =>
    exact ⟨⟨by simp, by simp, .nil, by simp⟩, fun x => by simp, .nil, by simp⟩
  | add _ hnew hrun ih =>
    obtain ⟨k', hok, hinv⟩ := ih.addMemory hnew
    cases hrun.symm.trans hok
    exact hinv
  | alloc _ hrun ih =>
    rcases petmemAllocPages_spec ih.inv with ⟨hnone, -⟩ | ⟨g, k', hsome, hal⟩
    · cases hrun.symm.trans hnone
      exact ih
    · cases hrun.symm.trans hsome
      exact ih.of_samePools hal.inv hal.pools
  | free _ hp hrun ih =>
    obtain ⟨k', hok, -, hinv⟩ := ih.free hp
    cases hrun.symm.trans hok
    exact hinv
  | client _ hm ih => exact ih.client hm

/-- The number of pages that were added. -/
def totalPages (ranges : List (ℕ × ℕ)) : ℕ := (ranges.map Prod.snd).sum

theorem length_pagesOf (ranges : List (ℕ × ℕ)) : (pagesOf ranges).length = totalPages ranges := by
  unfold pagesOf totalPages
  rw [List.length_flatMap]
  simp

/-- In every run no call stops, allocations are pages of the ranges that are not outstanding, a free
ends the page it is given and no other, and an allocation fails exactly when every page that was
added is outstanding. -/
theorem capacity_exact {ranges : List (ℕ × ℕ)} {k : Kern} (h : FrameRun ranges k) :
    ((∀ base n, NewRange ranges base n → ∃ k', addMemory base n k = .ok k') ∧
      (∃ res, petmemAllocPages 1 k = .ok res) ∧
      ∀ p ∈ k.outstanding, ∃ k', petmemFreePages p 1 k = .ok k' ∧
        k'.outstanding = k.outstanding.erase p) ∧
    (∀ p k', petmemAllocPages 1 k = .ok (p, k') → p ≠ 0 →
      p ∈ pagesOf ranges ∧ p ∉ k.outstanding ∧ k'.outstanding = p :: k.outstanding) ∧
    ((∃ k', petmemAllocPages 1 k = .ok (0, k')) ↔ ∀ x ∈ pagesOf ranges, x ∈ k.outstanding) ∧
    k.outstanding.Nodup ∧ k.outstanding.length ≤ totalPages ranges ∧
    ((∃ k', petmemAllocPages 1 k = .ok (0, k')) ↔
      k.outstanding.length = totalPages ranges) := by
  have hinv := capacityInv_of_run h
  have hmem : ∀ x ∈ k.outstanding, x ∈ pagesOf ranges := fun x hx => by
    obtain ⟨hdvd, hcov⟩ := hinv.inv.out x hx
    exact (hinv.mem_pagesOf_iff hdvd).2 hcov
  have hsub : k.outstanding.Subperm (pagesOf ranges) := hinv.inv.nodup.subperm hmem
  -- what an allocation that succeeds returns
  have hfresh : ∀ g k', petmemAllocPages 1 k = .ok (g * 4096, k') → Allocated k g k' →
      g * 4096 ∈ pagesOf ranges ∧ g * 4096 ∉ k.outstanding := by
    intro g k' _ hal
    have hout : g * 4096 ∈ k'.outstanding := by simp [hal.out]
    refine ⟨(hinv.mem_pagesOf_iff (Nat.dvd_mul_left _ _)).2 ?_, fun hx => hal.fresh (.inl hx)⟩
    exact hal.pools.covers_iff.1 (hal.inv.out _ hout).2
  have hfail : (∃ k', petmemAllocPages 1 k = .ok (0, k')) ↔
      ∀ x ∈ pagesOf ranges, x ∈ k.outstanding := by
    rcases petmemAllocPages_spec hinv.inv with ⟨hnone, hno⟩ | ⟨g, k', hsome, hal⟩
    · refine ⟨fun _ x hx => ?_, fun _ => ⟨k, hnone⟩⟩
      obtain ⟨hdvd, hr⟩ := hinv.mem_pagesOf.1 hx
      obtain ⟨mp, hmp, hc⟩ := (hinv.covers x).2 hr
      by_contra hx'
      exact hno (hinv.inv.hasFree_of_not_held hmp hdvd hc hx')
    · obtain ⟨h1, h2⟩ := hfresh g k' hsome hal
      refine ⟨fun ⟨k'', hzero⟩ => ?_, fun hall => absurd (hall _ h1) h2⟩
      have := (Prod.mk.inj (Except.ok.inj (hsome.symm.trans hzero))).1
      have := hal.pos
      omega
  refine ⟨⟨fun base n hnew => ?_, ?_, fun p hp => ?_⟩, fun p k' hrun hp => ?_, hfail,
    hinv.inv.nodup, ?_, hfail.trans ⟨fun hall => ?_, fun hlen x hx => ?_⟩⟩
  · obtain ⟨k', hrun, -⟩ := hinv.addMemory hnew
    exact ⟨k', hrun⟩
  · rcases petmemAllocPages_spec hinv.inv with ⟨hnone, -⟩ | ⟨g, k', hsome, -⟩
    · exact ⟨_, hnone⟩
    · exact ⟨_, hsome⟩
  · obtain ⟨k', hrun, hout, -⟩ := hinv.free hp
    exact ⟨k', hrun, hout⟩
  · rcases petmemAllocPages_spec hinv.inv with ⟨hnone, -⟩ | ⟨g, k'', hsome, hal⟩
    · exact absurd (Prod.mk.inj (Except.ok.inj (hrun.symm.trans hnone))).1 hp
    · obtain ⟨rfl, rfl⟩ := Prod.mk.inj (Except.ok.inj (hrun.symm.trans hsome))
      obtain ⟨h1, h2⟩ := hfresh g k' hsome hal
      exact ⟨h1, h2, hal.out⟩
  · rw [← length_pagesOf]
    exact hsub.length_le
  · rw [← length_pagesOf]
    exact le_antisymm hsub.length_le (hinv.nodup.subperm hall).length_le
  · rw [← length_pagesOf] at hlen
    exact (hsub.perm_of_length_le hlen.ge).mem_iff.2 hx

/-- Three pages at physical address `0x10000`: all of them are allocated, the next request fails,
one is freed, and the request after that is answered with it. -/
theorem capacity_exact_of_three_pages :
    NewRange [] 0x10000 3 ∧ ∃ k k' k'' p, FrameRun [(0x10000, 3)] k ∧ k.outstanding.length = 3 ∧
      (∃ k₀, petmemAllocPages 1 k = .ok (0, k₀)) ∧ p ∈ k.outstanding ∧
      petmemFreePages p 1 k = .ok k' ∧ petmemAllocPages 1 k' = .ok (p, k'') := by
  have hnew : NewRange [] 0x10000 3 := ⟨by decide, by decide, by decide, by decide, by simp⟩
  have hres : ((addMemory 0x10000 3 ⟨fun _ => 0, [], ⟨fun _ => 0, 0⟩, []⟩).toOption.bind fun k =>
      (petmemAllocPages 1 k).toOption.bind fun r₁ =>
      (petmemAllocPages 1 r₁.2).toOption.bind fun r₂ =>
      (petmemAllocPages 1 r₂.2).toOption.map fun r₃ => r₃.2.outstanding.length) = some 3 := by
    decide +kernel
  obtain ⟨k₀, hadd, hres⟩ := Option.bind_eq_some_iff.1 hres
  obtain ⟨⟨p₁, k₁⟩, h1, hres⟩ := Option.bind_eq_some_iff.1 hres
  obtain ⟨⟨p₂, k₂⟩, h2, hres⟩ := Option.bind_eq_some_iff.1 hres
  obtain ⟨⟨p₃, k⟩, h3, hlen⟩ := Option.map_eq_some_iff.1 hres
  have hlen : k.outstanding.length = 3 := hlen
  have hrun : FrameRun [(0x10000, 3)] k :=
    ((((FrameRun.start (fun _ => 0) ⟨fun _ => 0, 0⟩).add hnew (ok_of_toOption hadd)).alloc
      (ok_of_toOption h1)).alloc (ok_of_toOption h2)).alloc (ok_of_toOption h3)
  obtain ⟨⟨-, -, hfree⟩, -, hfull, hnodup, -, hcount⟩ := capacity_exact hrun
  -- any of the three is freed
  obtain ⟨p, hp⟩ := List.exists_mem_of_length_pos (show 0 < k.outstanding.length by omega)
  obtain ⟨k', hback, hout⟩ := hfree p hp
  have hrun' := hrun.free hp hback
  obtain ⟨⟨-, ⟨⟨q, k''⟩, hagain⟩, -⟩, hfresh, -, -, -, hcount'⟩ := capacity_exact hrun'
  have hlen' : k'.outstanding.length = 2 := by
    rw [hout, List.length_erase_of_mem hp]
    omega
  have hq : q ≠ 0 := by
    rintro rfl
    have := hcount'.1 ⟨k'', hagain⟩
    rw [hlen'] at this
    cases this
  obtain ⟨hmem, hnot, -⟩ := hfresh q k'' hagain hq
  -- the page that is not outstanding is the one that was freed
  obtain rfl : q = p := by
    by_contra hne
    refine hnot ?_
    rw [hout]
    exact (List.mem_erase_of_ne hne).2 (hfull.1 (hcount.2 hlen) q hmem)
  exact ⟨hnew, k, k', k'', q, hrun, hlen, hcount.2 hlen, hp, hback, hagain⟩

end Pools

end Petmem
