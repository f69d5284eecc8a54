import Petmem.PoolRuns
import Petmem.BuddyRoundTrip

/-!
# The pools of a range

`ADD_MEMORY` peels the highest bit off its page count, makes a pool of that many pages, and goes on
with the pages behind it. For every page count below 2^31, whatever the range starts with, the
pools lie one behind the other, their orders fall, and there is one for each bit of the count
(`addPools_pieces`).
-/

namespace Petmem
namespace Pools

open ByteMemory Dyadic Buddy

/-- The ranges of the pools lie one behind the other, from `a` to `b`. -/
def Consecutive : ℕ → List BuddyMempool → ℕ → Prop
  | a, [], b => a = b
  | a, mp :: rest, b => mp.baseAddr = a ∧ Consecutive (a + 2 ^ mp.poolOrder) rest b

/-- The pool is one free block. -/
def IsWhole (mp : BuddyMempool) : Prop :=
  ∀ j, mp.avail j = if j = mp.poolOrder then [mp.baseAddr] else []

/-! ## One pool -/

/-- `buddy_init` and the first `buddy_free`, at any address. -/
theorem wholePool_spec (m : Mem) {base order : ℕ} (hord : 12 ≤ order) (hbase : base ≠ 0)
    (hspace : base + 2 ^ order ≤ 2 ^ 64) :
    ∃ mp m' mp', buddyInit base order 12 = some mp ∧ buddyFree m mp base order = .ok (m', mp') ∧
      mp'.baseAddr = base ∧ mp'.poolOrder = order ∧ mp'.minOrder = 12 ∧ IsWhole mp' ∧
      RunInv ⟨m', mp', []⟩ ∧ ∀ x, ¬ (base ≤ x ∧ x < base + 2 ^ order) → m' x = m x := by
  obtain ⟨mp, hinit, hmin⟩ := buddyInit_page base hord
  obtain ⟨hgeom, rfl, rfl, htag, havail⟩ := geometry_of_init hinit hbase hspace
  obtain ⟨m', mp', hrun, hinv, hshape, hframe⟩ := start_spec m hinit hbase hspace
  refine ⟨mp, m', mp', hinit, hrun, hshape.base, hshape.pool, hshape.min.trans hmin, ?_, hinv,
    hframe⟩
  -- the merge loop has no order left to look at
  have heff : effOrder mp mp.poolOrder = mp.poolOrder := by
    rw [effOrder_eq_max]
    exact Nat.max_eq_left hgeom.min_le
  have hpos := Nat.two_pow_pos mp.poolOrder
  have hmerge : freeMerge (mp.poolOrder - effOrder mp mp.poolOrder) (mp.baseAddr + 0)
      (effOrder mp mp.poolOrder) m mp = .ok (mp.baseAddr + 0, mp.poolOrder, m, mp) := by
    rw [heff, Nat.sub_self]
    rfl
  have hfree := buddyFree_eq hgeom (le_refl _) hpos (htag 0) hmerge (.refl _) hpos
  rw [Nat.add_zero, hrun] at hfree
  obtain ⟨-, rfl⟩ := Prod.mk.inj (Except.ok.inj hfree)
  intro j
  by_cases hj : j = mp.poolOrder
  · subst hj
    simp [listAdd, setTag, havail]
  · simp [listAdd, setTag, havail, hj]

/-! ## The loop -/

/-- What the loop makes of `n` pages from `b`. -/
structure Pieces (b n : ℕ) (new : List BuddyMempool) (m : Mem) : Prop where
  consecutive : Consecutive b new (b + 4096 * n)
  falling : (new.map BuddyMempool.poolOrder).Pairwise (· > ·)
  bits : ∀ o, (∃ mp ∈ new, mp.poolOrder = o) ↔ ∃ i, o = i + 12 ∧ n.testBit i = true
  whole : ∀ mp ∈ new, mp.minOrder = 12 ∧ IsWhole mp ∧ RunInv ⟨m, mp, []⟩

/-- A pool without outstanding blocks does not care about memory outside it. -/
theorem runInv_of_mem {m m' : Mem} {mp : BuddyMempool} {out : List (ℕ × ℕ)}
    (h : RunInv ⟨m, mp, out⟩)
    (hm : ∀ x, mp.baseAddr ≤ x → x < mp.baseAddr + 2 ^ mp.poolOrder → m' x = m x) :
    RunInv ⟨m', mp, out⟩ := by
  refine ⟨h.inv.of_mem_eq fun j a ha => h.inv.readOrder_eq_of_busy (fun x hx => ?_) ha, h.mem_out⟩
  have hin : mp.baseAddr ≤ x ∧ x < mp.baseAddr + 2 ^ mp.poolOrder := by
    by_contra hout
    exact hx (.inl hout)
  exact hm x hin.1 hin.2

/-- The bits of a number without its highest one. -/
theorem testBit_peel {n r : ℕ} (hlow : 2 ^ r ≤ n) (hhigh : n < 2 ^ (r + 1)) (i : ℕ) :
    n.testBit i = true ↔ i = r ∨ (n - 2 ^ r).testBit i = true := by
  obtain ⟨t, rfl⟩ := Nat.exists_eq_add_of_le hlow
  have ht : t < 2 ^ r := by
    rw [pow_succ] at hhigh
    omega
  rw [Nat.add_sub_cancel_left]
  rcases Nat.lt_trichotomy i r with hlt | rfl | hgt
  · rw [Nat.testBit_two_pow_add_gt hlt]
    simp [hlt.ne]
  · rw [Nat.testBit_two_pow_add_eq, Nat.testBit_lt_two_pow ht]
    simp
  · have hle : 2 ^ (r + 1) ≤ 2 ^ i := Nat.pow_le_pow_right (by norm_num) hgt
    rw [Nat.testBit_lt_two_pow (by omega), Nat.testBit_lt_two_pow (x := t) (by
      have : 2 ^ r ≤ 2 ^ (r + 1) := Nat.pow_le_pow_right (by norm_num) (by omega)
      omega)]
    simp [hgt.ne']

/-- The loop makes one pool for each bit of the page count. -/
theorem addPools_pieces (rounds : ℕ) : ∀ (b n : ℕ) (m : Mem) (pools : List BuddyMempool),
    n < 2 ^ rounds → n < 2 ^ 31 → b ≠ 0 → b + 4096 * n < 2 ^ 64 →
    ∃ m' new, addPools rounds b n m pools = .ok (m', new.reverse ++ pools) ∧ Pieces b n new m' ∧
      ∀ x, ¬ (b ≤ x ∧ x < b + 4096 * n) → m' x = m x := by
  have hnone : ∀ (b : ℕ) (m : Mem), Pieces b 0 [] m := fun b m =>
    ⟨rfl, .nil, by simp, by simp⟩
  induction rounds with
  | zero =>
    intro b n m pools hn _ _ _
    obtain rfl : n = 0 := by omega
    exact ⟨m, [], rfl, hnone b m, fun _ _ => rfl⟩
  | succ rounds ih =>
    intro b n m pools hn hn31 hb hlim
    by_cases h0 : n = 0
    · subst h0
      exact ⟨m, [], rfl, hnone b m, fun _ _ => rfl⟩
    obtain ⟨r, hr, hlow, hhigh⟩ := fls_spec h0
    have hpow : 2 ^ (r + 12) = 4096 * 2 ^ r := by rw [pow_add]; ring
    have hsucc : 2 ^ (r + 1) = 2 ^ r * 2 := pow_succ 2 r
    -- the first pool takes the highest bit
    obtain ⟨mp, m₁, mp₁, hinit, hfree, hbase, hpool, hmin, hwhole, hinv, hframe⟩ :=
      wholePool_spec m (show 12 ≤ r + 12 by omega) hb (by omega)
    obtain ⟨m', new, hrun, hp, hframe'⟩ := ih (b + 4096 * 2 ^ r) (n - 2 ^ r) m₁ (mp₁ :: pools)
      (sub_two_pow_lt hlow hhigh hn) (by omega) (by omega) (by omega)
    have hstep := addPools_succ rounds pools hr hlow hn31 (by omega) hinit hfree
    refine ⟨m', mp₁ :: new, ?_, ⟨?_, ?_, fun o => ?_, fun mp₂ hmp₂ => ?_⟩, fun x hx => ?_⟩
    · rw [hstep, hrun, List.reverse_cons, List.append_assoc]
      rfl
    · refine ⟨hbase, ?_⟩
      rw [hpool, hpow, show b + 4096 * n = b + 4096 * 2 ^ r + 4096 * (n - 2 ^ r) by omega]
      exact hp.consecutive
    · refine List.pairwise_cons.2 ⟨fun o ho => ?_, hp.falling⟩
      -- the later bits are lower ones
      obtain ⟨mp₂, hmp₂, rfl⟩ := List.mem_map.1 ho
      obtain ⟨i, hi, hbit⟩ := (hp.bits _).1 ⟨mp₂, hmp₂, rfl⟩
      have hir : i < r := by
        by_contra hge
        have h1 : 2 ^ r ≤ 2 ^ i := Nat.pow_le_pow_right (by norm_num) (by omega)
        rw [Nat.testBit_lt_two_pow (by omega)] at hbit
        cases hbit
      rw [hpool, hi]
      omega
    · rw [List.exists_mem_cons_iff, hp.bits o, hpool]
      constructor
      · rintro (rfl | ⟨i, rfl, hi⟩)
        · exact ⟨r, rfl, (testBit_peel hlow hhigh r).2 (.inl rfl)⟩
        · exact ⟨i, rfl, (testBit_peel hlow hhigh i).2 (.inr hi)⟩
      · rintro ⟨i, rfl, hi⟩
        rcases (testBit_peel hlow hhigh i).1 hi with rfl | hi
        · exact .inl rfl
        · exact .inr ⟨i, rfl, hi⟩
    · rcases List.mem_cons.1 hmp₂ with rfl | hmp₂
      · refine ⟨hmin, hwhole, runInv_of_mem hinv fun x h1 h2 => hframe' x ?_⟩
        rw [hbase] at h1
        rw [hbase, hpool, hpow] at h2
        omega
      · exact hp.whole mp₂ hmp₂
    · rw [hframe' x (by omega)]
      exact hframe x (by rw [hpow]; omega)

/-- As many rounds as the page count has bits are enough: further ones find no page left. -/
theorem addPools_add_rounds (rounds : ℕ) : ∀ (extra b n : ℕ) (m : Mem) (pools : List BuddyMempool),
    n < 2 ^ rounds → n < 2 ^ 32 →
    addPools (rounds + extra) b n m pools = addPools rounds b n m pools := by
  -- with no page left a round does nothing
  have hdone : ∀ extra b (m : Mem) (pools : List BuddyMempool),
      addPools extra b 0 m pools = .ok (m, pools) := by
    intro extra b m pools
    cases extra with
    | zero => rfl
    | succ extra => rfl
  induction rounds with
  | zero =>
    intro extra b n m pools hn _
    obtain rfl : n = 0 := by omega
    rw [hdone, hdone]
  | succ rounds ih =>
    intro extra b n m pools hn hn32
    by_cases h0 : n = 0
    · subst h0
      rw [hdone, hdone]
    obtain ⟨r, hr, hlow, hhigh⟩ := fls_spec h0
    -- a round takes the highest bit away
    have hleft : (n + (2 ^ 32 - 2 ^ (fls n - 1))) % 2 ^ 32 < 2 ^ rounds := by
      rw [hr, Nat.add_sub_cancel]
      have := sub_two_pow_lt hlow hhigh hn
      omega
    rw [show rounds + 1 + extra = rounds + extra + 1 by omega, addPools, addPools]
    split
    · rfl
    · split
      · rfl
      · refine congrArg _ (funext fun res => ?_)
        exact ih extra _ _ _ _ hleft (Nat.mod_lt _ (by norm_num))

/-! ## The range -/

/-- Consecutive pools have no byte in common, and cover the bytes from the first to the last. -/
theorem Consecutive.tiles {a b : ℕ} {new : List BuddyMempool} (h : Consecutive a new b) :
    a ≤ b ∧ new.Pairwise Apart ∧ ∀ x, (∃ mp ∈ new, mp.baseAddr ≤ x ∧
      x < mp.baseAddr + 2 ^ mp.poolOrder) ↔ a ≤ x ∧ x < b := by
  induction new generalizing a with
  | nil =>
    obtain rfl : a = b := h
    refine ⟨le_refl _, .nil, fun x => ⟨by simp, fun hx => by omega⟩⟩
  | cons mp rest ih =>
    obtain ⟨rfl, hrest⟩ := h
    obtain ⟨hle, hapart, hcover⟩ := ih hrest
    have hpos := Nat.two_pow_pos mp.poolOrder
    refine ⟨by omega, List.pairwise_cons.2 ⟨fun mp₂ hmp₂ => .inl ?_, hapart⟩, fun x => ?_⟩
    · have hpos₂ := Nat.two_pow_pos mp₂.poolOrder
      exact ((hcover mp₂.baseAddr).1 ⟨mp₂, hmp₂, le_refl _, by omega⟩).1
    · rw [List.exists_mem_cons_iff, hcover x]
      omega

/-- **The pools of a range.** `ADD_MEMORY` ends, and adds one pool for each bit of its page count,
of falling orders, one behind the other; together they are the direct-map image of the range, and
each is one free block. -/
theorem add_memory_partitions {base pages : ℕ} (hbase : base < 2 ^ 46) (hpages : pages < 2 ^ 31)
    (k : Kern) :
    ∃ m' new, addMemory base pages k = .ok { k with mem := m', pools := new.reverse ++ k.pools } ∧
      (∀ rounds, 31 ≤ rounds →
        addPools rounds (va base) pages k.mem k.pools = .ok (m', new.reverse ++ k.pools)) ∧
      (new.map BuddyMempool.poolOrder).Pairwise (· > ·) ∧
      (∀ o, (∃ mp ∈ new, mp.poolOrder = o) ↔ ∃ i, o = i + 12 ∧ pages.testBit i = true) ∧
      Consecutive (va base) new (va base + 4096 * pages) ∧ new.Pairwise Apart ∧
      (∀ x, (∃ mp ∈ new, mp.baseAddr ≤ x ∧ x < mp.baseAddr + 2 ^ mp.poolOrder) ↔
        ∃ p, base ≤ p ∧ p < base + 4096 * pages ∧ x = va p) ∧
      ∀ mp ∈ new, IsWhole mp := by
  have hva : ∀ p, p < 2 ^ 46 + 2 ^ 43 → va p = p + pageOffset := fun p hp => by
    unfold va pageOffset
    omega
  have hvab := hva base (by omega)
  obtain ⟨m', new, hrun, hp, -⟩ := addPools_pieces 31 (va base) pages k.mem k.pools hpages hpages
    (by rw [hvab]; unfold pageOffset; omega) (by rw [hvab]; unfold pageOffset; omega)
  -- 31 rounds see every bit of the page count
  have hrounds : ∀ rounds, 31 ≤ rounds →
      addPools rounds (va base) pages k.mem k.pools = .ok (m', new.reverse ++ k.pools) := by
    intro rounds hr
    obtain ⟨extra, rfl⟩ := Nat.exists_eq_add_of_le hr
    rw [addPools_add_rounds 31 extra _ _ _ _ hpages (by omega), hrun]
  obtain ⟨-, hapart, hcover⟩ := hp.consecutive.tiles
  refine ⟨m', new, ?_, hrounds, hp.falling, hp.bits, hp.consecutive, hapart, fun x => ?_,
    fun mp hmp => (hp.whole mp hmp).2.1⟩
  · unfold addMemory
    rw [Nat.mod_eq_of_lt (by omega), hrounds 32 (by norm_num)]
    rfl
  · rw [hcover x]
    constructor
    · intro hx
      refine ⟨x - pageOffset, by omega, by omega, ?_⟩
      rw [hva _ (by omega)]
      omega
    · rintro ⟨p, h1, h2, rfl⟩
      rw [hva p (by omega)]
      omega

/-- Three pages from physical address 65536. -/
theorem add_memory_partitions_of_three_pages :
    ∃ m', ∃ new : List BuddyMempool, addMemory 65536 3 ⟨fun _ => 0, [], ⟨fun _ => 0, 0⟩, []⟩
        = .ok ⟨m', new.reverse ++ [], ⟨fun _ => 0, 0⟩, []⟩ ∧
      (new.map BuddyMempool.poolOrder).Pairwise (· > ·) ∧
      ∀ o, (∃ mp ∈ new, mp.poolOrder = o) ↔ ∃ i, o = i + 12 ∧ Nat.testBit 3 i = true := by
  obtain ⟨m', new, hrun, -, hfall, hbits, -⟩ := @add_memory_partitions 65536 3 (by norm_num)
    (by norm_num) ⟨fun _ => 0, [], ⟨fun _ => 0, 0⟩, []⟩
  exact ⟨m', new, hrun, hfall, hbits⟩

end Pools

end Petmem
