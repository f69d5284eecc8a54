import Petmem.AddMemory

/-!
# Requests for any number of pages

Here the frame allocator is run with requests for any number of pages, over pools of any order
that `ADD_MEMORY` makes. Beside the state, a run records the ranges that were added and the blocks
that are held, each with the pool whose `buddy_alloc` produced it; `PagesInv` says that every pool
is in a reachable state with its own blocks outstanding, and that the pools are apart.

A block goes back to its pool exactly when the pool's order is at most 30, since the range test of
`petmem_free_pages` computes the size of the pool as an `int`. A request trips `BUG_ON` exactly
when the loop comes to a pool that is smaller than the request.
-/

namespace Petmem
namespace Pools

open ByteMemory Dyadic Buddy

/-- The order that a request for `numPages` pages is made with. -/
def pageOrder (numPages : ℕ) : ℕ := getOrder (numPages * pageSize % 2 ^ 64) + pageShift

/-- A block that is held: its physical address, the pages it was requested for, and the base
address of the pool that produced it. -/
structure Holding where
  addr : ℕ
  numPages : ℕ
  pool : ℕ
deriving DecidableEq

/-- The state, the ranges that were added and the blocks that are held. -/
structure PagesState where
  kern : Kern
  ranges : List (ℕ × ℕ)
  held : List Holding

/-- `mp` is the pool whose `buddy_alloc` produces the block at `v`: the pools before it have
none. -/
def Produces (order : ℕ) (m : Mem) (pools : List BuddyMempool) (mp : BuddyMempool) (v : ℕ) : Prop :=
  v ≠ 0 ∧ ∃ pre post m' mp', pools = pre ++ mp :: post ∧
    (∀ mp₂ ∈ pre, buddyAlloc m mp₂ order = .ok (0, m, mp₂)) ∧
    buddyAlloc m mp order = .ok (v, m', mp')

/-- One request, or a client's stores into blocks that are held. `bound` limits the pages of a
range. -/
inductive PagesStep (bound : ℕ) (s : PagesState) : PagesState → Prop
  | add {base n : ℕ} {k' : Kern} : base < 2 ^ 46 → n < bound →
      (∀ r ∈ s.ranges, r.1 + 4096 * r.2 ≤ base ∨ base + 4096 * n ≤ r.1) →
      addMemory base n s.kern = .ok k' →
      PagesStep bound s ⟨k', (base, n) :: s.ranges, s.held⟩
  | alloc {n p : ℕ} {mp : BuddyMempool} {k' : Kern} : 1 ≤ n → n ≤ 2 ^ 32 →
      Produces (pageOrder n) s.kern.mem s.kern.pools mp (va p) →
      petmemAllocPages n s.kern = .ok (p, k') →
      PagesStep bound s ⟨k', s.ranges, ⟨p, n, mp.baseAddr⟩ :: s.held⟩
  | allocNone {n p : ℕ} {k' : Kern} : 1 ≤ n → n ≤ 2 ^ 32 →
      (∀ mp v, ¬ Produces (pageOrder n) s.kern.mem s.kern.pools mp v) →
      petmemAllocPages n s.kern = .ok (p, k') → PagesStep bound s { s with kern := k' }
  | free {h : Holding} {k' : Kern} : h ∈ s.held →
      petmemFreePages h.addr h.numPages s.kern = .ok k' →
      PagesStep bound s ⟨k', s.ranges,
        if s.kern.pools.any (inPool (va h.addr)) then s.held.erase h else s.held⟩
  | client {m : Mem} :
      (∀ x, (∀ h ∈ s.held, ¬ InBlock (va h.addr) (pageOrder h.numPages) x) →
        m x = s.kern.mem x) →
      PagesStep bound s { s with kern := { s.kern with mem := m } }

/-- No pool was added yet. -/
def noPages (m : Mem) (file : SwapFile) : PagesState := ⟨⟨m, [], file, []⟩, [], []⟩

/-! ## Orders -/

/-- A request's order is large enough for its pages. -/
theorem pageOrder_spec {n : ℕ} (h1 : 1 ≤ n) (h2 : n ≤ 2 ^ 32) :
    12 ≤ pageOrder n ∧ n * 4096 ≤ 2 ^ pageOrder n := by
  have hsize : n * pageSize % 2 ^ 64 = n * 4096 := by
    unfold pageSize
    omega
  have hsub : sub64 (n * 4096) 1 >>> pageShift = n - 1 := by
    rw [sub64_of_le (by omega) (by omega), Nat.shiftRight_eq_div_pow]
    unfold pageShift
    omega
  unfold pageOrder getOrder
  rw [hsize, hsub, show pageShift = 12 from rfl]
  refine ⟨by omega, ?_⟩
  rw [pow_add]
  refine Nat.mul_le_mul_right _ ?_
  -- `fls` of 0 is 0
  by_cases h0 : n - 1 = 0
  · rw [h0]
    show n ≤ 2 ^ 0
    omega
  · obtain ⟨r, hr, -, hhigh⟩ := fls_spec h0
    rw [hr]
    omega

/-- The range test of `petmem_free_pages`: for pools above order 30 it fails everywhere. -/
theorem inPool_wide_iff {mp : BuddyMempool} (hbase : pageOffset ≤ mp.baseAddr)
    (hlim : mp.baseAddr + 2 ^ mp.poolOrder ≤ pageOffset + 2 ^ 46 + 2 ^ 43) {v : ℕ} :
    inPool v mp = true ↔
      mp.poolOrder ≤ 30 ∧ mp.baseAddr ≤ v ∧ v < mp.baseAddr + 2 ^ mp.poolOrder := by
  have hpos := Nat.two_pow_pos mp.poolOrder
  unfold inPool
  rw [decide_eq_true_eq]
  unfold pageOffset at hbase hlim
  rcases Nat.lt_trichotomy mp.poolOrder 31 with hlt | heq | hgt
  -- below order 31 the size is a positive `int`
  · have hpow : 2 ^ mp.poolOrder < 2 ^ 31 := Nat.pow_lt_pow_right (by norm_num) hlt
    rw [sext32_of_lt hpow, Nat.mod_eq_of_lt (by omega)]
    omega
  -- at order 31 it is the smallest `int`, and the end lies below the base
  · have hsext : sext32 (2 ^ 31) = 2 ^ 64 - 2 ^ 31 := by
      unfold sext32
      norm_num
    rw [heq, hsext]
    rw [heq] at hlim
    omega
  -- above it is 0, and the range is empty
  · obtain ⟨d, hd⟩ : 2 ^ 32 ∣ 2 ^ mp.poolOrder := pow_dvd_pow 2 hgt
    have hsext : sext32 (2 ^ mp.poolOrder) = 0 := by
      rw [hd]
      unfold sext32
      rw [Nat.mul_mod_right]
      rfl
    rw [hsext]
    omega

theorem va_pa {v : ℕ} (h1 : pageOffset ≤ v) (h2 : v < 2 ^ 64) : va (pa v) = v := by
  unfold va pa sub64 pageOffset at *
  omega

theorem pa_eq_sub {v : ℕ} (h1 : pageOffset ≤ v) (h2 : v < 2 ^ 64) : pa v = v - pageOffset := by
  unfold pa sub64 pageOffset at *
  omega

/-! ## The loop over the pools -/

/-- The pool has no free block of the order or above. -/
def NoFree (order : ℕ) (mp : BuddyMempool) : Prop := ∀ i, order ≤ i → mp.avail i = []

/-- The loop of `petmem_alloc_pages` comes to a pool that is too small, finds nothing, or takes a
block of the first pool that has one. -/
inductive AllocFromCase (order : ℕ) (m : Mem) :
    List BuddyMempool → Except Stop (ℕ × Mem × List BuddyMempool) → Prop
  | small {pre post : List BuddyMempool} {mp : BuddyMempool} :
      (∀ mp₂ ∈ pre, order ≤ mp₂.poolOrder ∧ NoFree order mp₂) → mp.poolOrder < order →
      AllocFromCase order m (pre ++ mp :: post) (.error .bugOn)
  | none {pools : List BuddyMempool} :
      (∀ mp ∈ pools, order ≤ mp.poolOrder ∧ NoFree order mp) →
      AllocFromCase order m pools (.ok (0, m, pools))
  | taken {pre post : List BuddyMempool} {mp mp' : BuddyMempool} {v : ℕ} {m' : Mem} :
      (∀ mp₂ ∈ pre, order ≤ mp₂.poolOrder ∧ NoFree order mp₂) → order ≤ mp.poolOrder → v ≠ 0 →
      buddyAlloc m mp order = .ok (v, m', mp') →
      AllocFromCase order m (pre ++ mp :: post) (.ok (v, m', pre ++ mp' :: post))

/-- A call of `buddy_alloc` on a pool of pages. -/
theorem buddyAlloc_null_iff {m : Mem} {mp : BuddyMempool} {out : List (ℕ × ℕ)} {order : ℕ}
    (h : RunInv ⟨m, mp, out⟩) (hmin : mp.minOrder ≤ order) (hord : order ≤ mp.poolOrder) :
    (NoFree order mp ∧ buddyAlloc m mp order = .ok (0, m, mp)) ∨
      (¬ NoFree order mp ∧ ∃ v m' mp', v ≠ 0 ∧ buddyAlloc m mp order = .ok (v, m', mp')) := by
  have hinv : Inv m mp 0 (outBlocks mp out) := h.inv
  have heff : effOrder mp order = order := by
    rw [effOrder_eq_max]
    exact Nat.max_eq_left hmin
  obtain ⟨r, hr, hres⟩ := buddyAlloc_spec hinv hord
  rcases hres with ⟨rfl, hempty⟩ | ⟨o, hblock, -⟩
  · rw [heff] at hempty
    exact .inl ⟨hempty, hr⟩
  · obtain ⟨v, m', mp'⟩ := r
    have hpos := hinv.geom.base_pos
    have hv : v ≠ 0 := by
      simp only at hblock
      omega
    refine .inr ⟨fun hno => ?_, v, m', mp', hv, hr⟩
    obtain ⟨j, o', rest, -, htk⟩ := buddyAlloc_taken hinv hr hv
    have hlist := htk.list
    rw [heff] at htk
    rw [hno j htk.le] at hlist
    cases hlist

theorem allocFrom_of_pre {order v : ℕ} {pools pre post : List BuddyMempool}
    {mp mp' : BuddyMempool} {m m' : Mem} (hpools : pools = pre ++ mp :: post)
    (hpre : ∀ mp₂ ∈ pre, buddyAlloc m mp₂ order = .ok (0, m, mp₂))
    (hb : buddyAlloc m mp order = .ok (v, m', mp')) (hv : v ≠ 0) :
    allocFrom order pools m = .ok (v, m', pre ++ mp' :: post) := by
  induction pre generalizing pools with
  | nil =>
    rw [hpools, List.nil_append, allocFrom, hb]
    simp only [bind, Except.bind, pure, Except.pure, ne_eq, hv, not_false_eq_true, if_true,
      List.nil_append]
  | cons mp₂ pre ih =>
    rw [hpools, List.cons_append, allocFrom, hpre mp₂ (by simp)]
    have hrest := ih rfl fun mp₃ hm => hpre mp₃ (by simp [hm])
    simp only [bind, Except.bind, pure, Except.pure, ne_eq, not_true_eq_false, if_false, hrest,
      List.cons_append]

/-- `petmem_alloc_pages` after its loop. -/
theorem petmemAllocPages_eq {n v : ℕ} {k : Kern} {m' : Mem} {pools' : List BuddyMempool}
    (h : allocFrom (pageOrder n) k.pools k.mem = .ok (v, m', pools')) :
    petmemAllocPages n k = .ok (if v = 0 then (0, { k with mem := m', pools := pools' })
      else (pa v, { k with
        mem := m', pools := pools', outstanding := pa v :: k.outstanding })) := by
  unfold pageOrder at h
  unfold petmemAllocPages
  simp only [h, bind, Except.bind, pure, Except.pure]
  split <;> rfl

theorem allocFrom_cases {order : ℕ} {m : Mem} (pools : List BuddyMempool)
    (h : ∀ mp ∈ pools, mp.minOrder ≤ order ∧ ∃ out, RunInv ⟨m, mp, out⟩) :
    AllocFromCase order m pools (allocFrom order pools m) := by
  induction pools with
  | nil => exact .none (by simp)
  | cons mp rest ih =>
    obtain ⟨hmin, out, hinv⟩ := h mp (by simp)
    have ih := ih fun mp₂ hmp₂ => h mp₂ (by simp [hmp₂])
    by_cases hord : order ≤ mp.poolOrder
    · rcases buddyAlloc_null_iff hinv hmin hord with ⟨hno, hr⟩ | ⟨-, v, m', mp', hv, hr⟩
      · -- nothing here: the loop goes on with the other pools
        have hhead : ∀ {pre : List BuddyMempool},
            (∀ mp₂ ∈ pre, order ≤ mp₂.poolOrder ∧ NoFree order mp₂) →
            ∀ mp₂ ∈ mp :: pre, order ≤ mp₂.poolOrder ∧ NoFree order mp₂ := by
          intro pre hpre mp₂ hmp₂
          rcases List.mem_cons.1 hmp₂ with rfl | hmp₂
          · exact ⟨hord, hno⟩
          · exact hpre mp₂ hmp₂
        rw [allocFrom_skip rest hr]
        generalize allocFrom order rest m = res at ih
        cases ih with
        | @small pre _ _ hpre hlt => exact @AllocFromCase.small _ _ (mp :: pre) _ _ (hhead hpre) hlt
        | none hall => exact .none (hhead hall)
        | @taken pre _ _ _ _ _ hpre hle hv hb =>
          exact @AllocFromCase.taken _ _ (mp :: pre) _ _ _ _ _ (hhead hpre) hle hv hb
      · have hrun : allocFrom order (mp :: rest) m = .ok (v, m', mp' :: rest) := by
          rw [allocFrom, hr]
          simp only [bind, Except.bind, pure, Except.pure, ne_eq, hv, not_false_eq_true, if_true]
        rw [hrun]
        exact @AllocFromCase.taken _ _ [] _ _ _ _ _ (by simp) hord hv hr
    -- `buddy_alloc` asserts that the order is not above the pool's
    · have hrun : allocFrom order (mp :: rest) m = .error .bugOn := by
        rw [allocFrom, buddyAlloc, if_pos (by omega)]
        rfl
      rw [hrun]
      exact @AllocFromCase.small _ _ [] _ _ (by simp) (by omega)

/-! ## The invariant -/

/-- The blocks of the pool that are held, as `(address, order)` pairs. -/
def outOf (held : List Holding) (mp : BuddyMempool) : List (ℕ × ℕ) :=
  (held.filter fun h => h.pool = mp.baseAddr).map fun h => (va h.addr, pageOrder h.numPages)

/-- Every pool is in a reachable state with its own blocks outstanding, and has its own place in
one of the ranges. -/
structure PagesInv (s : PagesState) : Prop where
  min : ∀ mp ∈ s.kern.pools, mp.minOrder = 12
  inv : ∀ mp ∈ s.kern.pools, RunInv ⟨s.kern.mem, mp, outOf s.held mp⟩
  apart : s.kern.pools.Pairwise Apart
  inRange : ∀ mp ∈ s.kern.pools, ∃ r ∈ s.ranges, r.1 + pageOffset ≤ mp.baseAddr ∧
    mp.baseAddr + 2 ^ mp.poolOrder ≤ r.1 + 4096 * r.2 + pageOffset
  range : ∀ r ∈ s.ranges, r.1 < 2 ^ 46 ∧ r.2 < 2 ^ 31
  held : ∀ h ∈ s.held, ∃ mp ∈ s.kern.pools, mp.baseAddr = h.pool

theorem outOf_congr {mp mp' : BuddyMempool} (h : SameShape mp mp') (held : List Holding) :
    outOf held mp' = outOf held mp := by
  unfold outOf
  rw [h.base]

theorem mem_outOf {held : List Holding} {mp : BuddyMempool} {h : Holding} (hh : h ∈ held)
    (hpool : h.pool = mp.baseAddr) : (va h.addr, pageOrder h.numPages) ∈ outOf held mp :=
  List.mem_map.2 ⟨h, List.mem_filter.2 ⟨hh, by simpa using hpool⟩, rfl⟩

namespace PagesInv

variable {s : PagesState}

/-- Where a pool can lie. -/
theorem limits (h : PagesInv s) {mp : BuddyMempool} (hmp : mp ∈ s.kern.pools) :
    pageOffset ≤ mp.baseAddr ∧ mp.baseAddr + 2 ^ mp.poolOrder ≤ pageOffset + 2 ^ 46 + 2 ^ 43 := by
  obtain ⟨r, hr, hlow, hhigh⟩ := h.inRange mp hmp
  have := h.range r hr
  omega

instance : Std.Symm Apart := ⟨fun _ _ => Apart.symm⟩

/-- A call on one pool leaves the others as they are. -/
theorem replace {pre post : List BuddyMempool} {mp mp' : BuddyMempool} {m' : Mem}
    {held' : List Holding} {out' : List ℕ} (h : PagesInv s)
    (hpools : s.kern.pools = pre ++ mp :: post)
    (hshape : SameShape mp mp') (hinv : RunInv ⟨m', mp', outOf held' mp'⟩)
    (hmem : ∀ x, ¬ (mp.baseAddr ≤ x ∧ x < mp.baseAddr + 2 ^ mp.poolOrder) → m' x = s.kern.mem x)
    (hother : ∀ mp₂, Apart mp mp₂ → (outOf s.held mp₂).Perm (outOf held' mp₂))
    (hheld : ∀ h ∈ held', ∃ mp ∈ s.kern.pools, mp.baseAddr = h.pool) :
    PagesInv ⟨{ s.kern with mem := m', pools := pre ++ mp' :: post, outstanding := out' },
      s.ranges, held'⟩ := by
  have hmp : mp ∈ s.kern.pools := by simp [hpools]
  obtain ⟨hapart, hcases⟩ := apart_replace h.apart hpools hshape
  refine ⟨fun mp₂ hm => ?_, fun mp₂ hm => ?_, hapart, fun mp₂ hm => ?_, h.range, fun x hx => ?_⟩
  · rcases hcases mp₂ hm with rfl | ⟨hm, -⟩
    · rw [hshape.min]
      exact h.min mp hmp
    · exact h.min mp₂ hm
  · rcases hcases mp₂ hm with rfl | ⟨hm, hap⟩
    · exact hinv
    · refine runInv_of_mem ((h.inv mp₂ hm).perm (hother mp₂ hap)) fun x h1 h2 => hmem x ?_
      unfold Apart at hap
      omega
  · rcases hcases mp₂ hm with rfl | ⟨hm, -⟩
    · rw [hshape.base, hshape.pool]
      exact h.inRange mp hmp
    · exact h.inRange mp₂ hm
  · obtain ⟨mp₂, hm, hbase⟩ := hheld x hx
    rw [hpools] at hm
    rcases List.mem_append.1 hm with hm | hm
    · exact ⟨mp₂, List.mem_append_left _ hm, hbase⟩
    · rcases List.mem_cons.1 hm with rfl | hm
      · exact ⟨mp', by simp, hshape.base.trans hbase⟩
      · exact ⟨mp₂, by simp [hm], hbase⟩

/-- A block that is held lies in its pool. -/
theorem inside (h : PagesInv s) {x : Holding} (hx : x ∈ s.held) {mp : BuddyMempool}
    (hmp : mp ∈ s.kern.pools) (hpool : x.pool = mp.baseAddr) :
    12 ≤ pageOrder x.numPages ∧ mp.baseAddr ≤ va x.addr ∧
      va x.addr + 2 ^ pageOrder x.numPages ≤ mp.baseAddr + 2 ^ mp.poolOrder := by
  have hord : 12 ≤ pageOrder x.numPages := Nat.le_add_left pageShift _
  have hblock : (va x.addr, max (pageOrder x.numPages) mp.minOrder) ∈
      allBlocks ⟨s.kern.mem, mp, outOf s.held mp⟩ :=
    List.mem_append_left _ (List.mem_map.2 ⟨_, mem_outOf hx hpool, rfl⟩)
  have hin := (h.inv mp hmp).tiled.inside _ hblock
  simp only [h.min mp hmp, Nat.max_eq_left hord] at hin
  exact ⟨hord, hin⟩

/-! ### The requests -/

theorem of_produces {n p : ℕ} {mp : BuddyMempool} {k' : Kern} (h : PagesInv s)
    (hp : Produces (pageOrder n) s.kern.mem s.kern.pools mp (va p))
    (hrun : petmemAllocPages n s.kern = .ok (p, k')) :
    PagesInv ⟨k', s.ranges, ⟨p, n, mp.baseAddr⟩ :: s.held⟩ := by
  obtain ⟨hv, pre, post, m', mp', hpools, hpre, hb⟩ := hp
  have hmp : mp ∈ s.kern.pools := by simp [hpools]
  have hord : pageOrder n ≤ mp.poolOrder := by
    by_contra hlt
    rw [buddyAlloc, if_pos (by omega)] at hb
    cases hb
  obtain ⟨hinv, hshape⟩ := (h.inv mp hmp).step (.alloc hord hb)
  simp only [if_neg hv] at hinv hshape
  obtain ⟨r, hr, hres⟩ := buddyAlloc_spec (h.inv mp hmp).inv hord
  rw [hb] at hr
  obtain rfl := Except.ok.inj hr
  -- a call that returns a block writes inside its pool only
  have hframe : ∀ x, ¬ (mp.baseAddr ≤ x ∧ x < mp.baseAddr + 2 ^ mp.poolOrder) →
      m' x = s.kern.mem x := by
    intro x hx
    rcases hres with ⟨heq, -⟩ | ⟨-, -, -, -, hframe⟩
    · exact absurd (Prod.mk.inj heq).1 hv
    · exact hframe x (.inl hx)
  have hk : k' = { s.kern with
      mem := m', pools := pre ++ mp' :: post, outstanding := p :: s.kern.outstanding } := by
    rw [petmemAllocPages_eq (allocFrom_of_pre hpools hpre hb hv), if_neg hv] at hrun
    obtain ⟨hpa, hk⟩ := Prod.mk.inj (Except.ok.inj hrun)
    rw [← hk, hpa]
  rw [hk]
  refine h.replace hpools hshape ?_ hframe (fun mp₂ hap => ?_) fun x hx => ?_
  · rw [outOf_congr hshape]
    unfold outOf
    rw [List.filter_cons_of_pos (by simp), List.map_cons]
    exact hinv
  -- no other pool has the base address, so none sees the new block
  · have hne : ¬ mp.baseAddr = mp₂.baseAddr := by
      have hpos := Nat.two_pow_pos mp.poolOrder
      have hpos₂ := Nat.two_pow_pos mp₂.poolOrder
      unfold Apart at hap
      omega
    unfold outOf
    rw [List.filter_cons_of_neg (by simpa using hne)]
  · rcases List.mem_cons.1 hx with rfl | hx
    · exact ⟨mp, hmp, rfl⟩
    · exact h.held x hx

/-- The range test picks out the pool of a held block, if its order is not too large. -/
theorem inPool_iff_of_held (h : PagesInv s) {x : Holding} (hx : x ∈ s.held) {mp : BuddyMempool}
    (hmp : mp ∈ s.kern.pools) (hpool : x.pool = mp.baseAddr) {mp₂ : BuddyMempool}
    (hmp₂ : mp₂ ∈ s.kern.pools) :
    inPool (va x.addr) mp₂ = true ↔ mp₂ = mp ∧ mp.poolOrder ≤ 30 := by
  obtain ⟨-, hlow, hhigh⟩ := h.inside hx hmp hpool
  have hpos := Nat.two_pow_pos (pageOrder x.numPages)
  obtain ⟨hbase, hlim⟩ := h.limits hmp₂
  rw [inPool_wide_iff hbase hlim]
  constructor
  · rintro ⟨h30, h1, h2⟩
    -- two pools that are apart do not both have the block
    have heq : mp₂ = mp := by
      by_contra hne
      have hap := h.apart.forall hmp₂ hmp hne
      unfold Apart at hap
      omega
    exact ⟨heq, heq ▸ h30⟩
  · rintro ⟨rfl, h30⟩
    exact ⟨h30, hlow, by omega⟩

theorem outOf_erase {held : List Holding} {mp : BuddyMempool} {h : Holding} (hh : h ∈ held)
    (hpool : h.pool = mp.baseAddr) :
    ((outOf held mp).erase (va h.addr, pageOrder h.numPages)).Perm (outOf (held.erase h) mp) := by
  have hperm : (outOf held mp).Perm
      ((va h.addr, pageOrder h.numPages) :: outOf (held.erase h) mp) := by
    have hcons := (((List.perm_cons_erase hh).filter fun h => h.pool = mp.baseAddr)).map
      fun h => (va h.addr, pageOrder h.numPages)
    rw [List.filter_cons_of_pos (by simpa using hpool), List.map_cons] at hcons
    exact hcons
  have herase := hperm.erase (va h.addr, pageOrder h.numPages)
  rwa [List.erase_cons_head] at herase

theorem outOf_erase_of_ne {held : List Holding} {mp : BuddyMempool} {h : Holding} (hh : h ∈ held)
    (hpool : h.pool ≠ mp.baseAddr) : (outOf held mp).Perm (outOf (held.erase h) mp) := by
  have hcons := (((List.perm_cons_erase hh).filter fun h => h.pool = mp.baseAddr)).map
    fun h => (va h.addr, pageOrder h.numPages)
  rw [List.filter_cons_of_neg (by simpa using hpool)] at hcons
  exact hcons

/-- A held block that the range test finds goes back to its own pool. -/
theorem free_taken (h : PagesInv s) {x : Holding} (hx : x ∈ s.held) {mp : BuddyMempool}
    (hmp : mp ∈ s.kern.pools) (hpool : x.pool = mp.baseAddr) (h30 : mp.poolOrder ≤ 30) :
    ∃ pre post m' mp', s.kern.pools = pre ++ mp :: post ∧
      (∀ mp₂ ∈ pre, inPool (va x.addr) mp₂ = false) ∧ inPool (va x.addr) mp = true ∧
      buddyFree s.kern.mem mp (va x.addr) (pageOrder x.numPages) = .ok (m', mp') ∧
      petmemFreePages x.addr x.numPages s.kern = .ok { s.kern with
        mem := m', pools := pre ++ mp' :: post
        outstanding := s.kern.outstanding.erase x.addr } ∧
      PagesInv ⟨{ s.kern with
        mem := m', pools := pre ++ mp' :: post
        outstanding := s.kern.outstanding.erase x.addr }, s.ranges, s.held.erase x⟩ := by
  obtain ⟨pre, post, hpools⟩ := List.append_of_mem hmp
  have hout := mem_outOf hx hpool
  obtain ⟨m', mp', hfree, hinv, hshape⟩ := (h.inv mp hmp).free hout
  have hin : inPool (va x.addr) mp = true := (h.inPool_iff_of_held hx hmp hpool hmp).2 ⟨rfl, h30⟩
  -- the loop passes over the pools in front of the block's own
  have hpre : ∀ mp₂ ∈ pre, inPool (va x.addr) mp₂ = false := by
    intro mp₂ hmp₂
    rw [← Bool.not_eq_true]
    intro hin₂
    have heq := ((h.inPool_iff_of_held hx hmp hpool (by simp [hpools, hmp₂])).1 hin₂).1
    have hap := h.apart
    rw [hpools, List.pairwise_append] at hap
    have hself := hap.2.2 mp₂ hmp₂ mp (by simp)
    have hpos := Nat.two_pow_pos mp.poolOrder
    rw [heq] at hself
    unfold Apart at hself
    omega
  refine ⟨pre, post, m', mp', hpools, hpre, hin, hfree, ?_, ?_⟩
  · have hto := freeTo_of_covers hpools hpre hin hfree
    unfold pageOrder at hto
    unfold petmemFreePages
    simp only [hto, bind, Except.bind, pure, Except.pure, if_true]
  · refine h.replace hpools hshape ?_ (fun y hy => ?_) (fun mp₂ hap => ?_) fun y hy => ?_
    · rw [outOf_congr hshape]
      exact hinv.perm (outOf_erase hx hpool)
    · -- the call writes inside the pool only
      have hused := (h.inv mp hmp).inv
      rw [outBlocks_erase hout] at hused
      have hin₂ := (h.inv mp hmp).mem_out _ hout
      obtain ⟨m₂, mp₂, hfree₂, -, -, hframe⟩ :=
        @buddyFree_spec _ _ _ (va x.addr - mp.baseAddr) _ hused hin₂.2
      rw [Nat.add_sub_cancel' hin₂.1] at hfree₂
      obtain ⟨rfl, -⟩ := Prod.mk.inj (Except.ok.inj (hfree.symm.trans hfree₂))
      exact hframe y (.inl hy)
    · refine outOf_erase_of_ne hx fun heq => ?_
      have hpos := Nat.two_pow_pos mp.poolOrder
      have hpos₂ := Nat.two_pow_pos mp₂.poolOrder
      unfold Apart at hap
      omega
    · exact h.held y (List.mem_of_mem_erase hy)

/-- A held block that the range test does not find is left with its holder. -/
theorem free_lost (h : PagesInv s) {x : Holding} (hx : x ∈ s.held) {mp : BuddyMempool}
    (hmp : mp ∈ s.kern.pools) (hpool : x.pool = mp.baseAddr) (h30 : ¬ mp.poolOrder ≤ 30) :
    (∀ mp₂ ∈ s.kern.pools, inPool (va x.addr) mp₂ = false) ∧
      petmemFreePages x.addr x.numPages s.kern = .ok s.kern := by
  have hnone : ∀ mp₂ ∈ s.kern.pools, inPool (va x.addr) mp₂ = false := by
    intro mp₂ hmp₂
    rw [← Bool.not_eq_true, h.inPool_iff_of_held hx hmp hpool hmp₂]
    exact fun hand => h30 hand.2
  exact ⟨hnone, petmemFreePages_of_not_covers hnone⟩

/-- Clients write into the blocks they hold. -/
theorem client {m : Mem} (h : PagesInv s)
    (hm : ∀ x, (∀ b ∈ s.held, ¬ InBlock (va b.addr) (pageOrder b.numPages) x) →
      m x = s.kern.mem x) :
    PagesInv { s with kern := { s.kern with mem := m } } := by
  refine ⟨h.min, fun mp hmp => ?_, h.apart, h.inRange, h.range, h.held⟩
  have hrun := h.inv mp hmp
  refine ⟨hrun.inv.of_mem_eq fun j a ha => hrun.inv.readOrder_eq_of_busy (fun y hy => hm y ?_) ha,
    hrun.mem_out⟩
  intro b hb hin
  obtain ⟨⟨hlow, hhigh⟩, hfree⟩ := hrun.not_busy_iff.1 hy
  obtain ⟨mp₂, hmp₂, hbase⟩ := h.held b hb
  obtain ⟨hord, hlow₂, hhigh₂⟩ := h.inside hb hmp₂ hbase.symm
  by_cases heq : mp₂ = mp
  · subst heq
    refine hfree _ (mem_outOf hb hbase.symm) ?_
    rw [h.min _ hmp, Nat.max_eq_left hord]
    exact hin
  · -- the block lies in another pool
    have hap := h.apart.forall hmp₂ hmp heq
    unfold Apart at hap
    unfold InBlock at hin
    simp only at hlow hhigh
    omega

/-- `ADD_MEMORY` of a range that is apart from the others. -/
theorem add {base n : ℕ} {k' : Kern} (h : PagesInv s) (hbase : base < 2 ^ 46) (hn : n < 2 ^ 31)
    (hapart : ∀ r ∈ s.ranges, r.1 + 4096 * r.2 ≤ base ∨ base + 4096 * n ≤ r.1)
    (hrun : addMemory base n s.kern = .ok k') :
    PagesInv ⟨k', (base, n) :: s.ranges, s.held⟩ := by
  have hva : va base = base + pageOffset := by
    unfold va pageOffset
    omega
  obtain ⟨m', new, hadd, hp, hframe⟩ := addPools_pieces 32 (va base) n s.kern.mem s.kern.pools
    (by omega) hn (by rw [hva]; unfold pageOffset; omega) (by rw [hva]; unfold pageOffset; omega)
  have hk : k' = { s.kern with mem := m', pools := new.reverse ++ s.kern.pools } := by
    unfold addMemory at hrun
    rw [Nat.mod_eq_of_lt (by omega), hadd] at hrun
    exact (Except.ok.inj hrun).symm
  rw [hk]
  rw [hva] at hframe hp
  obtain ⟨-, hnew, hcover⟩ := hp.consecutive.tiles
  have hin : ∀ mp ∈ new, base + pageOffset ≤ mp.baseAddr ∧
      mp.baseAddr + 2 ^ mp.poolOrder ≤ base + 4096 * n + pageOffset := by
    intro mp hmp
    have hpos := Nat.two_pow_pos mp.poolOrder
    have h1 := (hcover mp.baseAddr).1 ⟨mp, hmp, le_refl _, by omega⟩
    have h2 := (hcover (mp.baseAddr + 2 ^ mp.poolOrder - 1)).1 ⟨mp, hmp, by omega, by omega⟩
    omega
  have hcross : ∀ mp ∈ new, ∀ mp₂ ∈ s.kern.pools, Apart mp mp₂ := by
    intro mp hmp mp₂ hmp₂
    obtain ⟨r, hr, h1, h2⟩ := h.inRange mp₂ hmp₂
    have := hin mp hmp
    have := hapart r hr
    unfold Apart
    omega
  have hcases : ∀ mp ∈ new.reverse ++ s.kern.pools, mp ∈ new ∨ mp ∈ s.kern.pools := by
    intro mp hmp
    rcases List.mem_append.1 hmp with hmp | hmp
    · exact .inl (List.mem_reverse.1 hmp)
    · exact .inr hmp
  refine ⟨fun mp hmp => ?_, fun mp hmp => ?_, ?_, fun mp hmp => ?_, ?_, fun x hx => ?_⟩
  · rcases hcases mp hmp with hmp | hmp
    · exact (hp.whole mp hmp).1
    · exact h.min mp hmp
  · rcases hcases mp hmp with hmp | hmp
    · -- nobody holds a block of a new pool
      have hnone : outOf s.held mp = [] := by
        unfold outOf
        rw [List.map_eq_nil_iff, List.filter_eq_nil_iff]
        intro x hx heq
        obtain ⟨mp₂, hmp₂, hbase₂⟩ := h.held x hx
        have hap := hcross mp hmp mp₂ hmp₂
        have hpos := Nat.two_pow_pos mp.poolOrder
        have hpos₂ := Nat.two_pow_pos mp₂.poolOrder
        rw [decide_eq_true_eq] at heq
        unfold Apart at hap
        omega
      show RunInv ⟨m', mp, outOf s.held mp⟩
      rw [hnone]
      exact (hp.whole mp hmp).2.2
    · refine runInv_of_mem (h.inv mp hmp) fun x h1 h2 => hframe x ?_
      obtain ⟨r, hr, h3, h4⟩ := h.inRange mp hmp
      have := hapart r hr
      omega
  · show (new.reverse ++ s.kern.pools).Pairwise Apart
    rw [List.pairwise_append, List.pairwise_reverse]
    refine ⟨hnew.imp Apart.symm, h.apart, fun mp hmp => hcross mp (List.mem_reverse.1 hmp)⟩
  · rcases hcases mp hmp with hmp | hmp
    · exact ⟨(base, n), by simp, hin mp hmp⟩
    · obtain ⟨r, hr, hin₂⟩ := h.inRange mp hmp
      exact ⟨r, by simp [hr], hin₂⟩
  · intro r hr
    rcases List.mem_cons.1 hr with rfl | hr
    · exact ⟨hbase, hn⟩
    · exact h.range r hr
  · obtain ⟨mp, hmp, hbase₂⟩ := h.held x hx
    exact ⟨mp, List.mem_append_right _ hmp, hbase₂⟩

theorem min_le (h : PagesInv s) {mp : BuddyMempool} (hmp : mp ∈ s.kern.pools) (n : ℕ) :
    mp.minOrder ≤ pageOrder n :=
  (h.min mp hmp).trans_le (Nat.le_add_left pageShift _)

/-- A pool without a free block of the order answers with nothing. -/
theorem null_of_noFree (h : PagesInv s) {mp : BuddyMempool} (hmp : mp ∈ s.kern.pools) {n : ℕ}
    (hord : pageOrder n ≤ mp.poolOrder) (hno : NoFree (pageOrder n) mp) :
    buddyAlloc s.kern.mem mp (pageOrder n) = .ok (0, s.kern.mem, mp) := by
  rcases buddyAlloc_null_iff (h.inv mp hmp) (h.min_le hmp n) hord with ⟨-, hr⟩ | ⟨hfree, -⟩
  · exact hr
  · exact absurd hno hfree

/-- The three outcomes of `petmem_alloc_pages`. -/
theorem alloc_cases (h : PagesInv s) (n : ℕ) :
    (∃ pre mp post, s.kern.pools = pre ++ mp :: post ∧ (∀ mp₂ ∈ pre, NoFree (pageOrder n) mp₂) ∧
        mp.poolOrder < pageOrder n ∧ petmemAllocPages n s.kern = .error .bugOn) ∨
      ((∀ mp ∈ s.kern.pools, pageOrder n ≤ mp.poolOrder ∧ NoFree (pageOrder n) mp) ∧
        petmemAllocPages n s.kern = .ok (0, s.kern)) ∨
      ∃ pre mp post v m' mp' k', s.kern.pools = pre ++ mp :: post ∧
        (∀ mp₂ ∈ pre, pageOrder n ≤ mp₂.poolOrder ∧ NoFree (pageOrder n) mp₂) ∧
        pageOrder n ≤ mp.poolOrder ∧ v ≠ 0 ∧
        buddyAlloc s.kern.mem mp (pageOrder n) = .ok (v, m', mp') ∧
        petmemAllocPages n s.kern = .ok (pa v, k') := by
  have hcase : AllocFromCase (pageOrder n) s.kern.mem s.kern.pools
      (allocFrom (pageOrder n) s.kern.pools s.kern.mem) :=
    allocFrom_cases s.kern.pools fun mp hmp => ⟨h.min_le hmp n, _, h.inv mp hmp⟩
  -- the cases are those of the loop; the call only wraps its result
  generalize hpools : s.kern.pools = pools at hcase
  generalize hres : allocFrom (pageOrder n) pools s.kern.mem = res at hcase
  rw [← hpools] at hres
  cases hcase with
  | @small pre post mp hpre hlt =>
    refine .inl ⟨pre, mp, post, rfl, fun mp₂ hmp₂ => (hpre mp₂ hmp₂).2, hlt, ?_⟩
    unfold pageOrder at hres
    unfold petmemAllocPages
    simp only [hres, bind, Except.bind]
  | none hall =>
    refine .inr (.inl ⟨hall, ?_⟩)
    rw [petmemAllocPages_eq hres, if_pos rfl, ← hpools]
  | @taken pre post mp mp' v m' hpre hord hv hb =>
    have hrun := petmemAllocPages_eq hres
    rw [if_neg hv] at hrun
    exact .inr (.inr ⟨pre, mp, post, v, m', mp', _, rfl, hpre, hord, hv, hb, hrun⟩)

/-- Where a block that `buddy_alloc` produces lies. -/
theorem block_limits (h : PagesInv s) {mp mp' : BuddyMempool} (hmp : mp ∈ s.kern.pools)
    {n v : ℕ} {m' : Mem} (hord : pageOrder n ≤ mp.poolOrder)
    (hb : buddyAlloc s.kern.mem mp (pageOrder n) = .ok (v, m', mp')) (hv : v ≠ 0) :
    mp.baseAddr ≤ v ∧ v + 2 ^ pageOrder n ≤ mp.baseAddr + 2 ^ mp.poolOrder ∧ va (pa v) = v := by
  obtain ⟨hlow, hhigh, -, -⟩ := (h.inv mp hmp).allocsAreFresh _ hord v m' mp' hb hv
  simp only [Nat.max_eq_left (h.min_le hmp n)] at hlow hhigh
  obtain ⟨hbase, hlim⟩ := h.limits hmp
  have hpos := Nat.two_pow_pos (pageOrder n)
  exact ⟨hlow, hhigh, va_pa (by omega) (by unfold pageOffset at hlim; omega)⟩

/-- Every step keeps the invariant. -/
theorem step {bound : ℕ} {t : PagesState} (h : PagesInv s) (hb : bound ≤ 2 ^ 31)
    (hst : PagesStep bound s t) : PagesInv t := by
  cases hst with
  | add hbase hn hapart hrun => exact h.add hbase (by omega) hapart hrun
  | alloc _ _ hp hrun => exact h.of_produces hp hrun
  | @allocNone n p k' _ _ hno hrun =>
    rcases h.alloc_cases n with ⟨-, -, -, -, -, -, hstop⟩ | ⟨-, hnull⟩ |
      ⟨pre, mp, post, v, m', mp', -, hpools, hpre, -, hv, hb, -⟩
    · rw [hstop] at hrun
      cases hrun
    · obtain ⟨-, rfl⟩ := Prod.mk.inj (Except.ok.inj (hrun.symm.trans hnull))
      exact h
    -- a block that is taken was produced by its pool
    · refine absurd ⟨hv, pre, post, m', mp', hpools, fun mp₂ hmp₂ => ?_, hb⟩ (hno mp v)
      exact h.null_of_noFree (by simp [hpools, hmp₂]) (hpre mp₂ hmp₂).1 (hpre mp₂ hmp₂).2
  | @free x k' hx hrun =>
    obtain ⟨mp, hmp, hpool⟩ := h.held x hx
    by_cases h30 : mp.poolOrder ≤ 30
    · obtain ⟨pre, post, m', mp', hpools, -, hin, -, hrun', hinv⟩ :=
        h.free_taken hx hmp hpool.symm h30
      obtain rfl := Except.ok.inj (hrun.symm.trans hrun')
      rw [if_pos (List.any_eq_true.2 ⟨mp, hmp, hin⟩)]
      exact hinv
    · obtain ⟨hnone, hrun'⟩ := h.free_lost hx hmp hpool.symm h30
      obtain rfl := Except.ok.inj (hrun.symm.trans hrun')
      rw [if_neg]
      · exact h
      · rw [List.any_eq_true]
        rintro ⟨mp₂, hmp₂, hin⟩
        rw [hnone mp₂ hmp₂] at hin
        cases hin
  | client hm => exact h.client hm

end PagesInv

/-- Whole runs keep the invariant. -/
theorem pagesInv_of_run {bound : ℕ} {m : Mem} {file : SwapFile} {s : PagesState}
    (hb : bound ≤ 2 ^ 31) (hrun : Relation.ReflTransGen (PagesStep bound) (noPages m file) s) :
    PagesInv s := by
  induction hrun with
  | refl => exact ⟨by simp [noPages], by simp [noPages], .nil, by simp [noPages],
      by simp [noPages], by simp [noPages]⟩
  | tail _ hst ih => exact ih.step hb hst

/-! ### First requests -/

/-- `ADD_MEMORY` on a machine without pools. -/
theorem first_range (m : Mem) (file : SwapFile) {bound base n : ℕ} (hb : bound ≤ 2 ^ 31)
    (hbase : base < 2 ^ 46) (hn : n < bound) :
    ∃ m' new, PagesStep bound (noPages m file) ⟨⟨m', new.reverse, file, []⟩, [(base, n)], []⟩ ∧
      Pieces (base + pageOffset) n new m' := by
  have hva : va base = base + pageOffset := by
    unfold va pageOffset
    omega
  obtain ⟨m', new, hadd, hp, -⟩ := addPools_pieces 32 (va base) n m []
    (by omega) (by omega) (by rw [hva]; unfold pageOffset; omega)
    (by rw [hva]; unfold pageOffset; omega)
  rw [hva] at hp
  refine ⟨m', new, .add hbase hn (by simp [noPages]) ?_, hp⟩
  unfold addMemory
  rw [Nat.mod_eq_of_lt (by omega)]
  simp only [noPages, hadd, bind, Except.bind, pure, Except.pure, List.append_nil]

/-- The pools of a range whose page count is a power of two have one order. -/
theorem Pieces.order_of_two_pow {b i : ℕ} {new : List BuddyMempool} {m : Mem}
    (h : Pieces b (2 ^ i) new m) :
    (∃ mp, mp ∈ new) ∧ ∀ mp ∈ new, mp.poolOrder = i + 12 := by
  constructor
  · obtain ⟨mp, hmp, -⟩ := (h.bits (i + 12)).2 ⟨i, rfl, Nat.testBit_two_pow_self⟩
    exact ⟨mp, hmp⟩
  · intro mp hmp
    obtain ⟨i₂, ho, hbit⟩ := (h.bits mp.poolOrder).1 ⟨mp, hmp, rfl⟩
    rw [Nat.testBit_two_pow, decide_eq_true_eq] at hbit
    rw [ho, hbit]

/-- A request that is answered from the pool `mp` is a step, and the block is held from then on. -/
theorem PagesInv.taken_step {s : PagesState} (h : PagesInv s) (bound : ℕ) {n v : ℕ} (h1 : 1 ≤ n)
    (h2 : n ≤ 2 ^ 32) {pre post : List BuddyMempool} {mp mp' : BuddyMempool} {m' : Mem}
    (hpools : s.kern.pools = pre ++ mp :: post)
    (hpre : ∀ mp₂ ∈ pre, pageOrder n ≤ mp₂.poolOrder ∧ NoFree (pageOrder n) mp₂)
    (hle : pageOrder n ≤ mp.poolOrder) (hv : v ≠ 0)
    (hb : buddyAlloc s.kern.mem mp (pageOrder n) = .ok (v, m', mp')) :
    ∃ k', petmemAllocPages n s.kern = .ok (pa v, k') ∧
      PagesStep bound s ⟨k', s.ranges, ⟨pa v, n, mp.baseAddr⟩ :: s.held⟩ ∧
      mp' ∈ k'.pools ∧ SameShape mp mp' := by
  have hmp : mp ∈ s.kern.pools := by simp [hpools]
  have hshape : SameShape mp mp' := ((h.inv mp hmp).step (.alloc hle hb)).2
  have hnull : ∀ mp₂ ∈ pre, buddyAlloc s.kern.mem mp₂ (pageOrder n) = .ok (0, s.kern.mem, mp₂) :=
    fun mp₂ hmp₂ => h.null_of_noFree (by simp [hpools, hmp₂]) (hpre mp₂ hmp₂).1 (hpre mp₂ hmp₂).2
  have hrun := petmemAllocPages_eq (allocFrom_of_pre hpools hnull hb hv)
  rw [if_neg hv] at hrun
  have hvp := (h.block_limits hmp hle hb hv).2.2
  have hprod : Produces (pageOrder n) s.kern.mem s.kern.pools mp (va (pa v)) := by
    rw [hvp]
    exact ⟨hv, pre, post, m', mp', hpools, hnull, hb⟩
  exact ⟨_, hrun, .alloc h1 h2 hprod hrun, by simp, hshape⟩

/-- A request that the pools can serve is a step. -/
theorem PagesInv.alloc_step {s : PagesState} (h : PagesInv s) {bound n : ℕ} (h1 : 1 ≤ n)
    (h2 : n ≤ 2 ^ 32) (hord : ∀ mp ∈ s.kern.pools, pageOrder n ≤ mp.poolOrder)
    {mp₀ : BuddyMempool} (hmp₀ : mp₀ ∈ s.kern.pools) (hfree : ¬ NoFree (pageOrder n) mp₀) :
    ∃ p k' mp', PagesStep bound s ⟨k', s.ranges, ⟨p, n, mp'.baseAddr⟩ :: s.held⟩ ∧
      mp' ∈ k'.pools ∧ ∃ mp ∈ s.kern.pools, mp'.poolOrder = mp.poolOrder := by
  rcases h.alloc_cases n with ⟨pre, mp, post, hpools, -, hlt, -⟩ | ⟨hall, -⟩ |
    ⟨pre, mp, post, v, m', mp', -, hpools, hpre, hle, hv, hb, -⟩
  · exact absurd (hord mp (by simp [hpools])) (by omega)
  · exact absurd (hall mp₀ hmp₀).2 hfree
  · obtain ⟨k', -, hst, hmp', hshape⟩ := h.taken_step bound h1 h2 hpools hpre hle hv hb
    rw [← hshape.base] at hst
    exact ⟨pa v, k', mp', hst, hmp', mp, by simp [hpools], hshape.pool⟩

/-- A request that is answered with a block is a step. -/
theorem PagesInv.step_of_alloc {s : PagesState} (h : PagesInv s) {bound n p : ℕ} (h1 : 1 ≤ n)
    (h2 : n ≤ 2 ^ 32) {k' : Kern} (hrun : petmemAllocPages n s.kern = .ok (p, k')) (hp : p ≠ 0) :
    ∃ base, PagesStep bound s ⟨k', s.ranges, ⟨p, n, base⟩ :: s.held⟩ := by
  rcases h.alloc_cases n with ⟨-, -, -, -, -, -, hstop⟩ | ⟨-, hnull⟩ |
    ⟨pre, mp, post, v, m', mp', -, hpools, hpre, hle, hv, hb, -⟩
  · rw [hstop] at hrun
    cases hrun
  · exact absurd (Prod.mk.inj (Except.ok.inj (hrun.symm.trans hnull))).1 hp
  · obtain ⟨k₂, hrun₂, hst, -⟩ := h.taken_step bound h1 h2 hpools hpre hle hv hb
    obtain ⟨rfl, rfl⟩ := Prod.mk.inj (Except.ok.inj (hrun.symm.trans hrun₂))
    exact ⟨mp.baseAddr, hst⟩

/-- Requests are made one after the other, and each is answered with a block. -/
def requests : List ℕ → Kern → Option Kern
  | [], k => some k
  | n :: ns, k => (petmemAllocPages n k).toOption.bind fun r =>
    if r.1 = 0 then none else requests ns r.2

/-- A sequence of requests is a run, and the blocks are held after it. -/
theorem run_of_requests {bound : ℕ} {m : Mem} {file : SwapFile} (hb : bound ≤ 2 ^ 31)
    {ns : List ℕ} (hns : ∀ n ∈ ns, 1 ≤ n ∧ n ≤ 2 ^ 32) {s : PagesState}
    (hrun : Relation.ReflTransGen (PagesStep bound) (noPages m file) s) {k : Kern}
    (h : requests ns s.kern = some k) :
    ∃ t, Relation.ReflTransGen (PagesStep bound) (noPages m file) t ∧ t.kern = k ∧
      t.ranges = s.ranges ∧
      t.held.map Holding.numPages = ns.reverse ++ s.held.map Holding.numPages := by
  induction ns generalizing s with
  | nil => exact ⟨s, hrun, Option.some.inj h, rfl, rfl⟩
  | cons n ns ih =>
    obtain ⟨⟨p, k'⟩, halloc, h⟩ := Option.bind_eq_some_iff.1 h
    have hp : p ≠ 0 := by
      rintro rfl
      cases h
    rw [if_neg hp] at h
    obtain ⟨h1, h2⟩ := hns n (by simp)
    obtain ⟨base, hst⟩ := (pagesInv_of_run hb hrun).step_of_alloc h1 h2 (ok_of_toOption halloc) hp
    obtain ⟨t, hrun', hk, hranges, hheld⟩ :=
      ih (fun n hn => hns n (by simp [hn])) (.tail hrun hst) h
    refine ⟨t, hrun', hk, hranges, ?_⟩
    rw [hheld, List.map_cons, List.reverse_cons, List.append_assoc, List.singleton_append]

/-- One page of a pool of order `i + 12` is held. -/
theorem exists_one_page {i : ℕ} (hi : i < 31) :
    ∃ s x mp, Relation.ReflTransGen (PagesStep (2 ^ 31)) (noPages (fun _ => 0) ⟨fun _ => 0, 0⟩) s ∧
      x ∈ s.held ∧ x.numPages = 1 ∧ mp ∈ s.kern.pools ∧ x.pool = mp.baseAddr ∧
      mp.poolOrder = i + 12 := by
  have hpow : 2 ^ i < 2 ^ 31 := Nat.pow_lt_pow_right (by norm_num) hi
  obtain ⟨m', new, hst, hp⟩ := first_range (fun _ => 0) ⟨fun _ => 0, 0⟩ (le_refl (2 ^ 31))
    (show 65536 < 2 ^ 46 by norm_num) hpow
  obtain ⟨⟨mp₀, hmp₀⟩, hord⟩ := hp.order_of_two_pow
  have hinv := pagesInv_of_run (le_refl _) (.single hst)
  have hone : pageOrder 1 = 12 := getOrder_one
  obtain ⟨p, k', mp', hst₂, hmp', mp, hmp, hpool⟩ := hinv.alloc_step (le_refl 1)
    (by norm_num) (fun mp hmp => by rw [hone, hord mp (List.mem_reverse.1 hmp)]; omega)
    (List.mem_reverse.2 hmp₀) (fun hno => by
      have hlist := hno (i + 12) (by rw [hone]; omega)
      rw [(hp.whole mp₀ hmp₀).2.1, if_pos (hord mp₀ hmp₀).symm] at hlist
      cases hlist)
  exact ⟨_, ⟨p, 1, mp'.baseAddr⟩, mp', .tail (.single hst) hst₂, by simp, rfl, hmp', rfl,
    by rw [hpool, hord mp (List.mem_reverse.1 hmp)]⟩

/-! ## Pages go back to their pool -/

/-- `petmem_free_pages` of the address calls `buddy_free` on this pool. -/
def FreesInto (k : Kern) (pageAddr numPages : ℕ) (mp : BuddyMempool) : Prop :=
  ∃ pre post m' mp', k.pools = pre ++ mp :: post ∧
    (∀ mp₂ ∈ pre, inPool (va pageAddr) mp₂ = false) ∧ inPool (va pageAddr) mp = true ∧
    buddyFree k.mem mp (va pageAddr) (pageOrder numPages) = .ok (m', mp') ∧
    petmemFreePages pageAddr numPages k = .ok { k with
      mem := m', pools := pre ++ mp' :: post, outstanding := k.outstanding.erase pageAddr }

/-- **Pages go back to the pool they came from** if and only if that pool is of order 30 at most:
for a larger one `0x1 << pool_order` is negative or zero as an `int`, and the free is lost. -/
theorem page_goes_back_iff {m : Mem} {file : SwapFile} {s : PagesState}
    (hrun : Relation.ReflTransGen (PagesStep (2 ^ 31)) (noPages m file) s) {x : Holding}
    (hx : x ∈ s.held) (hone : x.numPages = 1) {mp : BuddyMempool} (hmp : mp ∈ s.kern.pools)
    (hpool : x.pool = mp.baseAddr) :
    FreesInto s.kern x.addr 1 mp ↔ mp.poolOrder ≤ 30 := by
  have h := pagesInv_of_run (le_refl _) hrun
  rw [← hone]
  constructor
  · rintro ⟨-, -, -, -, -, -, hin, -, -⟩
    exact ((h.inPool_iff_of_held hx hmp hpool hmp).1 hin).2
  · intro h30
    obtain ⟨pre, post, m', mp', hpools, hpre, hin, hfree, hrun', -⟩ :=
      h.free_taken hx hmp hpool h30
    exact ⟨pre, post, m', mp', hpools, hpre, hin, hfree, hrun'⟩

/-- Three pages make a pool of one page and a pool of two; when all three are held, each goes back
to its pool. -/
theorem page_goes_back_iff_of_three_pages :
    ∃ s, Relation.ReflTransGen (PagesStep (2 ^ 31)) (noPages (fun _ => 0) ⟨fun _ => 0, 0⟩) s ∧
      s.kern.pools.map BuddyMempool.poolOrder = [12, 13] ∧
      s.held.map Holding.numPages = [1, 1, 1] ∧
      ∀ x ∈ s.held, ∃ mp ∈ s.kern.pools, x.pool = mp.baseAddr ∧ FreesInto s.kern x.addr 1 mp := by
  have hres : ((addMemory 0x10000 3 (noPages (fun _ => 0) ⟨fun _ => 0, 0⟩).kern).toOption.bind
      fun k₀ => (requests [1, 1, 1] k₀).map fun k => k.pools.map BuddyMempool.poolOrder)
      = some [12, 13] := by
    decide +kernel
  obtain ⟨k₀, hadd, hres⟩ := Option.bind_eq_some_iff.1 hres
  obtain ⟨k, hreq, hord⟩ := Option.map_eq_some_iff.1 hres
  obtain ⟨s, hrun, rfl, -, hheld⟩ := run_of_requests (le_refl _) (by decide)
    (.single (.add (by norm_num) (by norm_num) (by simp [noPages]) (ok_of_toOption hadd))) hreq
  refine ⟨s, hrun, hord, hheld, fun x hx => ?_⟩
  obtain ⟨mp, hmp, hpool⟩ := (pagesInv_of_run (le_refl _) hrun).held x hx
  have hone : x.numPages = 1 := by
    have hmem := List.mem_map_of_mem (f := Holding.numPages) hx
    rw [hheld] at hmem
    simpa [noPages] using hmem
  have h30 : mp.poolOrder ≤ 30 := by
    have hmem := List.mem_map_of_mem (f := BuddyMempool.poolOrder) hmp
    rw [hord] at hmem
    simp only [List.mem_cons, List.not_mem_nil, or_false] at hmem
    omega
  exact ⟨mp, hmp, hpool.symm, (page_goes_back_iff hrun hx hone hmp hpool.symm).2 h30⟩

/-- A page of a pool of 2^19 pages does not: the free does nothing. -/
theorem page_is_lost :
    ∃ s x mp, Relation.ReflTransGen (PagesStep (2 ^ 31)) (noPages (fun _ => 0) ⟨fun _ => 0, 0⟩) s ∧
      x ∈ s.held ∧ x.numPages = 1 ∧ mp ∈ s.kern.pools ∧ x.pool = mp.baseAddr ∧
      petmemFreePages x.addr 1 s.kern = .ok s.kern ∧ ¬ FreesInto s.kern x.addr 1 mp := by
  obtain ⟨s, x, mp, hrun, hx, hone, hmp, hpool, hord⟩ := exists_one_page (i := 19) (by norm_num)
  obtain ⟨hnone, hfree⟩ := (pagesInv_of_run (le_refl _) hrun).free_lost hx hmp hpool (by omega)
  rw [hone] at hfree
  refine ⟨s, x, mp, hrun, hx, hone, hmp, hpool, hfree, ?_⟩
  rintro ⟨-, -, -, -, -, -, hin, -, -⟩
  rw [hnone mp hmp] at hin
  cases hin

/-! ## Requests that are served -/

/-- What is expected of a request: it returns, with 0 only if no pool has a free block that is
large enough, and otherwise with a block of a pool that nobody holds. -/
def Serves (s : PagesState) (numPages : ℕ) : Prop :=
  ∃ p k', petmemAllocPages numPages s.kern = .ok (p, k') ∧
    (p = 0 ↔ ∀ mp ∈ s.kern.pools, NoFree (pageOrder numPages) mp) ∧
    (p ≠ 0 → numPages * 4096 ≤ 2 ^ pageOrder numPages ∧ (∃ mp ∈ s.kern.pools,
        mp.baseAddr ≤ va p ∧ va p + 2 ^ pageOrder numPages ≤ mp.baseAddr + 2 ^ mp.poolOrder) ∧
      ∀ x ∈ s.held, va p + 2 ^ pageOrder numPages ≤ va x.addr ∨
        va x.addr + 2 ^ pageOrder x.numPages ≤ va p)

/-- Every pool that the loop comes to is large enough for the request, and its first free block is
not the one at physical address 0. -/
def LargeEnough (order : ℕ) (pools : List BuddyMempool) : Prop :=
  ∀ pre mp post, pools = pre ++ mp :: post → (∀ mp₂ ∈ pre, NoFree order mp₂) →
    order ≤ mp.poolOrder ∧ ∀ i rest, order ≤ i → (∀ j, order ≤ j → j < i → mp.avail j = []) →
      mp.avail i ≠ pageOffset :: rest

/-- Two places in one list are the same, or one of them comes first. -/
theorem mem_or_eq_of_append_eq {α : Type} {pre post pre₂ post₂ : List α} {a a₂ : α}
    (h : pre ++ a :: post = pre₂ ++ a₂ :: post₂) : a ∈ pre₂ ∨ a = a₂ ∨ a₂ ∈ pre := by
  induction pre generalizing pre₂ with
  | nil =>
    cases pre₂ with
    | nil => exact .inr (.inl (List.cons.inj h).1)
    | cons b pre₂ =>
      obtain ⟨rfl, -⟩ := List.cons.inj h
      exact .inl List.mem_cons_self
  | cons b pre ih =>
    cases pre₂ with
    | nil =>
      obtain ⟨rfl, -⟩ := List.cons.inj h
      exact .inr (.inr List.mem_cons_self)
    | cons c pre₂ =>
      rcases ih (List.cons.inj h).2 with hm | heq | hm
      · exact .inl (List.mem_cons_of_mem _ hm)
      · exact .inr (.inl heq)
      · exact .inr (.inr (List.mem_cons_of_mem _ hm))

/-- The block that `buddy_alloc` returns is the first one of the lowest list that has any. -/
theorem head_of_buddyAlloc {m m' : Mem} {mp mp' : BuddyMempool} {out : List (ℕ × ℕ)} {order v : ℕ}
    (h : RunInv ⟨m, mp, out⟩) (hmin : mp.minOrder ≤ order)
    (hb : buddyAlloc m mp order = .ok (v, m', mp')) (hv : v ≠ 0) :
    ∃ j rest, order ≤ j ∧ (∀ i, order ≤ i → i < j → mp.avail i = []) ∧ mp.avail j = v :: rest := by
  -- the order is used as it is given
  have heff : effOrder mp order = order := by
    rw [effOrder_eq_max]
    exact Nat.max_eq_left hmin
  obtain ⟨j, o, rest, hvo, htk⟩ := buddyAlloc_taken h.inv hb hv
  rw [heff] at htk
  exact ⟨j, rest, htk.le, htk.below, by rw [htk.list, hvo]⟩

/-- The block is disjoint from those that are held, in its own pool and in others. -/
theorem PagesInv.fresh {s : PagesState} (h : PagesInv s) {mp mp' : BuddyMempool}
    (hmp : mp ∈ s.kern.pools) {n v : ℕ} {m' : Mem} (hord : pageOrder n ≤ mp.poolOrder)
    (hb : buddyAlloc s.kern.mem mp (pageOrder n) = .ok (v, m', mp')) (hv : v ≠ 0) {x : Holding}
    (hx : x ∈ s.held) :
    v + 2 ^ pageOrder n ≤ va x.addr ∨ va x.addr + 2 ^ pageOrder x.numPages ≤ v := by
  obtain ⟨mp₂, hmp₂, hbase⟩ := h.held x hx
  obtain ⟨hlow, hhigh, -⟩ := h.block_limits hmp hord hb hv
  obtain ⟨hord₂, hlow₂, hhigh₂⟩ := h.inside hx hmp₂ hbase.symm
  -- in its own pool the tiling keeps it apart, elsewhere the pools do
  by_cases heq : mp₂ = mp
  · subst heq
    obtain ⟨-, -, -, hdisj⟩ := (h.inv mp₂ hmp).allocsAreFresh _ hord v m' mp' hb hv
    have hout := hdisj _ (mem_outOf hx hbase.symm)
    simp only [h.min mp₂ hmp, Nat.max_eq_left hord₂,
      Nat.max_eq_left (show 12 ≤ pageOrder n from Nat.le_add_left pageShift _)] at hout
    exact hout
  · have hap := h.apart.forall hmp₂ hmp heq
    unfold Apart at hap
    omega

/-- **Multi-page requests are served** if and only if the loop comes to no pool that is smaller
than the request (and to no block at physical address 0 first). -/
theorem request_served_iff {m : Mem} {file : SwapFile} {s : PagesState}
    (hrun : Relation.ReflTransGen (PagesStep (2 ^ 19)) (noPages m file) s) {numPages : ℕ}
    (h1 : 1 ≤ numPages) (h2 : numPages ≤ 2 ^ 32) :
    Serves s numPages ↔ LargeEnough (pageOrder numPages) s.kern.pools := by
  have h := pagesInv_of_run (by norm_num) hrun
  have hpa : ∀ {mp : BuddyMempool} {v : ℕ}, mp ∈ s.kern.pools → mp.baseAddr ≤ v →
      v + 2 ^ pageOrder numPages ≤ mp.baseAddr + 2 ^ mp.poolOrder →
      (pa v = 0 ↔ v = pageOffset) := by
    intro mp v hmp hlow hhigh
    obtain ⟨hbase, hlim⟩ := h.limits hmp
    have hpos := Nat.two_pow_pos (pageOrder numPages)
    rw [pa_eq_sub (by omega) (by unfold pageOffset at hlim; omega)]
    omega
  rcases h.alloc_cases numPages with ⟨pre, mp, post, hpools, hpre, hlt, hstop⟩ | ⟨hall, hnull⟩ |
    ⟨pre, mp, post, v, m', mp', k', hpools, hpre, hord, hv, hb, hok⟩
  · -- the assertion of `buddy_alloc` fails
    constructor
    · rintro ⟨p, k', hok, -⟩
      rw [hstop] at hok
      cases hok
    · intro hle
      exact absurd (hle pre mp post hpools hpre).1 (by omega)
  · refine ⟨fun _ pre mp post hpools _ => ?_, fun _ => ?_⟩
    · obtain ⟨hord, hno⟩ := hall mp (by simp [hpools])
      refine ⟨hord, fun i rest hi _ hlist => ?_⟩
      rw [hno i hi] at hlist
      cases hlist
    · refine ⟨0, s.kern, hnull, ⟨fun _ mp hmp => (hall mp hmp).2, fun _ => rfl⟩, fun h0 => ?_⟩
      exact absurd rfl h0
  · have hmp : mp ∈ s.kern.pools := by simp [hpools]
    obtain ⟨hlow, hhigh, hvp⟩ := h.block_limits hmp hord hb hv
    obtain ⟨j, rest, hj, hbelow, hlist⟩ := head_of_buddyAlloc (h.inv mp hmp) (h.min_le hmp _) hb hv
    have hfree : ¬ NoFree (pageOrder numPages) mp := by
      intro hno
      rw [hno j hj] at hlist
      cases hlist
    constructor
    · rintro ⟨p, k₂, hok₂, hzero, -⟩ pre₂ mp₂ post₂ hpools₂ hpre₂
      obtain ⟨rfl, -⟩ := Prod.mk.inj (Except.ok.inj (hok.symm.trans hok₂))
      -- the pool `mp₂` comes before the one that is taken, or is that one
      rw [hpools] at hpools₂
      rcases mem_or_eq_of_append_eq hpools₂ with hm | rfl | hm
      · exact absurd (hpre₂ mp hm) hfree
      · refine ⟨hord, fun i rest₂ hi hlower hhead => ?_⟩
        have hij : i = j := by
          rcases Nat.lt_trichotomy i j with hlt | heq | hgt
          · rw [hbelow i hi hlt] at hhead
            cases hhead
          · exact heq
          · rw [hlower j hj hgt] at hlist
            cases hlist
        rw [hij, hlist] at hhead
        have hv0 := (hpa hmp hlow hhigh).2 (List.cons.inj hhead).1
        exact hfree (hzero.1 hv0 mp hmp)
      · obtain ⟨hord₂, hno₂⟩ := hpre mp₂ hm
        refine ⟨hord₂, fun i rest₂ hi _ hhead => ?_⟩
        rw [hno₂ i hi] at hhead
        cases hhead
    · intro hle
      have hne : pa v ≠ 0 := by
        rw [ne_eq, hpa hmp hlow hhigh]
        rintro rfl
        exact (hle pre mp post hpools fun mp₂ hmp₂ => (hpre mp₂ hmp₂).2).2 j rest hj hbelow hlist
      refine ⟨pa v, k', hok, ⟨fun h0 => absurd h0 hne, fun hno => absurd (hno mp hmp) hfree⟩,
        fun _ => ?_⟩
      rw [hvp]
      exact ⟨(pageOrder_spec h1 h2).2, ⟨mp, hmp, hlow, hhigh⟩,
        fun x hx => h.fresh hmp hord hb hv hx⟩

/-- Of a pool of two pages and one of four, the first is held as a whole and the second in part: a
request for two pages is served from the second. -/
theorem request_served_iff_of_two_ranges :
    ∃ s, Relation.ReflTransGen (PagesStep (2 ^ 19)) (noPages (fun _ => 0) ⟨fun _ => 0, 0⟩) s ∧
      s.kern.pools.map (fun mp => (mp.poolOrder, mp.avail 12 ++ mp.avail 13))
        = [(13, []), (14, [va 0x11000, va 0x12000])] ∧
      s.held.map Holding.numPages = [1, 2] ∧ Serves s 2 := by
  have hres : ((addMemory 0x10000 4 (noPages (fun _ => 0) ⟨fun _ => 0, 0⟩).kern).toOption.bind
      fun k₀ => (addMemory 0x20000 2 k₀).toOption.bind fun k₁ =>
      (requests [2, 1] k₁).map fun k =>
        k.pools.map fun mp => (mp.poolOrder, mp.avail 12 ++ mp.avail 13))
      = some [(13, []), (14, [va 0x11000, va 0x12000])] := by
    decide +kernel
  obtain ⟨k₀, hadd₀, hres⟩ := Option.bind_eq_some_iff.1 hres
  obtain ⟨k₁, hadd₁, hres⟩ := Option.bind_eq_some_iff.1 hres
  obtain ⟨k, hreq, hlists⟩ := Option.map_eq_some_iff.1 hres
  have hadded : Relation.ReflTransGen (PagesStep (2 ^ 19)) (noPages (fun _ => 0) ⟨fun _ => 0, 0⟩)
      ⟨k₁, [(0x20000, 2), (0x10000, 4)], []⟩ :=
    .tail (.single (.add (by norm_num) (by norm_num) (by simp [noPages]) (ok_of_toOption hadd₀)))
      (.add (by norm_num) (by norm_num) (by simp [noPages]) (ok_of_toOption hadd₁))
  obtain ⟨s, hrun, rfl, hranges, hheld⟩ := run_of_requests (by norm_num) (by decide) hadded hreq
  have h := pagesInv_of_run (by norm_num) hrun
  refine ⟨s, hrun, hlists, hheld, (request_served_iff hrun (by norm_num) (by norm_num)).2 ?_⟩
  intro pre mp post hpools _
  have hmp : mp ∈ s.kern.pools := by simp [hpools]
  constructor
  · have hmem := List.mem_map_of_mem
      (f := fun mp : BuddyMempool => (mp.poolOrder, mp.avail 12 ++ mp.avail 13)) hmp
    rw [hlists] at hmem
    simp only [List.mem_cons, List.not_mem_nil, or_false, Prod.mk.injEq] at hmem
    rw [show pageOrder 2 = 13 by decide]
    omega
  · -- the ranges begin above the block at physical address 0
    intro i rest _ _ hlist
    have hle : mp.baseAddr ≤ pageOffset :=
      ((h.inv mp hmp).inv.listed i pageOffset (by simp [hlist])).2.2.1
    obtain ⟨r, hr, hlow, -⟩ := h.inRange mp hmp
    rw [hranges] at hr
    simp only [List.mem_cons, List.not_mem_nil, or_false] at hr
    rcases hr with rfl | rfl
    · simp only at hlow
      omega
    · simp only at hlow
      omega

/-- Three pages make a pool of one page and a pool of two, and the loop comes to the pool of one
page first: a request for two pages trips `BUG_ON`. -/
theorem two_pages_refused :
    ∃ s, Relation.ReflTransGen (PagesStep (2 ^ 19)) (noPages (fun _ => 0) ⟨fun _ => 0, 0⟩) s ∧
      petmemAllocPages 2 s.kern = .error .bugOn ∧ ¬ Serves s 2 := by
  obtain ⟨m', new, hst, hp⟩ := first_range (fun _ => 0) ⟨fun _ => 0, 0⟩
    (show 2 ^ 19 ≤ 2 ^ 31 by norm_num) (show 65536 < 2 ^ 46 by norm_num)
    (show 3 < 2 ^ 19 by norm_num)
  have hinv := pagesInv_of_run (by norm_num) (.single hst)
  have htwo : pageOrder 2 = 13 := by decide
  obtain ⟨mp₀, hmp₀, hord₀⟩ := (hp.bits 12).2 ⟨0, rfl, by decide⟩
  have hstop : petmemAllocPages 2 ⟨m', new.reverse, ⟨fun _ => 0, 0⟩, []⟩ = .error .bugOn := by
    rcases hinv.alloc_cases 2 with ⟨-, -, -, -, -, -, hstop⟩ | ⟨hall, -⟩ |
      ⟨pre, mp, post, -, -, -, -, hpools, hpre, hle, -⟩
    · exact hstop
    · have := (hall mp₀ (List.mem_reverse.2 hmp₀)).1
      omega
    · -- the pool of one page is not behind the one that is taken
      have hrise : new.reverse.Pairwise fun a b => a.poolOrder < b.poolOrder := by
        rw [List.pairwise_reverse]
        exact List.pairwise_map.1 hp.falling
      have hpools : new.reverse = pre ++ mp :: post := hpools
      have hmem : mp₀ ∈ new.reverse := List.mem_reverse.2 hmp₀
      rw [hpools] at hrise hmem
      rw [List.pairwise_append, List.pairwise_cons] at hrise
      rcases List.mem_append.1 hmem with hm | hm
      · have := (hpre mp₀ hm).1
        omega
      · rcases List.mem_cons.1 hm with rfl | hm
        · omega
        · have := hrise.2.1.1 mp₀ hm
          omega
  refine ⟨_, .single hst, hstop, ?_⟩
  rintro ⟨p, k', hok, -⟩
  have hok : petmemAllocPages 2 ⟨m', new.reverse, ⟨fun _ => 0, 0⟩, []⟩ = .ok (p, k') := hok
  rw [hstop] at hok
  cases hok

end Pools

end Petmem
