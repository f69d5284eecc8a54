import Petmem.BuddyRuns
import Petmem.PageTable
import Petmem.Pools

/-!
# The frames of the pools

`PoolsInv k` says that the pools of `k` are disjoint pieces of the direct map above
physical page 0, that each satisfies the buddy invariant with its share of the outstanding
frames as the used blocks, and that every outstanding frame lies in a pool.

A frame is *kept* when it is outstanding or lies in no pool: the allocator never touches
its bytes, and whatever happens to them never disturbs the allocator
(`PoolsInv.of_mem`). `petmem_alloc_pages` and `petmem_free_pages` are specified on that
footing.
-/

namespace Petmem
namespace Pools

open ByteMemory Dyadic Buddy

/-- The physical address `x` lies in the pool. -/
def Covers (mp : BuddyMempool) (x : ℕ) : Prop :=
  mp.baseAddr ≤ x + pageOffset ∧ x + pageOffset < mp.baseAddr + 2 ^ mp.poolOrder

instance (mp : BuddyMempool) (x : ℕ) : Decidable (Covers mp x) :=
  inferInstanceAs (Decidable (_ ∧ _))

/-- The block of the page at physical address `x`. -/
def pageBlock (mp : BuddyMempool) (x : ℕ) : Block := ⟨x + pageOffset - mp.baseAddr, 12⟩

/-- The pool's share of the outstanding frames. -/
def usedBlocks (mp : BuddyMempool) (out : List ℕ) : Multiset Block :=
  ((out.filter fun x => Covers mp x).map (pageBlock mp) : List Block)

/-- What `ADD_MEMORY` makes sure of for a pool of whole pages. -/
structure PoolOk (mp : BuddyMempool) : Prop where
  min : mp.minOrder = 12
  order : mp.poolOrder ≤ 30
  base : pageOffset < mp.baseAddr
  aligned : 4096 ∣ mp.baseAddr
  limit : mp.baseAddr + 2 ^ mp.poolOrder ≤ pageOffset + physLimit

/-- Two pools have no byte in common. -/
def Apart (mp mp' : BuddyMempool) : Prop :=
  mp.baseAddr + 2 ^ mp.poolOrder ≤ mp'.baseAddr ∨ mp'.baseAddr + 2 ^ mp'.poolOrder ≤ mp.baseAddr

/-- The invariant of the frame allocator. -/
structure PoolsInv (k : Kern) : Prop where
  ok : ∀ mp ∈ k.pools, PoolOk mp
  inv : ∀ mp ∈ k.pools, Inv k.mem mp 0 (usedBlocks mp k.outstanding)
  apart : k.pools.Pairwise Apart
  out : ∀ x ∈ k.outstanding, 4096 ∣ x ∧ ∃ mp ∈ k.pools, Covers mp x

/-- Frame `f` is outstanding. -/
def Held (k : Kern) (f : ℕ) : Prop := f * 4096 ∈ k.outstanding

/-- Frame `f` is memory of the direct map that belongs to no pool. -/
def Foreign (k : Kern) (f : ℕ) : Prop :=
  f < frameLimit ∧ ∀ mp ∈ k.pools, ¬ Covers mp (f * 4096)

/-- The allocator leaves frame `f` alone. -/
def Kept (k : Kern) (f : ℕ) : Prop := Held k f ∨ Foreign k f

/-- Some pool has a free page. -/
def HasFree (k : Kern) : Prop := ∃ mp ∈ k.pools, ∃ i, 12 ≤ i ∧ mp.avail i ≠ []

/-- The pools have the same dimensions, one by one. -/
def SamePools (k k' : Kern) : Prop := List.Forall₂ SameShape k.pools k'.pools

theorem Held.congr {k k' : Kern} {f : ℕ} (hf : Held k f) (h : k'.outstanding = k.outstanding) :
    Held k' f := by
  unfold Held at *
  rwa [h]

theorem Foreign.congr {k k' : Kern} {f : ℕ} (hf : Foreign k f) (h : k'.pools = k.pools) :
    Foreign k' f := by
  unfold Foreign at *
  rwa [h]

theorem Kept.congr {k k' : Kern} {f : ℕ} (hf : Kept k f) (ho : k'.outstanding = k.outstanding)
    (hp : k'.pools = k.pools) : Kept k' f :=
  hf.imp (fun h => h.congr ho) fun h => h.congr hp

theorem HasFree.congr {k k' : Kern} (hf : HasFree k) (h : k'.pools = k.pools) : HasFree k' := by
  unfold HasFree at *
  rwa [h]

theorem held_with_mem {k : Kern} {m : Mem} {f : ℕ} : Held { k with mem := m } f ↔ Held k f :=
  Iff.rfl

theorem foreign_with_mem {k : Kern} {m : Mem} {f : ℕ} :
    Foreign { k with mem := m } f ↔ Foreign k f :=
  Iff.rfl

/-! ## Pages and pools -/

theorem pageOffset_dvd : 4096 ∣ pageOffset := by decide

namespace PoolOk

variable {mp : BuddyMempool}

/-- Pools consist of whole pages. -/
theorem covers_page (h : PoolOk mp) (hmin : 12 ≤ mp.poolOrder) {x i : ℕ} (hx : 4096 ∣ x)
    (hi : i < 4096) : (mp.baseAddr ≤ x + i + pageOffset ∧
      x + i + pageOffset < mp.baseAddr + 2 ^ mp.poolOrder) ↔ Covers mp x := by
  obtain ⟨b, hb⟩ := h.aligned
  obtain ⟨q, rfl⟩ := hx
  obtain ⟨c, hc⟩ : (2 : ℕ) ^ 12 ∣ 2 ^ mp.poolOrder := pow_dvd_pow 2 hmin
  unfold Covers
  rw [hb, hc]
  unfold pageOffset
  omega

theorem inPool_iff (h : PoolOk mp) {x : ℕ} (hx : x < physLimit) :
    inPool (va x) mp = true ↔ Covers mp x := by
  have h1 := h.order
  have h2 := h.limit
  have hpow : 2 ^ mp.poolOrder < 2 ^ 31 := Nat.pow_lt_pow_right (by norm_num) (by omega)
  unfold physLimit pageOffset at h2
  unfold inPool Covers
  rw [va_of_lt hx, sext32_of_lt hpow, Nat.mod_eq_of_lt (by omega), decide_eq_true_eq]

end PoolOk

theorem covers_congr {mp mp' : BuddyMempool} (h : SameShape mp mp') {x : ℕ} :
    Covers mp' x ↔ Covers mp x := by
  unfold Covers
  rw [h.base, h.pool]

theorem usedBlocks_congr {mp mp' : BuddyMempool} (h : SameShape mp mp') (out : List ℕ) :
    usedBlocks mp' out = usedBlocks mp out := by
  unfold usedBlocks pageBlock
  simp only [covers_congr h, h.base]

theorem usedBlocks_cons_of_covers {mp : BuddyMempool} {x : ℕ} (h : Covers mp x)
    (out : List ℕ) : usedBlocks mp (x :: out) = pageBlock mp x ::ₘ usedBlocks mp out := by
  unfold usedBlocks
  rw [List.filter_cons_of_pos (by simpa using h), List.map_cons]
  rfl

theorem usedBlocks_cons_of_not {mp : BuddyMempool} {x : ℕ} (h : ¬ Covers mp x)
    (out : List ℕ) : usedBlocks mp (x :: out) = usedBlocks mp out := by
  unfold usedBlocks
  rw [List.filter_cons_of_neg (by simpa using h)]

theorem usedBlocks_perm {mp : BuddyMempool} {out out' : List ℕ} (h : out.Perm out') :
    usedBlocks mp out = usedBlocks mp out' :=
  Multiset.coe_eq_coe.2 ((h.filter _).map _)

theorem mem_usedBlocks {mp : BuddyMempool} {out : List ℕ} {x : ℕ} (hx : x ∈ out)
    (h : Covers mp x) : pageBlock mp x ∈ usedBlocks mp out :=
  Multiset.mem_coe.2 (List.mem_map_of_mem (List.mem_filter.2 ⟨hx, by simpa using h⟩))

theorem Apart.not_covers {mp mp' : BuddyMempool} (h : Apart mp mp') {x : ℕ} (hx : Covers mp x) :
    ¬ Covers mp' x := by
  unfold Apart Covers at *
  omega

theorem Apart.symm {mp mp' : BuddyMempool} (h : Apart mp mp') : Apart mp' mp := Or.symm h

namespace PoolsInv

variable {k : Kern}

theorem order_ge (h : PoolsInv k) {mp : BuddyMempool} (hmp : mp ∈ k.pools) :
    12 ≤ mp.poolOrder := by
  have h1 := (h.inv mp hmp).geom.min_le
  rwa [(h.ok mp hmp).min] at h1

theorem lt_limit (h : PoolsInv k) {x : ℕ} {mp : BuddyMempool} (hmp : mp ∈ k.pools)
    (hx : Covers mp x) : x < physLimit := by
  have := (h.ok mp hmp).limit
  unfold Covers at hx
  omega

theorem held_lt (h : PoolsInv k) {f : ℕ} (hf : Held k f) : f < frameLimit := by
  obtain ⟨-, mp, hmp, hc⟩ := h.out _ hf
  have := h.lt_limit hmp hc
  unfold physLimit at this
  unfold frameLimit
  omega

theorem kept_lt (h : PoolsInv k) {f : ℕ} (hf : Kept k f) : f < frameLimit :=
  hf.elim h.held_lt fun h' => h'.1

theorem held_pos (h : PoolsInv k) {f : ℕ} (hf : Held k f) : f ≠ 0 := by
  rintro rfl
  obtain ⟨-, mp, hmp, hc⟩ := h.out _ hf
  have := (h.ok mp hmp).base
  unfold Covers at hc
  omega

theorem not_foreign_of_held (h : PoolsInv k) {f : ℕ} (hf : Held k f) : ¬ Foreign k f := by
  rintro ⟨-, hno⟩
  obtain ⟨-, mp, hmp, hc⟩ := h.out _ hf
  exact hno mp hmp hc

/-- The bytes of a kept frame are busy for every pool. -/
theorem busy_of_kept (h : PoolsInv k) {f i : ℕ} (hf : Kept k f) (hi : i < 4096)
    {mp : BuddyMempool} (hmp : mp ∈ k.pools) :
    Busy mp (usedBlocks mp k.outstanding) (frameVa f i) := by
  rw [frameVa_eq (h.kept_lt hf) hi]
  have hpage := (h.ok mp hmp).covers_page (h.order_ge hmp) (Nat.dvd_mul_left 4096 f) hi
  by_cases hc : Covers mp (f * 4096)
  · -- the frame lies in this pool, so it is outstanding
    have hheld : Held k f := hf.resolve_right fun hfor => hfor.2 mp hmp hc
    refine .inr ⟨pageBlock mp (f * 4096), mem_usedBlocks hheld hc, ?_, ?_⟩
    · exact (hpage.2 hc).1
    · unfold Covers at hc
      unfold Block.Covers pageBlock
      simp only
      omega
  · exact .inl fun hin => hc (hpage.1 hin)

/-- Whatever happens to kept frames, the allocator's own words stay. -/
theorem of_mem (h : PoolsInv k) {m' : Mem}
    (hm : ∀ x, (∀ f i, Kept k f → i < 4096 → x ≠ frameVa f i) → m' x = k.mem x) :
    PoolsInv { k with mem := m' } where
  ok := h.ok
  inv mp hmp := by
    refine (h.inv mp hmp).of_mem_eq fun j a ha => ?_
    refine (h.inv mp hmp).readOrder_eq_of_busy (fun x hx => hm x fun f i hf hi hxf => ?_) ha
    rw [hxf] at hx
    exact hx (h.busy_of_kept hf hi hmp)
  apart := h.apart
  out := h.out

end PoolsInv

namespace SamePools

variable {k k' k'' : Kern}

theorem refl (k : Kern) : SamePools k k := List.forall₂_same.2 fun _ _ => SameShape.refl _

theorem of_eq (h : k'.pools = k.pools) : SamePools k k' := by
  unfold SamePools
  rw [h]
  exact refl k

theorem congr {l l' : Kern} (h : SamePools k k') (h1 : l.pools = k.pools)
    (h2 : l'.pools = k'.pools) : SamePools l l' := by
  unfold SamePools at *
  rwa [h1, h2]

theorem trans (h : SamePools k k') (h' : SamePools k' k'') : SamePools k k'' := by
  unfold SamePools at *
  generalize k.pools = l at h
  generalize k'.pools = l' at h h'
  generalize k''.pools = l'' at h'
  induction h generalizing l'' with
  | nil =>
    cases h'
    exact .nil
  | cons hab _ ih =>
    cases h' with
    | cons hbc htail => exact .cons (hab.trans hbc) (ih _ htail)

theorem foreign_iff (h : SamePools k k') {f : ℕ} : Foreign k' f ↔ Foreign k f := by
  unfold Foreign
  have : (∀ mp ∈ k'.pools, ¬ Covers mp (f * 4096)) ↔ ∀ mp ∈ k.pools, ¬ Covers mp (f * 4096) := by
    unfold SamePools at h
    generalize k.pools = l at h
    generalize k'.pools = l' at h
    induction h with
    | nil => simp
    | cons hab _ ih => simp only [List.forall_mem_cons, ih, covers_congr hab]
  rw [this]

end SamePools

/-! ## Changing one pool -/

theorem forall₂_replace {mp mp' : BuddyMempool} (h : SameShape mp mp')
    (pre post : List BuddyMempool) :
    List.Forall₂ SameShape (pre ++ mp :: post) (pre ++ mp' :: post) :=
  List.rel_append (List.forall₂_same.2 fun _ _ => SameShape.refl _)
    (.cons h (List.forall₂_same.2 fun _ _ => SameShape.refl _))

/-- A pool that was changed keeps its place; the others are as they were, and apart from it. -/
theorem apart_replace {pools pre post : List BuddyMempool} {mp mp' : BuddyMempool}
    (hapart : pools.Pairwise Apart) (hpools : pools = pre ++ mp :: post)
    (hshape : SameShape mp mp') :
    (pre ++ mp' :: post).Pairwise Apart ∧
      ∀ mp₂ ∈ pre ++ mp' :: post, mp₂ = mp' ∨ (mp₂ ∈ pools ∧ Apart mp mp₂) := by
  subst hpools
  rw [List.pairwise_append, List.pairwise_cons] at hapart
  obtain ⟨hpre, ⟨hmpost, hpost⟩, hcross⟩ := hapart
  have hapart' : ∀ mp₂, Apart mp mp₂ → Apart mp' mp₂ := by
    unfold Apart
    rw [hshape.base, hshape.pool]
    exact fun _ hx => hx
  constructor
  · rw [List.pairwise_append, List.pairwise_cons]
    refine ⟨hpre, ⟨fun mp₂ hm => hapart' mp₂ (hmpost mp₂ hm), hpost⟩, fun a ha b hb => ?_⟩
    rcases List.mem_cons.1 hb with rfl | hb
    · exact (hapart' a (hcross a ha mp (by simp)).symm).symm
    · exact hcross a ha b (by simp [hb])
  · intro mp₂ hm
    rcases List.mem_append.1 hm with hm | hm
    · exact .inr ⟨by simp [hm], (hcross mp₂ hm mp (by simp)).symm⟩
    · rcases List.mem_cons.1 hm with hm | hm
      · exact .inl hm
      · exact .inr ⟨by simp [hm], hmpost mp₂ hm⟩

/-- A call on one pool keeps the invariant of all of them: the others see neither their
memory nor their share of the outstanding frames change. -/
theorem PoolsInv.replace {k : Kern} {pre post : List BuddyMempool} {mp mp' : BuddyMempool}
    {m' : Mem} {out' : List ℕ} (h : PoolsInv k) (hpools : k.pools = pre ++ mp :: post)
    (hshape : SameShape mp mp') (hinv : Inv m' mp' 0 (usedBlocks mp out'))
    (hmem : ∀ x, ¬ (mp.baseAddr ≤ x ∧ x < mp.baseAddr + 2 ^ mp.poolOrder) → m' x = k.mem x)
    (hused : ∀ mp₂, Apart mp mp₂ → usedBlocks mp₂ out' = usedBlocks mp₂ k.outstanding)
    (hout : ∀ x ∈ out', 4096 ∣ x ∧ ∃ mp₂ ∈ k.pools, Covers mp₂ x) :
    PoolsInv { k with mem := m', pools := pre ++ mp' :: post, outstanding := out' } := by
  have hmp : mp ∈ k.pools := by simp [hpools]
  obtain ⟨hapart, hcases⟩ := apart_replace h.apart hpools hshape
  refine ⟨fun mp₂ hm => ?_, fun mp₂ hm => ?_, hapart, fun x hx => ?_⟩
  · rcases hcases mp₂ hm with rfl | ⟨hm, -⟩
    · obtain ⟨h1, h2, h3, h4, h5⟩ := h.ok mp hmp
      constructor <;> simp only [hshape.base, hshape.pool, hshape.min] <;> assumption
    · exact h.ok mp₂ hm
  · rcases hcases mp₂ hm with rfl | ⟨hm, hap⟩
    · rw [usedBlocks_congr hshape]
      exact hinv
    · rw [hused mp₂ hap]
      -- the list words of another pool are not in the memory that changed
      have hinv₂ := h.inv mp₂ hm
      refine hinv₂.of_mem_eq fun j a ha => hinv₂.readOrder_eq_of_busy (fun x hx => ?_) ha
      refine hmem x fun hin => hx (.inl fun hin₂ => ?_)
      unfold Apart at hap
      omega
  · obtain ⟨hdvd, mp₂, hm, hc⟩ := hout x hx
    refine ⟨hdvd, ?_⟩
    rw [hpools] at hm
    rcases List.mem_append.1 hm with hm | hm
    · exact ⟨mp₂, List.mem_append_left _ hm, hc⟩
    · rcases List.mem_cons.1 hm with rfl | hm
      · exact ⟨mp', by simp, (covers_congr hshape).2 hc⟩
      · exact ⟨mp₂, by simp [hm], hc⟩

/-! ## `petmem_alloc_pages` -/

/-- One page has order 12. -/
theorem getOrder_one : getOrder (1 * pageSize % 2 ^ 64) + pageShift = 12 := by decide

/-- The loop goes on with the other pools where the first one has no block. -/
theorem allocFrom_skip {order : ℕ} {m m' : Mem} {mp mp' : BuddyMempool}
    (rest : List BuddyMempool) (hr : buddyAlloc m mp order = .ok (0, m', mp')) :
    allocFrom order (mp :: rest) m = (do
      let r ← allocFrom order rest m'
      return (r.1, r.2.1, mp' :: r.2.2)) := by
  rw [allocFrom, hr]
  rfl

/-- The loop over the pools: nothing is free and nothing changes, or one pool hands out a
page. -/
theorem allocFrom_spec {out : List ℕ} (pools : List BuddyMempool) (m : Mem)
    (hok : ∀ mp ∈ pools, PoolOk mp) (hinv : ∀ mp ∈ pools, Inv m mp 0 (usedBlocks mp out)) :
    (allocFrom 12 pools m = .ok (0, m, pools) ∧ ∀ mp ∈ pools, ∀ i, 12 ≤ i → mp.avail i = []) ∨
    ∃ pre mp post mp' m' o, pools = pre ++ mp :: post ∧
      allocFrom 12 pools m = .ok (mp.baseAddr + o, m', pre ++ mp' :: post) ∧
      Inv m' mp' 0 (⟨o, 12⟩ ::ₘ usedBlocks mp out) ∧ SameShape mp mp' ∧
      ∀ x, Busy mp (usedBlocks mp out) x → m' x = m x := by
  induction pools with
  | nil => exact .inl ⟨rfl, by simp⟩
  | cons mp rest ih =>
    have hmp := hok mp (by simp)
    have hi := hinv mp (by simp)
    have hord : 12 ≤ mp.poolOrder := hmp.min ▸ hi.geom.min_le
    -- a pool of pages has order 12 as its smallest
    have heff : effOrder mp 12 = 12 := by rw [effOrder_eq_max, hmp.min, Nat.max_self]
    obtain ⟨r, hr, hres⟩ := buddyAlloc_spec hi hord
    rw [heff] at hres
    rcases hres with ⟨rfl, hempty⟩ | ⟨o, hblock, hinv', hshape, hframe⟩
    -- no free block here: the result is that of the other pools
    · have hrun := allocFrom_skip rest hr
      rcases ih (fun mp hm => hok mp (by simp [hm])) (fun mp hm => hinv mp (by simp [hm])) with
        ⟨hnone, hall⟩ | ⟨pre, mp₁, post, mp', m', o, hsplit, hsome, hrest⟩
      · refine .inl ⟨by rw [hrun, hnone]; rfl, fun mp₁ hm => ?_⟩
        rcases List.mem_cons.1 hm with rfl | hm
        · exact hempty
        · exact hall mp₁ hm
      · refine .inr ⟨mp :: pre, mp₁, post, mp', m', o, by rw [hsplit]; rfl, ?_, hrest⟩
        rw [hrun, hsome]
        rfl
    · obtain ⟨vaddr, m', mp'⟩ := r
      simp only at hblock hinv' hframe hshape
      have hpos := hi.geom.base_pos
      have hne : mp.baseAddr + o ≠ 0 := by omega
      refine .inr ⟨[], mp, rest, mp', m', o, rfl, ?_, hinv', hshape, hframe⟩
      rw [allocFrom, hr, hblock]
      simp only [bind, Except.bind, pure, Except.pure, ne_eq, hne, not_false_eq_true, if_true]
      rfl

/-- A successful `petmem_alloc_pages(1)`: the frame is new, and kept frames stay. -/
structure Allocated (k : Kern) (g : ℕ) (k' : Kern) : Prop where
  pos : g ≠ 0
  lt : g < frameLimit
  fresh : ¬ Kept k g
  out : k'.outstanding = g * 4096 :: k.outstanding
  inv : PoolsInv k'
  pools : SamePools k k'
  file : k'.file = k.file
  frames : ∀ f, Kept k f → SameFrame k.mem k'.mem f

/-- `petmem_alloc_pages(1)` returns: 0 when no pool has a free page, and then nothing
changes, or the address of a fresh frame. -/
theorem petmemAllocPages_spec {k : Kern} (h : PoolsInv k) :
    (petmemAllocPages 1 k = .ok (0, k) ∧ ¬ HasFree k) ∨
    ∃ g k', petmemAllocPages 1 k = .ok (g * 4096, k') ∧ Allocated k g k' := by
  unfold petmemAllocPages
  dsimp only
  rw [getOrder_one]
  rcases allocFrom_spec k.pools k.mem h.ok h.inv with
    ⟨hrun, hempty⟩ | ⟨pre, mp, post, mp', m', o, hpools, hrun, hinv, hshape, hframe⟩
  · refine .inl ⟨by rw [hrun]; rfl, ?_⟩
    rintro ⟨mp, hmp, i, hi, hne⟩
    exact hne (hempty mp hmp i hi)
  · refine .inr ?_
    have hmp : mp ∈ k.pools := by simp [hpools]
    have hok := h.ok mp hmp
    -- the block as a frame
    have hmem : (⟨o, 12⟩ : Block) ∈
        0 + (⟨o, 12⟩ ::ₘ usedBlocks mp k.outstanding) + freeBlocks mp' := by
      simp
    have halign : 4096 ∣ o := hinv.tiling.aligned _ hmem
    have hend := hinv.tiling.off_add_le hmem
    rw [hshape.pool] at hend
    simp only at hend
    have hbase := hok.base
    have hlim := hok.limit
    obtain ⟨b, hb⟩ := hok.aligned
    obtain ⟨q, rfl⟩ := halign
    obtain ⟨c, hc⟩ := pageOffset_dvd
    obtain ⟨g, hg⟩ : ∃ g, mp.baseAddr + 4096 * q = g * 4096 + pageOffset :=
      ⟨b + q - c, by omega⟩
    have hg0 : g ≠ 0 := by omega
    have hglt : g < frameLimit := by
      unfold physLimit at hlim
      unfold frameLimit
      omega
    have hcov : Covers mp (g * 4096) := by
      unfold Covers
      omega
    have hpa : pa (mp.baseAddr + 4096 * q) = g * 4096 := by
      unfold physLimit pageOffset at hlim
      unfold pa
      rw [hg, sub64_of_le (by omega) (by unfold pageOffset at hg ⊢; omega)]
      omega
    have hblk : pageBlock mp (g * 4096) = ⟨4096 * q, 12⟩ := by
      unfold pageBlock
      rw [← hg, Nat.add_sub_cancel_left]
    have hnot : ¬ Held k g := by
      intro hheld
      have htil := hinv.tiling
      rw [zero_add, Multiset.cons_add] at htil
      refine htil.notMem_of_cons (Multiset.mem_add.2 (.inl ?_))
      rw [← hblk]
      exact mem_usedBlocks hheld hcov
    refine ⟨g, { k with
      mem := m', pools := pre ++ mp' :: post, outstanding := g * 4096 :: k.outstanding },
      ?_, hg0, hglt, ?_, rfl, ?_, ?_, rfl, ?_⟩
    · rw [hrun]
      simp only [bind, Except.bind, pure, Except.pure]
      rw [if_neg (by omega), hpa]
    · rintro (hheld | hfor)
      · exact hnot hheld
      · exact hfor.2 mp hmp hcov
    · have hused : usedBlocks mp (g * 4096 :: k.outstanding)
          = ⟨4096 * q, 12⟩ ::ₘ usedBlocks mp k.outstanding := by
        rw [usedBlocks_cons_of_covers hcov, hblk]
      refine h.replace hpools hshape (hused ▸ hinv) (fun x hx => hframe x (.inl hx))
        (fun mp₂ hap => usedBlocks_cons_of_not (hap.not_covers hcov) _) fun x hx => ?_
      rcases List.mem_cons.1 hx with rfl | hx
      · exact ⟨Nat.dvd_mul_left _ _, mp, hmp, hcov⟩
      · exact h.out x hx
    · show List.Forall₂ SameShape k.pools (pre ++ mp' :: post)
      rw [hpools]
      exact forall₂_replace hshape pre post
    · intro f hf i hi
      exact hframe _ (h.busy_of_kept hf hi hmp)

/-! ## `petmem_free_pages` -/

/-- The loop over the pools reaches the one that covers the address. -/
theorem freeTo_of_covers {pageVa pageOrder : ℕ} {pools pre post : List BuddyMempool}
    {mp mp' : BuddyMempool} {m m' : Mem} (hpools : pools = pre ++ mp :: post)
    (hpre : ∀ mp₂ ∈ pre, inPool pageVa mp₂ = false) (hmp : inPool pageVa mp = true)
    (hfree : buddyFree m mp pageVa pageOrder = .ok (m', mp')) :
    freeTo pageVa pageOrder pools m = .ok (true, m', pre ++ mp' :: post) := by
  induction pre generalizing pools with
  | nil =>
    rw [hpools, List.nil_append, freeTo]
    simp only [hmp, if_true, hfree, bind, Except.bind, pure, Except.pure, List.nil_append]
  | cons mp₂ pre ih =>
    rw [hpools, List.cons_append, freeTo, ih rfl fun mp₃ hm => hpre mp₃ (by simp [hm])]
    simp only [hpre mp₂ (by simp), Bool.false_eq_true, if_false, bind, Except.bind, pure,
      Except.pure, List.cons_append]

theorem freeTo_of_not_covers {pageVa pageOrder : ℕ} {pools : List BuddyMempool} (m : Mem)
    (h : ∀ mp ∈ pools, inPool pageVa mp = false) :
    freeTo pageVa pageOrder pools m = .ok (false, m, pools) := by
  induction pools with
  | nil => rfl
  | cons mp rest ih =>
    rw [freeTo, ih fun mp₂ hm => h mp₂ (by simp [hm])]
    simp only [h mp (by simp), Bool.false_eq_true, if_false, bind, Except.bind, pure, Except.pure]

/-- `petmem_free_pages` of an address that no pool covers does nothing. -/
theorem petmemFreePages_of_not_covers {k : Kern} {x n : ℕ}
    (h : ∀ mp ∈ k.pools, inPool (va x) mp = false) : petmemFreePages x n k = .ok k := by
  unfold petmemFreePages
  dsimp only
  rw [freeTo_of_not_covers k.mem h]
  rfl

/-- A block of the pool that no used block covers lies in a listed block. -/
theorem exists_avail_of_not_used {m : Mem} {mp : BuddyMempool} {U : Multiset Block} {o : ℕ}
    (h : Inv m mp 0 U) (ho : o < 2 ^ mp.poolOrder) (hU : ∀ b ∈ U, ¬ b.Covers o) :
    ∃ i, mp.minOrder ≤ i ∧ mp.avail i ≠ [] := by
  -- used and free blocks tile the pool
  obtain ⟨b, hb, hcov⟩ := h.tiling.exists_covers ho
  rw [zero_add] at hb
  rcases Multiset.mem_add.1 hb with hb | hb
  · exact absurd hcov (hU b hb)
  · have hmem := h.exists_mem_avail hb
    refine ⟨b.order, (h.listed _ _ hmem).1, fun hnil => ?_⟩
    rw [hnil] at hmem
    exact List.not_mem_nil hmem

/-- `petmem_free_pages(x, 1)` of an outstanding frame: its pool takes it back. -/
structure Freed (k : Kern) (f : ℕ) (k' : Kern) : Prop where
  out : k'.outstanding = k.outstanding.erase (f * 4096)
  gone : ¬ Held k' f
  inv : PoolsInv k'
  pools : SamePools k k'
  free : HasFree k'
  file : k'.file = k.file
  frames : ∀ f', Kept k' f' → SameFrame k.mem k'.mem f'

theorem petmemFreePages_spec {k : Kern} {f : ℕ} (h : PoolsInv k) (hf : Held k f) :
    ∃ k', petmemFreePages (f * 4096) 1 k = .ok k' ∧ Freed k f k' := by
  obtain ⟨hdvd, mp, hmp, hcov⟩ := h.out _ hf
  obtain ⟨pre, post, hpools⟩ := List.append_of_mem hmp
  have hok := h.ok mp hmp
  have hlim := h.lt_limit hmp hcov
  have hva : va (f * 4096) = mp.baseAddr + (f * 4096 + pageOffset - mp.baseAddr) := by
    rw [va_of_lt hlim]
    unfold Covers at hcov
    omega
  have heff : effOrder mp 12 = 12 := by rw [effOrder_eq_max, hok.min, Nat.max_self]
  -- the pool's share of the outstanding frames, with this one in front
  have hperm := List.perm_cons_erase hf
  have hused : usedBlocks mp k.outstanding
      = pageBlock mp (f * 4096) ::ₘ usedBlocks mp (k.outstanding.erase (f * 4096)) := by
    rw [usedBlocks_perm hperm, usedBlocks_cons_of_covers hcov]
  have hinv := h.inv mp hmp
  rw [hused] at hinv
  have hinv₀ : Inv k.mem mp 0 (⟨f * 4096 + pageOffset - mp.baseAddr, effOrder mp 12⟩ ::ₘ
      usedBlocks mp (k.outstanding.erase (f * 4096))) := by
    rw [heff]
    exact hinv
  obtain ⟨m', mp', hrun, hinv', hshape, hframe⟩ := buddyFree_spec hinv₀ (h.order_ge hmp)
  rw [← hva] at hrun
  have hapart := h.apart
  rw [hpools, List.pairwise_append, List.pairwise_cons] at hapart
  have hpre : ∀ mp₂ ∈ pre, inPool (va (f * 4096)) mp₂ = false := by
    intro mp₂ hm
    rw [← Bool.not_eq_true, (h.ok mp₂ (by simp [hpools, hm])).inPool_iff hlim]
    exact (hapart.2.2 mp₂ hm mp (by simp)).symm.not_covers hcov
  have hfreeTo := freeTo_of_covers hpools hpre ((hok.inPool_iff hlim).2 hcov) hrun
  have hinvk : PoolsInv { k with
      mem := m', pools := pre ++ mp' :: post
      outstanding := k.outstanding.erase (f * 4096) } := by
    refine h.replace hpools hshape hinv' (fun x hx => hframe x (.inl hx)) (fun mp₂ hap => ?_)
      fun x hx => h.out x (List.mem_of_mem_erase hx)
    rw [usedBlocks_perm hperm, usedBlocks_cons_of_not (hap.not_covers hcov)]
  -- the frame is not outstanding a second time
  have hnot : pageBlock mp (f * 4096) ∉ usedBlocks mp (k.outstanding.erase (f * 4096)) := by
    have htil := hinv.tiling
    rw [zero_add, Multiset.cons_add] at htil
    exact fun hm => htil.notMem_of_cons (Multiset.mem_add.2 (.inl hm))
  refine ⟨_, ?_, rfl, ?_, hinvk, ?_, ?_, rfl, ?_⟩
  · unfold petmemFreePages
    dsimp only
    rw [getOrder_one, hfreeTo]
    rfl
  · exact fun hheld => hnot (mem_usedBlocks hheld hcov)
  · show List.Forall₂ SameShape k.pools (pre ++ mp' :: post)
    rw [hpools]
    exact forall₂_replace hshape pre post
  · have hlt : f * 4096 + pageOffset - mp.baseAddr < 2 ^ mp'.poolOrder := by
      rw [hshape.pool]
      unfold Covers at hcov
      omega
    -- the frame itself is free now
    obtain ⟨i, hi, hne⟩ := exists_avail_of_not_used hinv' hlt fun b hb hcb => by
      have htil := hinv.tiling
      rw [zero_add, Multiset.cons_add] at htil
      exact htil.not_covers_of_cons (Multiset.mem_add.2 (.inl hb)) (Block.covers_off _) hcb
    exact ⟨mp', by simp, i, by rwa [hshape.min, hok.min] at hi, hne⟩
  · intro f' hf' i hi
    refine hframe _ ?_
    have hb := hinvk.busy_of_kept hf' hi (show mp' ∈ pre ++ mp' :: post by simp)
    rwa [usedBlocks_congr hshape, hshape.busy_iff] at hb

end Pools

end Petmem
