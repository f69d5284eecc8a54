import Petmem.Library.Dyadic
import Petmem.Buddy
import Mathlib.Algebra.BigOperators.Group.Finset.Basic
import Mathlib.Algebra.Order.Group.Multiset
import Mathlib.Tactic.Abel

/-!
# The pool invariant

`Inv m mp H U` ties a pool to a dyadic tiling of its memory: the blocks `H` in the hands
of a running call, the blocks `U` handed out to clients and the blocks on the free lists
tile the pool. A listed block carries its tag bit and its order word, a handed-out block
has its tag bit clear, and no two listed blocks of one order are buddies.

Nothing is said about a tag bit or an order word that is not at the start of a tile: those
are the stale ones `buddy_free` leaves behind. `Inv.listed_of_tag` is why they do no harm:
the buddy position of a tile is itself the start of a tile, so a test made there reads a
live tag and a live order.
-/

namespace Petmem
namespace Buddy

open Dyadic ByteMemory

/-! ## Geometry -/

/-- What `buddy_init` establishes about a pool's dimensions, for a pool inside the address
space. -/
structure Geometry (mp : BuddyMempool) : Prop where
  min_ge : 5 ≤ mp.minOrder
  min_le : mp.minOrder ≤ mp.poolOrder
  base_pos : 0 < mp.baseAddr
  base_le : mp.baseAddr + 2 ^ mp.poolOrder ≤ 2 ^ 64
  numBlocks_eq : mp.numBlocks = 2 ^ (mp.poolOrder - mp.minOrder)

namespace Geometry

variable {mp : BuddyMempool}

theorem pool_lt (g : Geometry mp) : mp.poolOrder < 64 := by
  have h1 := g.base_pos
  have h2 := g.base_le
  exact (Nat.pow_lt_pow_iff_right (a := 2) (by norm_num)).1 (by omega)

/-- The dimensions are all that `Geometry` reads. -/
theorem of_eq (g : Geometry mp) {mp' : BuddyMempool} (h1 : mp'.baseAddr = mp.baseAddr)
    (h2 : mp'.poolOrder = mp.poolOrder) (h3 : mp'.minOrder = mp.minOrder)
    (h4 : mp'.numBlocks = mp.numBlocks) : Geometry mp' := by
  obtain ⟨g1, g2, g3, g4, g5⟩ := g
  constructor <;> simp only [h1, h2, h3, h4] <;> assumption

theorem sub64_base (g : Geometry mp) {o : ℕ} (ho : o < 2 ^ mp.poolOrder) :
    sub64 (mp.baseAddr + o) mp.baseAddr = o := by
  have := g.base_le
  rw [sub64_of_le (by omega) (by omega), Nat.add_sub_cancel_left]

theorem blockToId_eq (g : Geometry mp) {o : ℕ} (ho : o < 2 ^ mp.poolOrder) :
    blockToId mp (mp.baseAddr + o) = .ok (o >>> mp.minOrder) := by
  have hlt : o >>> mp.minOrder < mp.numBlocks := by
    rw [g.numBlocks_eq, Nat.shiftRight_eq_div_pow, Nat.div_lt_iff_lt_mul (Nat.two_pow_pos _),
      ← pow_add, Nat.sub_add_cancel g.min_le]
    exact ho
  simp only [blockToId, g.sub64_base ho]
  rw [if_neg (by omega)]

end Geometry

/-! ## Tiles of a pool -/

/-- The block of order `k` at address `a`, relative to the pool's base. -/
def blk (mp : BuddyMempool) (a k : ℕ) : Block := ⟨a - mp.baseAddr, k⟩

/-- The blocks on the free lists. -/
def freeBlocks (mp : BuddyMempool) : Multiset Block :=
  ∑ j ∈ Finset.range (mp.poolOrder + 1), ((mp.avail j : Multiset ℕ).map fun a => blk mp a j)

/-- The tag bit for the block at offset `o`. -/
def tag (mp : BuddyMempool) (o : ℕ) : Bool := mp.tagBits (o >>> mp.minOrder)

theorem mem_freeBlocks {mp : BuddyMempool} {b : Block} :
    b ∈ freeBlocks mp ↔ b.order ≤ mp.poolOrder ∧
      ∃ a ∈ mp.avail b.order, a - mp.baseAddr = b.off := by
  simp only [freeBlocks, Multiset.mem_sum, Finset.mem_range, Multiset.mem_map,
    Multiset.mem_coe, blk]
  constructor
  · rintro ⟨j, hj, a, ha, rfl⟩
    exact ⟨by simpa using Nat.lt_succ_iff.1 hj, a, ha, rfl⟩
  · rintro ⟨hj, a, ha, hoff⟩
    exact ⟨b.order, Nat.lt_succ_iff.2 hj, a, ha, by rw [hoff]⟩

/-- Replacing one free list replaces its share of the free blocks. -/
theorem freeBlocks_update (mp : BuddyMempool) {k : ℕ} (hk : k ≤ mp.poolOrder) (l : List ℕ) :
    freeBlocks { mp with avail := Function.update mp.avail k l }
        + ((mp.avail k : Multiset ℕ).map fun a => blk mp a k)
      = ((l : Multiset ℕ).map fun a => blk mp a k) + freeBlocks mp := by
  have hmem : k ∈ Finset.range (mp.poolOrder + 1) := Finset.mem_range.2 (by omega)
  unfold freeBlocks
  rw [← Finset.add_sum_erase _ _ hmem,
    ← Finset.add_sum_erase (Finset.range (mp.poolOrder + 1))
      (fun j => ((mp.avail j : Multiset ℕ).map fun a => blk mp a j)) hmem]
  have hrest : ∀ j ∈ (Finset.range (mp.poolOrder + 1)).erase k,
      ((Function.update mp.avail k l j : Multiset ℕ).map fun a => blk mp a j)
        = ((mp.avail j : Multiset ℕ).map fun a => blk mp a j) := by
    intro j hj
    rw [Function.update_of_ne (Finset.ne_of_mem_erase hj)]
  simp only [Function.update_self]
  rw [show (∑ j ∈ (Finset.range (mp.poolOrder + 1)).erase k,
      ((Function.update mp.avail k l j : Multiset ℕ).map fun a =>
        blk { mp with avail := Function.update mp.avail k l } a j))
      = ∑ j ∈ (Finset.range (mp.poolOrder + 1)).erase k,
        ((mp.avail j : Multiset ℕ).map fun a => blk mp a j) from Finset.sum_congr rfl hrest]
  simp only [blk]
  abel

/-- `list_add` puts one more block among the free ones. -/
theorem freeBlocks_listAdd (mp : BuddyMempool) {k : ℕ} (hk : k ≤ mp.poolOrder) (a : ℕ) :
    freeBlocks (listAdd mp a k) = blk mp a k ::ₘ freeBlocks mp := by
  have h := freeBlocks_update mp hk (a :: mp.avail k)
  rw [← Multiset.cons_coe, Multiset.map_cons, Multiset.cons_add, ← Multiset.add_cons,
    Multiset.add_comm _ (_ ::ₘ _)] at h
  exact add_right_cancel h

/-- Taking the first block off a free list. -/
theorem freeBlocks_pop {mp : BuddyMempool} {k a : ℕ} {rest : List ℕ}
    (hk : k ≤ mp.poolOrder) (h : mp.avail k = a :: rest) :
    freeBlocks mp
      = blk mp a k ::ₘ freeBlocks { mp with avail := Function.update mp.avail k rest } := by
  have hu := freeBlocks_update mp hk rest
  rw [h, ← Multiset.cons_coe, Multiset.map_cons, Multiset.add_cons, ← Multiset.cons_add,
    Multiset.add_comm _ (freeBlocks mp)] at hu
  exact (add_right_cancel hu).symm

/-- `list_del` of a block that is on one free list only. -/
theorem freeBlocks_erase {mp : BuddyMempool} {k a : ℕ} (hk : k ≤ mp.poolOrder)
    (h : a ∈ mp.avail k) (honly : ∀ j ≤ mp.poolOrder, a ∈ mp.avail j → j = k) :
    freeBlocks mp
      = blk mp a k ::ₘ freeBlocks { mp with avail := fun j => (mp.avail j).erase a } := by
  have hmem : k ∈ Finset.range (mp.poolOrder + 1) := Finset.mem_range.2 (by omega)
  unfold freeBlocks
  rw [← Finset.add_sum_erase _ _ hmem,
    ← Finset.add_sum_erase (Finset.range (mp.poolOrder + 1))
      (fun j => (((mp.avail j).erase a : Multiset ℕ).map fun b =>
        blk { mp with avail := fun j => (mp.avail j).erase a } b j)) hmem]
  rw [← Multiset.cons_add]
  congr 1
  · rw [← Multiset.coe_erase]
    conv_lhs => rw [← Multiset.cons_erase (Multiset.mem_coe.2 h), Multiset.map_cons]
    rfl
  · refine Finset.sum_congr rfl fun j hj => ?_
    have hja : a ∉ mp.avail j := fun hmem' => Finset.ne_of_mem_erase hj
      (honly j (Nat.lt_succ_iff.1 (Finset.mem_range.1 (Finset.mem_of_mem_erase hj))) hmem')
    rw [List.erase_of_not_mem hja]
    rfl

/-! ## The invariant -/

/-- The pool `mp` over memory `m`, with the blocks `H` in the hands of a running call and
the blocks `U` handed out. -/
structure Inv (m : Mem) (mp : BuddyMempool) (H U : Multiset Block) : Prop where
  geom : Geometry mp
  listed : ∀ j, ∀ a ∈ mp.avail j, mp.minOrder ≤ j ∧ j ≤ mp.poolOrder ∧ mp.baseAddr ≤ a ∧
    tag mp (a - mp.baseAddr) = true ∧ readOrder m a = j
  used : ∀ b ∈ U, mp.minOrder ≤ b.order ∧ tag mp b.off = false
  hand : ∀ b ∈ H, mp.minOrder ≤ b.order
  tiling : Tiling mp.poolOrder (H + U + freeBlocks mp)
  merged : ∀ j < mp.poolOrder, ∀ a ∈ mp.avail j, ∀ b ∈ mp.avail j,
    blk mp b j ≠ (blk mp a j).buddy

/-- The bytes a call must leave alone: those outside the pool and those of the blocks `U`. -/
def Busy (mp : BuddyMempool) (U : Multiset Block) (x : ℕ) : Prop :=
  ¬ (mp.baseAddr ≤ x ∧ x < mp.baseAddr + 2 ^ mp.poolOrder) ∨
    ∃ b ∈ U, mp.baseAddr ≤ x ∧ b.Covers (x - mp.baseAddr)

namespace Inv

variable {m : Mem} {mp : BuddyMempool} {H U : Multiset Block}

theorem mem_free_of_mem (h : Inv m mp H U) {j a : ℕ} (ha : a ∈ mp.avail j) :
    blk mp a j ∈ freeBlocks mp :=
  mem_freeBlocks.2 ⟨(h.listed j a ha).2.1, a, ha, rfl⟩

theorem tile_of_mem (h : Inv m mp H U) {j a : ℕ} (ha : a ∈ mp.avail j) :
    blk mp a j ∈ H + U + freeBlocks mp :=
  Multiset.mem_add.2 (.inr (h.mem_free_of_mem ha))

/-- A tile among the free blocks is on the free list of its order. -/
theorem exists_mem_avail (h : Inv m mp H U) {b : Block} (hb : b ∈ freeBlocks mp) :
    mp.baseAddr + b.off ∈ mp.avail b.order := by
  obtain ⟨_, a, ha, hoff⟩ := mem_freeBlocks.1 hb
  have hle := (h.listed _ a ha).2.2.1
  rwa [← hoff, Nat.add_sub_cancel' hle]

theorem min_le_order (h : Inv m mp H U) {b : Block} (hb : b ∈ H + U + freeBlocks mp) :
    mp.minOrder ≤ b.order := by
  rcases Multiset.mem_add.1 hb with hb | hb
  · rcases Multiset.mem_add.1 hb with hb | hb
    · exact h.hand b hb
    · exact (h.used b hb).1
  · exact (h.listed _ _ (h.exists_mem_avail hb)).1

theorem min_dvd_off (h : Inv m mp H U) {b : Block} (hb : b ∈ H + U + freeBlocks mp) :
    2 ^ mp.minOrder ∣ b.off :=
  (pow_dvd_pow 2 (h.min_le_order hb)).trans (h.tiling.aligned b hb)

/-- Tiles are long enough to hold their block structure. -/
theorem two_pow_order_ge (h : Inv m mp H U) {b : Block} (hb : b ∈ H + U + freeBlocks mp) :
    32 ≤ 2 ^ b.order :=
  Nat.pow_le_pow_right (n := 2) (by norm_num) (le_trans h.geom.min_ge (h.min_le_order hb))

/-- Distinct block starts have distinct tag bits. -/
theorem shiftRight_ne {k o o' : ℕ} (ho : 2 ^ k ∣ o) (ho' : 2 ^ k ∣ o') (hne : o ≠ o') :
    o >>> k ≠ o' >>> k := by
  obtain ⟨q, rfl⟩ := ho
  obtain ⟨q', rfl⟩ := ho'
  simp only [Nat.shiftRight_eq_div_pow, Nat.mul_div_cancel_left _ (Nat.two_pow_pos k)]
  rintro rfl
  exact hne rfl

theorem lt_pool (h : Inv m mp H U) {b : Block} (hb : b ∈ H + U + freeBlocks mp) :
    b.off < 2 ^ mp.poolOrder := h.tiling.lt_of_covers hb b.covers_off

/-- A listed block's tag and order survive a store to the order word of another tile. -/
theorem readOrder_writeOrder (h : Inv m mp H U) {b : Block} (hb : b ∈ H + U + freeBlocks mp)
    {j a v : ℕ} (ha : a ∈ mp.avail j) (hne : blk mp a j ≠ b) :
    readOrder (writeOrder m (mp.baseAddr + b.off) v) a = readOrder m a := by
  have ha' := h.tile_of_mem ha
  have hle := (h.listed j a ha).2.2.1
  have h1 := h.two_pow_order_ge hb
  have h2 := h.two_pow_order_ge ha'
  unfold readOrder writeOrder
  rw [read64_write64_disjoint]
  rcases h.tiling.off_add_le_or ha' hb hne with hlt | hlt <;> simp only [blk] at hlt h2 <;> omega

/-- **Live tests.** Where the buddy position of a tile in hand shows a set tag bit and the
tile's own order, the buddy is on the free list of that order: the position is the start
of a tile, so the tag and the order read there are that tile's. -/
theorem listed_of_tag {b : Block} (h : Inv m mp {b} U) (hlt : b.order < mp.poolOrder)
    (htag : tag mp b.buddy.off = true)
    (hord : readOrder m (mp.baseAddr + b.buddy.off) = b.order) :
    mp.baseAddr + b.buddy.off ∈ mp.avail b.order := by
  have hb : b ∈ {b} + U + freeBlocks mp := by simp
  obtain ⟨c, hc, hco, hcle⟩ := h.tiling.at_buddy hb hlt
  rcases Multiset.mem_add.1 hc with hc' | hc'
  · exfalso
    rcases Multiset.mem_add.1 hc' with hc' | hc'
    · -- the tile in hand does not start at its own buddy's position
      rw [Multiset.mem_singleton] at hc'
      subst hc'
      refine c.buddy_ne ?_
      cases c
      simp only [Block.buddy, Block.mk.injEq, and_true] at hco ⊢
      exact hco.symm
    · -- a block handed out has its tag bit clear
      rw [← hco, (h.used c hc').2] at htag
      exact Bool.false_ne_true htag
  · have hmem := h.exists_mem_avail hc'
    have hword := (h.listed _ _ hmem).2.2.2.2
    rw [hco, hord] at hword
    rwa [hco, ← hword] at hmem

/-- A block on a free list is on no other list. -/
theorem avail_unique (h : Inv m mp H U) {j k a : ℕ} (hj : a ∈ mp.avail j)
    (hk : a ∈ mp.avail k) : j = k := by
  have := h.tiling.eq_of_covers (h.tile_of_mem hj) (h.tile_of_mem hk)
    (blk mp a j).covers_off (blk mp a k).covers_off
  exact congrArg Block.order this

/-- Memory may change freely inside the blocks handed out or in hand. -/
theorem of_mem_eq (h : Inv m mp H U) {m' : Mem}
    (hm : ∀ j, ∀ a ∈ mp.avail j, readOrder m' a = readOrder m a) : Inv m' mp H U where
  geom := h.geom
  listed j a ha := by
    obtain ⟨h1, h2, h3, h4, h5⟩ := h.listed j a ha
    exact ⟨h1, h2, h3, h4, (hm j a ha).trans h5⟩
  used := h.used
  hand := h.hand
  tiling := h.tiling
  merged := h.merged

/-- The order words of the listed blocks lie outside the busy bytes. -/
theorem readOrder_eq_of_busy (h : Inv m mp H U) {m' : Mem}
    (hm : ∀ x, ¬ Busy mp U x → m' x = m x) {j a : ℕ} (ha : a ∈ mp.avail j) :
    readOrder m' a = readOrder m a := by
  have hmem := h.tile_of_mem ha
  have hle := (h.listed j a ha).2.2.1
  have h32 := h.two_pow_order_ge hmem
  have hend := h.tiling.off_add_le hmem
  simp only [blk] at h32 hend
  unfold readOrder
  rw [read64_congr]
  intro i hi
  refine hm _ ?_
  rintro (hout | ⟨b, hb, _, hcov⟩)
  · exact hout ⟨by omega, by omega⟩
  · have hb' : b ∈ H + U := Multiset.mem_add.2 (.inr hb)
    obtain ⟨V, hV⟩ := Multiset.exists_cons_of_mem hb'
    have htil := h.tiling
    rw [hV, Multiset.cons_add] at htil
    refine htil.not_covers_of_cons (c := blk mp a j)
      (Multiset.mem_add.2 (.inr (h.mem_free_of_mem ha))) hcov ⟨?_, ?_⟩ <;>
      simp only [blk] <;> omega

end Inv

end Buddy

end Petmem
