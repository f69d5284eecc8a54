import Petmem.BuddyAlloc

/-!
# `buddy_free`

The merge loop keeps one tile in hand. Each pass either stops, and then the buddy is not a
listed block of the same order, or takes the buddy off its list and goes on with the
parent (`Inv.merge_step`). Listing the final tile keeps the free blocks unmerged-free:
`buddyFree_spec`.
-/

namespace Petmem
namespace Buddy

open Dyadic ByteMemory

theorem findBuddy_eq {mp : BuddyMempool} (g : Geometry mp) {b : Block}
    (hb : b.off < 2 ^ mp.poolOrder) (hbuddy : b.buddy.off < 2 ^ mp.poolOrder)
    (hord : b.order < mp.poolOrder) :
    findBuddy mp (mp.baseAddr + b.off) b.order = .ok (mp.baseAddr + b.buddy.off) := by
  have hpool := g.pool_lt
  have hbase := g.base_le
  unfold findBuddy
  rw [if_neg (by omega), g.sub64_base hb, shl64_of_lt (by omega)]
  have hx : b.off ^^^ 2 ^ b.order = b.buddy.off := rfl
  rw [hx, Nat.mod_eq_of_lt (by omega), Nat.add_comm]

/-- `list_del` of a listed block. -/
theorem listDel_eq {m : Mem} {mp : BuddyMempool} {H U : Multiset Block} (h : Inv m mp H U)
    {j a : ℕ} (ha : a ∈ mp.avail j) :
    listDel mp a = .ok { mp with avail := fun j => (mp.avail j).erase a } := by
  unfold listDel
  rw [if_pos]
  rw [List.any_eq_true]
  exact ⟨j, List.mem_range.2 (Nat.lt_succ_of_le (h.listed j a ha).2.1), by simpa using ha⟩

namespace Inv

variable {m : Mem} {mp : BuddyMempool} {U : Multiset Block}

theorem buddy_off_lt {b : Block} (h : Inv m mp {b} U) (hlt : b.order < mp.poolOrder) :
    b.buddy.off < 2 ^ mp.poolOrder := by
  obtain ⟨c, hc, hco, _⟩ := h.tiling.at_buddy (b := b) (by simp) hlt
  rw [← hco]
  exact h.lt_pool hc

/-- The order word of a tile in hand may be written. -/
theorem writeOrder_hand {b : Block} {H : Multiset Block} (h : Inv m mp (b ::ₘ H) U) (v : ℕ) :
    Inv (writeOrder m (mp.baseAddr + b.off) v) mp (b ::ₘ H) U := by
  refine h.of_mem_eq fun j a ha => h.readOrder_writeOrder (by simp) ha ?_
  rintro rfl
  have htil := h.tiling
  rw [Multiset.cons_add, Multiset.cons_add] at htil
  exact htil.notMem_of_cons (Multiset.mem_add.2 (.inr (h.mem_free_of_mem ha)))

/-- **One merge.** The listed buddy of the tile in hand leaves its list and the two become
their parent. -/
theorem merge_step {b : Block} (h : Inv m mp {b} U) (hlt : b.order < mp.poolOrder)
    (hmem : mp.baseAddr + b.buddy.off ∈ mp.avail b.order) :
    Inv m { mp with avail := fun j => (mp.avail j).erase (mp.baseAddr + b.buddy.off) }
      {b.parent} U := by
  have hsub : ∀ j x, x ∈ (mp.avail j).erase (mp.baseAddr + b.buddy.off) → x ∈ mp.avail j :=
    fun j x hx => List.mem_of_mem_erase hx
  have hblk : blk mp (mp.baseAddr + b.buddy.off) b.order = b.buddy := by
    simp only [blk, Nat.add_sub_cancel_left]
    rfl
  refine ⟨h.geom.of_eq rfl rfl rfl rfl, fun j x hx => h.listed j x (hsub j x hx), h.used, ?_, ?_,
    fun j hj x hx y hy => h.merged j hj x (hsub j x hx) y (hsub j y hy)⟩
  · intro c hc
    rw [Multiset.mem_singleton] at hc
    subst hc
    exact le_trans (h.hand b (by simp)) (Nat.le_succ _)
  · have htil := h.tiling
    rw [freeBlocks_erase hlt.le hmem fun j _ hj => h.avail_unique hj hmem, hblk,
      Multiset.singleton_add, Multiset.cons_add, Multiset.add_cons] at htil
    have := htil.merge
    rwa [← Multiset.cons_add, ← Multiset.singleton_add] at this

end Inv

/-- A block that is handed out goes back in hand when it is freed. -/
theorem Inv.take_back {m : Mem} {mp : BuddyMempool} {U : Multiset Block} {b : Block}
    (h : Inv m mp 0 (b ::ₘ U)) : Inv m mp {b} U := by
  refine ⟨h.geom, h.listed, fun c hc => h.used c (Multiset.mem_cons_of_mem hc), ?_, ?_, h.merged⟩
  · intro c hc
    rw [Multiset.mem_singleton] at hc
    rw [hc]
    exact (h.used b (Multiset.mem_cons_self _ _)).1
  · have htil := h.tiling
    rwa [Multiset.zero_add, ← Multiset.singleton_add] at htil

/-- The merged block starts at the lower of the two halves. -/
theorem lower_half (base : ℕ) (b : Block) :
    (if base + b.buddy.off < base + b.off then base + b.buddy.off else base + b.off)
      = base + b.parent.off := by
  simp only [Block.parent]
  split <;> omega

/-- The merge loop: the tile in hand grows over its free buddies, and when the loop stops
its buddy is not a listed block of its order. -/
theorem freeMerge_spec {U : Multiset Block} :
    ∀ (n : ℕ) {m : Mem} {mp : BuddyMempool} {b : Block}, Inv m mp {b} U →
      b.order + n = mp.poolOrder →
      ∃ c m' mp', freeMerge n (mp.baseAddr + b.off) b.order m mp
          = .ok (mp.baseAddr + c.off, c.order, m', mp') ∧
        Inv m' mp' {c} U ∧ SameShape mp mp' ∧ (∀ x, Busy mp U x → m' x = m x) ∧
        (c.order < mp.poolOrder → mp.baseAddr + c.buddy.off ∉ mp'.avail c.order) := by
  intro n
  -- one block is in hand at every turn, and grows until its buddy cannot join it
  induction n with
  | zero =>
    intro m mp b h hord
    exact ⟨b, m, mp, rfl, h, .refl _, fun _ _ => rfl, fun hlt => absurd hlt (by omega)⟩
  | succ n ih =>
    intro m mp b h hord
    have hlt : b.order < mp.poolOrder := by omega
    have hb : b.off < 2 ^ mp.poolOrder := h.lt_pool (by simp)
    have hbud := h.buddy_off_lt hlt
    rw [freeMerge]
    simp only [findBuddy_eq h.geom hb hbud hlt, isAvailable_eq h.geom hbud, bind, Except.bind]
    by_cases htag : tag mp b.buddy.off = true
    · by_cases hword : readOrder m (mp.baseAddr + b.buddy.off) = b.order
      · -- the buddy is free and as large as the block in hand
        have hmem := h.listed_of_tag hlt htag hword
        have hmerge := h.merge_step hlt hmem
        have hpar := lower_half mp.baseAddr b
        -- the loop writes the order of the merged block before it goes on
        have hwrite := hmerge.writeOrder_hand (H := 0) (b.order + 1)
        obtain ⟨c, m', mp', hrun, hinv, hshape, hframe, hstop⟩ :=
          ih hwrite (by simp only [Block.parent_order]; omega)
        refine ⟨c, m', mp', ?_, hinv, ?_, ?_, hstop⟩
        · simp only [htag, hword, hpar, listDel_eq h hmem, Bool.not_true, Bool.false_eq_true,
            if_false, ne_eq, not_true_eq_false]
          exact hrun
        · exact (shape_avail mp _).trans hshape
        · intro x hx
          rw [hframe x hx]
          exact hmerge.writeOrder_of_busy (H := 0) hx
      · refine ⟨b, m, mp, ?_, h, .refl _, fun _ _ => rfl, fun _ hmem => hword ?_⟩
        · simp [htag, hword]
          rfl
        · exact (h.listed _ _ hmem).2.2.2.2
    · refine ⟨b, m, mp, ?_, h, .refl _, fun _ _ => rfl, fun _ hmem => htag ?_⟩
      · simp [htag]
        rfl
      · have := (h.listed _ _ hmem).2.2.2.1
        rwa [Nat.add_sub_cancel_left] at this

/-- `buddy_free` in terms of its merge loop. -/
theorem buddyFree_eq {m m₁ : Mem} {mp mp₁ : BuddyMempool} {o order c k : ℕ} (g : Geometry mp)
    (hord : order ≤ mp.poolOrder) (ho : o < 2 ^ mp.poolOrder) (htag : tag mp o = false)
    (hrun : freeMerge (mp.poolOrder - effOrder mp order) (mp.baseAddr + o) (effOrder mp order) m mp
      = .ok (mp.baseAddr + c, k, m₁, mp₁)) (hshape : SameShape mp mp₁) (hc : c < 2 ^ mp.poolOrder) :
    buddyFree m mp (mp.baseAddr + o) order = .ok (writeOrder m₁ (mp.baseAddr + c) k,
      listAdd (setTag mp₁ c true) (mp.baseAddr + c) k) := by
  have hmark := markAvailable_eq (hshape.geometry g) (o := c) (by rw [hshape.pool]; exact hc)
  rw [hshape.base] at hmark
  have htag0 : isAvailable mp (mp.baseAddr + o) = .ok false := by
    rw [isAvailable_eq g ho, htag]
  have hrun' : freeMerge (mp.poolOrder - (if order < mp.minOrder then mp.minOrder else order))
      (mp.baseAddr + o) (if order < mp.minOrder then mp.minOrder else order) m mp
      = .ok (mp.baseAddr + c, k, m₁, mp₁) := hrun
  unfold buddyFree
  rw [if_neg (by omega)]
  simp only [htag0, bind, Except.bind, pure, Except.pure, hrun', hmark]
  rfl

/-- `buddy_free` of a block that is handed out never stops, takes exactly that block back,
and leaves the blocks still handed out and all memory outside the pool alone. -/
theorem buddyFree_spec {m : Mem} {mp : BuddyMempool} {U : Multiset Block} {o order : ℕ}
    (h : Inv m mp 0 (⟨o, effOrder mp order⟩ ::ₘ U)) (hord : order ≤ mp.poolOrder) :
    ∃ m' mp', buddyFree m mp (mp.baseAddr + o) order = .ok (m', mp') ∧ Inv m' mp' 0 U ∧
      SameShape mp mp' ∧ ∀ x, Busy mp U x → m' x = m x := by
  set b : Block := ⟨o, effOrder mp order⟩ with hb
  have hbtag := (h.used b (Multiset.mem_cons_self _ _)).2
  have hle : effOrder mp order ≤ mp.poolOrder := by
    rw [effOrder_eq_max]; exact Nat.max_le.2 ⟨hord, h.geom.min_le⟩
  -- the block is taken in hand
  have hhand : Inv m mp {b} U := h.take_back
  have ho : o < 2 ^ mp.poolOrder := hhand.lt_pool (b := b) (by simp)
  obtain ⟨c, m₁, mp₁, hrun, hinv, hshape, hframe, hstop⟩ :=
    freeMerge_spec (mp.poolOrder - effOrder mp order) hhand (by simp only [hb]; omega)
  have hc : c.off < 2 ^ mp₁.poolOrder := hinv.lt_pool (by simp)
  have hfin := Inv.list_hand (H := 0) hinv (by rw [hshape.base, hshape.pool]; exact hstop)
  refine ⟨writeOrder m₁ (mp₁.baseAddr + c.off) c.order,
    listAdd (setTag mp₁ c.off true) (mp₁.baseAddr + c.off) c.order, ?_, hfin, ?_, ?_⟩
  · rw [hshape.base]
    exact buddyFree_eq h.geom hord ho hbtag hrun hshape (by rwa [hshape.pool] at hc)
  · exact hshape.trans ((shape_setTag _ _ _).trans (shape_listAdd _ _ _))
  · intro x hx
    rw [← hframe x hx]
    exact Inv.writeOrder_of_busy (H := 0) hinv (hshape.busy_iff.2 hx)

end Buddy

end Petmem
