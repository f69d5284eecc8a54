import Petmem.BuddyInvariant

/-!
# `buddy_alloc`

One pass of the trim loop replaces the block in hand by its lower half and lists the upper
half (`Inv.trim_step`); the loop follows by induction, and `buddyAlloc_spec` is what a
caller needs: the call never stops, and it either finds nothing and changes nothing, or
hands out one aligned block and leaves every busy byte alone.
-/

namespace Petmem
namespace Buddy

open Dyadic ByteMemory

/-- Two pools with the same dimensions. -/
structure SameShape (mp mp' : BuddyMempool) : Prop where
  base : mp'.baseAddr = mp.baseAddr
  pool : mp'.poolOrder = mp.poolOrder
  min : mp'.minOrder = mp.minOrder
  num : mp'.numBlocks = mp.numBlocks

namespace SameShape

variable {mp mp' mp'' : BuddyMempool}

theorem symm (h : SameShape mp mp') : SameShape mp' mp :=
  ⟨h.base.symm, h.pool.symm, h.min.symm, h.num.symm⟩

theorem refl (mp : BuddyMempool) : SameShape mp mp := ⟨rfl, rfl, rfl, rfl⟩

theorem trans (h : SameShape mp mp') (h' : SameShape mp' mp'') : SameShape mp mp'' :=
  ⟨h'.base.trans h.base, h'.pool.trans h.pool, h'.min.trans h.min, h'.num.trans h.num⟩

theorem geometry (h : SameShape mp mp') (g : Geometry mp) : Geometry mp' :=
  g.of_eq h.base h.pool h.min h.num

theorem busy_iff (h : SameShape mp mp') {U : Multiset Block} {x : ℕ} :
    Busy mp' U x ↔ Busy mp U x := by
  unfold Busy
  rw [h.base, h.pool]

end SameShape

/-- The pool after `mark_available`/`mark_allocated` at offset `o`. -/
def setTag (mp : BuddyMempool) (o : ℕ) (v : Bool) : BuddyMempool :=
  { mp with tagBits := Function.update mp.tagBits (o >>> mp.minOrder) v }

theorem markAvailable_eq {mp : BuddyMempool} (g : Geometry mp) {o : ℕ}
    (ho : o < 2 ^ mp.poolOrder) :
    markAvailable mp (mp.baseAddr + o) = .ok (setTag mp o true) := by
  rw [markAvailable, g.blockToId_eq ho]
  rfl

theorem markAllocated_eq {mp : BuddyMempool} (g : Geometry mp) {o : ℕ}
    (ho : o < 2 ^ mp.poolOrder) :
    markAllocated mp (mp.baseAddr + o) = .ok (setTag mp o false) := by
  rw [markAllocated, g.blockToId_eq ho]
  rfl

theorem isAvailable_eq {mp : BuddyMempool} (g : Geometry mp) {o : ℕ}
    (ho : o < 2 ^ mp.poolOrder) : isAvailable mp (mp.baseAddr + o) = .ok (tag mp o) := by
  rw [isAvailable, g.blockToId_eq ho]
  rfl

theorem tag_setTag_same (mp : BuddyMempool) (o : ℕ) (v : Bool) : tag (setTag mp o v) o = v := by
  simp [tag, setTag]

theorem tag_setTag_of_ne {mp : BuddyMempool} {o o' : ℕ} {v : Bool}
    (h : o' >>> mp.minOrder ≠ o >>> mp.minOrder) : tag (setTag mp o v) o' = tag mp o' := by
  simp [tag, setTag, Function.update_of_ne h]

theorem shape_setTag (mp : BuddyMempool) (o : ℕ) (v : Bool) : SameShape mp (setTag mp o v) :=
  ⟨rfl, rfl, rfl, rfl⟩

theorem mem_avail_listAdd {mp : BuddyMempool} {a k j x : ℕ} :
    x ∈ (listAdd mp a k).avail j ↔ (j = k ∧ x = a) ∨ x ∈ mp.avail j := by
  by_cases hj : j = k
  · subst hj
    simp [listAdd]
  · simp [listAdd, hj]

theorem shape_avail (mp : BuddyMempool) (f : ℕ → List ℕ) :
    SameShape mp { mp with avail := f } := ⟨rfl, rfl, rfl, rfl⟩

theorem shape_listAdd (mp : BuddyMempool) (a k : ℕ) : SameShape mp (listAdd mp a k) :=
  ⟨rfl, rfl, rfl, rfl⟩

namespace Inv

variable {m : Mem} {mp : BuddyMempool} {H U : Multiset Block}

/-- **Listing a tile.** A tile in hand whose buddy is not on the free list of its order
goes on that list: its order word is written, its tag bit set. -/
theorem list_hand {b : Block} (h : Inv m mp (b ::ₘ H) U)
    (hbuddy : b.order < mp.poolOrder → mp.baseAddr + b.buddy.off ∉ mp.avail b.order) :
    Inv (writeOrder m (mp.baseAddr + b.off) b.order)
      (listAdd (setTag mp b.off true) (mp.baseAddr + b.off) b.order) H U := by
  have hb : b ∈ b ::ₘ H + U + freeBlocks mp := by simp
  have hle := h.tiling.order_le hb
  have htile : b ::ₘ H + U + freeBlocks mp = b ::ₘ (H + U + freeBlocks mp) := by
    rw [Multiset.cons_add, Multiset.cons_add]
  have htil := h.tiling
  rw [htile] at htil
  -- what is listed under this address and order is the block in hand
  have hblk : blk mp (mp.baseAddr + b.off) b.order = b := by simp [blk]
  refine ⟨(shape_listAdd _ _ _).geometry ((shape_setTag _ _ _).geometry h.geom), ?_, ?_, ?_, ?_,
    ?_⟩
  · intro j a ha
    rcases mem_avail_listAdd.1 ha with ⟨rfl, rfl⟩ | ha'
    · refine ⟨h.hand b (Multiset.mem_cons_self b H), hle, Nat.le_add_right _ _, ?_, ?_⟩
      · show tag (setTag mp b.off true) (mp.baseAddr + b.off - mp.baseAddr) = true
        rw [Nat.add_sub_cancel_left, tag_setTag_same]
      · have hp := h.geom.pool_lt
        simp only [readOrder, writeOrder, read64_write64_same, BitVec.toNat_ofNat]
        exact Nat.mod_eq_of_lt (lt_of_le_of_lt hle
          (lt_of_lt_of_le hp (by norm_num)))
    · obtain ⟨h1, h2, h3, h4, h5⟩ := h.listed j a ha'
      have hne : blk mp a j ≠ b := fun heq =>
        htil.notMem_of_cons (Multiset.mem_add.2 (.inr (heq ▸ h.mem_free_of_mem ha')))
      refine ⟨h1, h2, h3, ?_, (h.readOrder_writeOrder hb ha' hne).trans h5⟩
      show tag (setTag mp b.off true) (a - mp.baseAddr) = true
      by_cases hid : (a - mp.baseAddr) >>> mp.minOrder = b.off >>> mp.minOrder
      · simp [tag, setTag, hid]
      · rw [tag_setTag_of_ne hid, h4]
  · intro c hc
    obtain ⟨h1, h2⟩ := h.used c hc
    refine ⟨h1, ?_⟩
    have hc' : c ∈ H + U + freeBlocks mp := by simp [hc]
    have hoff : c.off ≠ b.off := fun heq =>
      htil.not_covers_of_cons hc' b.covers_off (heq ▸ c.covers_off)
    have hdc : 2 ^ mp.minOrder ∣ c.off := h.min_dvd_off (by rw [htile]; simp [hc])
    show tag (setTag mp b.off true) c.off = false
    rw [tag_setTag_of_ne (shiftRight_ne hdc (h.min_dvd_off hb) hoff), h2]
  · exact fun c hc => h.hand c (Multiset.mem_cons_of_mem hc)
  · show Tiling mp.poolOrder _
    have hfree : freeBlocks (listAdd (setTag mp b.off true) (mp.baseAddr + b.off) b.order)
        = b ::ₘ freeBlocks mp :=
      (freeBlocks_listAdd (setTag mp b.off true) hle _).trans
        (congrArg (· ::ₘ freeBlocks mp) hblk)
    rw [hfree, Multiset.add_cons]
    exact htil
  · -- the new block's buddy is not listed, and the old pairs are as before
    intro j hj a ha c hc heq
    have hjp : j < mp.poolOrder := hj
    change blk mp c j = (blk mp a j).buddy at heq
    rcases mem_avail_listAdd.1 ha with ⟨rfl, rfl⟩ | ha' <;>
      rcases mem_avail_listAdd.1 hc with ⟨hjb, rfl⟩ | hc'
    · rw [hblk] at heq
      exact b.buddy_ne heq.symm
    · rw [hblk] at heq
      refine hbuddy hjp ?_
      have := h.exists_mem_avail (heq ▸ h.mem_free_of_mem hc')
      exact this
    · subst hjb
      rw [hblk] at heq
      refine hbuddy hjp ?_
      have hba : b.buddy = blk mp a b.order :=
        (congrArg Block.buddy heq).trans (Block.buddy_buddy _)
      have := h.mem_free_of_mem ha'
      rw [← hba] at this
      exact h.exists_mem_avail this
    · exact h.merged j hjp a ha' c hc' heq

/-- A store to the order word of a tile in hand leaves the busy bytes alone. -/
theorem writeOrder_of_busy {b : Block} (h : Inv m mp (b ::ₘ H) U) {v x : ℕ}
    (hx : Busy mp U x) : writeOrder m (mp.baseAddr + b.off) v x = m x := by
  have hb : b ∈ b ::ₘ H + U + freeBlocks mp := by simp
  have h32 := h.two_pow_order_ge hb
  have hend := h.tiling.off_add_le hb
  refine write64_of_notMem ?_
  rcases hx with hout | ⟨c, hc, hle, hcov⟩
  · omega
  · have htil := h.tiling
    rw [Multiset.cons_add, Multiset.cons_add] at htil
    by_contra hno
    refine htil.not_covers_of_cons (c := c) (by simp [hc]) (x := x - mp.baseAddr) ?_ hcov
    exact ⟨by omega, by omega⟩

/-- Halving a tile in hand. -/
theorem split_hand {o k : ℕ} (h : Inv m mp (⟨o, k + 1⟩ ::ₘ H) U) (hk : mp.minOrder ≤ k) :
    Inv m mp (⟨o + 2 ^ k, k⟩ ::ₘ ⟨o, k⟩ ::ₘ H) U where
  geom := h.geom
  listed := h.listed
  used := h.used
  hand b hb := by
    rcases Multiset.mem_cons.1 hb with rfl | hb
    · exact hk
    rcases Multiset.mem_cons.1 hb with rfl | hb
    · exact hk
    · exact h.hand b (Multiset.mem_cons_of_mem hb)
  tiling := by
    have htil := h.tiling
    simp only [Multiset.cons_add] at htil ⊢
    have := htil.split
    rwa [Multiset.cons_swap] at this
  merged := h.merged

/-- The tag bit of a tile in hand may be set or cleared. -/
theorem setTag_hand {b : Block} (h : Inv m mp (b ::ₘ H) U) (v : Bool) :
    Inv m (setTag mp b.off v) (b ::ₘ H) U := by
  have hb : b ∈ b ::ₘ H + U + freeBlocks mp := by simp
  have htil := h.tiling
  rw [Multiset.cons_add, Multiset.cons_add] at htil
  -- every other tile starts elsewhere and so has another tag bit
  have hother : ∀ c ∈ H + U + freeBlocks mp, tag (setTag mp b.off v) c.off = tag mp c.off := by
    intro c hc
    have hoff : c.off ≠ b.off := fun heq =>
      htil.not_covers_of_cons hc b.covers_off (heq ▸ c.covers_off)
    have hc' : c ∈ b ::ₘ H + U + freeBlocks mp := by
      rw [Multiset.cons_add, Multiset.cons_add]
      exact Multiset.mem_cons_of_mem hc
    exact tag_setTag_of_ne (shiftRight_ne (h.min_dvd_off hc') (h.min_dvd_off hb) hoff)
  refine ⟨(shape_setTag _ _ _).geometry h.geom, ?_, ?_, h.hand, h.tiling, h.merged⟩
  · intro j a ha
    obtain ⟨h1, h2, h3, h4, h5⟩ := h.listed j a ha
    refine ⟨h1, h2, h3, ?_, h5⟩
    have := hother (blk mp a j) (Multiset.mem_add.2 (.inr (h.mem_free_of_mem ha)))
    exact this.trans h4
  · intro c hc
    obtain ⟨h1, h2⟩ := h.used c hc
    exact ⟨h1, (hother c (by simp [hc])).trans h2⟩

/-- Taking the first block off a free list. -/
theorem pop {j a : ℕ} {rest : List ℕ} (h : Inv m mp H U) (hav : mp.avail j = a :: rest) :
    Inv m { mp with avail := Function.update mp.avail j rest } (blk mp a j ::ₘ H) U := by
  have ha : a ∈ mp.avail j := by rw [hav]; exact List.mem_cons_self
  have hsub : ∀ i x, x ∈ Function.update mp.avail j rest i → x ∈ mp.avail i := by
    intro i x hx
    by_cases hi : i = j
    · subst hi
      rw [Function.update_self] at hx
      rw [hav]
      exact List.mem_cons_of_mem a hx
    · rwa [Function.update_of_ne hi] at hx
  refine ⟨h.geom.of_eq rfl rfl rfl rfl, fun i x hx => h.listed i x (hsub i x hx), h.used, ?_, ?_,
    fun i hi x hx y hy => h.merged i hi x (hsub i x hx) y (hsub i y hy)⟩
  · intro b hb
    rcases Multiset.mem_cons.1 hb with rfl | hb
    · exact (h.listed j a ha).1
    · exact h.hand b hb
  · have htil := h.tiling
    rw [freeBlocks_pop (h.listed j a ha).2.1 hav, Multiset.add_cons] at htil
    rw [Multiset.cons_add, Multiset.cons_add]
    exact htil

/-- Handing out the tile in hand, once its tag bit is clear. -/
theorem hand_out {b : Block} (h : Inv m mp (b ::ₘ H) U) (htag : tag mp b.off = false) :
    Inv m mp H (b ::ₘ U) where
  geom := h.geom
  listed := h.listed
  used c hc := by
    rcases Multiset.mem_cons.1 hc with rfl | hc
    · exact ⟨h.hand c (Multiset.mem_cons_self c H), htag⟩
    · exact h.used c hc
  hand c hc := h.hand c (Multiset.mem_cons_of_mem hc)
  tiling := by
    have htil := h.tiling
    rw [Multiset.cons_add] at htil
    rwa [Multiset.add_cons]
  merged := h.merged

/-- One pass of the trim loop. -/
theorem trim_step {o k : ℕ} (h : Inv m mp {⟨o, k + 1⟩} U) (hk : mp.minOrder ≤ k) :
    Inv (writeOrder m (mp.baseAddr + (o + 2 ^ k)) k)
      (listAdd (setTag mp (o + 2 ^ k) true) (mp.baseAddr + (o + 2 ^ k)) k) {⟨o, k⟩} U := by
  have hs := h.split_hand hk
  refine hs.list_hand (b := ⟨o + 2 ^ k, k⟩) fun _ hmem => ?_
  -- the buddy of the upper half is the lower half, which is in hand
  have ho : 2 ^ (k + 1) ∣ o := h.tiling.aligned ⟨o, k + 1⟩ (by simp)
  have hbud : (⟨o + 2 ^ k, k⟩ : Block).buddy = ⟨o, k⟩ := by
    rw [← Block.buddy_of_dvd ho, Block.buddy_buddy]
  have hfree := hs.mem_free_of_mem hmem
  rw [show blk mp (mp.baseAddr + (⟨o + 2 ^ k, k⟩ : Block).buddy.off)
    (⟨o + 2 ^ k, k⟩ : Block).order = ⟨o, k⟩ by rw [hbud]; simp [blk]] at hfree
  have htil := hs.tiling
  rw [Multiset.cons_swap, Multiset.cons_add, Multiset.cons_add] at htil
  exact htil.notMem_of_cons (Multiset.mem_add.2 (.inr hfree))

/-- A turn of the trim loop lists the upper half. -/
theorem allocTrim_succ {o order n : ℕ} (h : Inv m mp {⟨o, order + (n + 1)⟩} U) :
    allocTrim (mp.baseAddr + o) order (n + 1) m mp =
      allocTrim (mp.baseAddr + o) order n
        (writeOrder m (mp.baseAddr + (o + 2 ^ (order + n))) (order + n))
        (listAdd (setTag mp (o + 2 ^ (order + n)) true)
          (mp.baseAddr + (o + 2 ^ (order + n))) (order + n)) := by
  have hb : (⟨o, order + (n + 1)⟩ : Block) ∈ {⟨o, order + (n + 1)⟩} + U + freeBlocks mp := by
    simp
  have hend := h.tiling.off_add_le hb
  have hpow : 2 ^ (order + (n + 1)) = 2 ^ (order + n) + 2 ^ (order + n) := by
    rw [← Nat.add_assoc, pow_succ]; ring
  have hpos := Nat.two_pow_pos (order + n)
  have hord := h.tiling.order_le hb
  have hpool := h.geom.pool_lt
  have hbase := h.geom.base_le
  simp only [hpow] at hend
  simp only at hord
  have haddr : (mp.baseAddr + o + shl64 (order + n)) % 2 ^ 64
      = mp.baseAddr + (o + 2 ^ (order + n)) := by
    rw [shl64_of_lt (by omega), Nat.mod_eq_of_lt (by omega), Nat.add_assoc]
  rw [allocTrim]
  simp only [haddr, markAvailable_eq h.geom (o := o + 2 ^ (order + n)) (by omega)]
  rfl

end Inv

/-- The trim loop brings the block in hand down to the requested order. -/
theorem allocTrim_spec {o order : ℕ} {U : Multiset Block} :
    ∀ (n : ℕ) {m : Mem} {mp : BuddyMempool}, Inv m mp {⟨o, order + n⟩} U →
      mp.minOrder ≤ order → tag mp o = false →
      ∃ m' mp', allocTrim (mp.baseAddr + o) order n m mp = .ok (m', mp') ∧
        Inv m' mp' {⟨o, order⟩} U ∧ tag mp' o = false ∧ SameShape mp mp' ∧
        ∀ x, Busy mp U x → m' x = m x := by
  intro n
  induction n with
  | zero => exact fun h _ htag => ⟨_, _, rfl, h, htag, .refl _, fun _ _ => rfl⟩
  | succ n ih =>
    intro m mp h hmin htag
    have hb : (⟨o, order + (n + 1)⟩ : Block) ∈ {⟨o, order + (n + 1)⟩} + U + freeBlocks mp := by
      simp
    have hpos := Nat.two_pow_pos (order + n)
    have hstep := h.trim_step (k := order + n) (le_trans hmin (Nat.le_add_right _ _))
    have htag' : tag (listAdd (setTag mp (o + 2 ^ (order + n)) true)
        (mp.baseAddr + (o + 2 ^ (order + n))) (order + n)) o = false := by
      -- the upper half's tag bit is not the lower half's
      have hdo : 2 ^ mp.minOrder ∣ o := h.min_dvd_off hb
      have hdu : 2 ^ mp.minOrder ∣ o + 2 ^ (order + n) :=
        Nat.dvd_add hdo (pow_dvd_pow 2 (le_trans hmin (Nat.le_add_right _ _)))
      exact (tag_setTag_of_ne (Inv.shiftRight_ne hdo hdu (by omega))).trans htag
    obtain ⟨m', mp', hrun, hinv, ht, hshape, hframe⟩ := ih hstep hmin htag'
    refine ⟨m', mp', ?_, hinv, ht, ?_, ?_⟩
    · rw [h.allocTrim_succ]
      exact hrun
    · exact ((shape_setTag _ _ _).trans (shape_listAdd _ _ _)).trans hshape
    · intro x hx
      have hsplit := h.split_hand (k := order + n) (le_trans hmin (Nat.le_add_right _ _))
      rw [hframe x hx]
      exact hsplit.writeOrder_of_busy hx

/-- What a call of `buddy_alloc` for blocks of order `order` comes back with. -/
def AllocResult (m : Mem) (mp : BuddyMempool) (U : Multiset Block) (order : ℕ)
    (r : ℕ × Mem × BuddyMempool) : Prop :=
  (r = (0, m, mp) ∧ ∀ i, order ≤ i → mp.avail i = []) ∨
    ∃ o, r.1 = mp.baseAddr + o ∧ Inv r.2.1 r.2.2 0 (⟨o, order⟩ ::ₘ U) ∧ SameShape mp r.2.2 ∧
      ∀ x, Busy mp U x → r.2.1 x = m x

/-- Taking a block off the list of order `j` and trimming it to `order`. -/
theorem alloc_from_list {m : Mem} {mp : BuddyMempool} {U : Multiset Block} {order j a : ℕ}
    {rest : List ℕ} (h : Inv m mp 0 U) (hmin : mp.minOrder ≤ order) (hj : order ≤ j)
    (hav : mp.avail j = a :: rest) :
    ∃ mp₁ m' mp', markAllocated { mp with avail := Function.update mp.avail j rest } a = .ok mp₁ ∧
      allocTrim a order (j - order) m mp₁ = .ok (m', mp') ∧
      AllocResult m mp U order (a, m', mp') := by
  have ha : a ∈ mp.avail j := by rw [hav]; exact List.mem_cons_self
  obtain ⟨_, hjp, hle, _, _⟩ := h.listed j a ha
  obtain ⟨o, rfl⟩ := Nat.exists_eq_add_of_le hle
  have ho : o < 2 ^ mp.poolOrder := by simpa [blk] using h.lt_pool (h.tile_of_mem ha)
  have hpop := h.pop hav
  have hblk : blk mp (mp.baseAddr + o) j = ⟨o, order + (j - order)⟩ := by
    rw [Nat.add_sub_cancel' hj]; simp [blk]
  rw [hblk] at hpop
  have hmark := hpop.setTag_hand false
  set mp₀ : BuddyMempool := { mp with avail := Function.update mp.avail j rest } with hmp₀
  obtain ⟨m', mp', hrun, hinv, htag, hshape, hframe⟩ :=
    allocTrim_spec (j - order) hmark hmin (tag_setTag_same _ _ _)
  refine ⟨setTag mp₀ o false, m', mp', markAllocated_eq hpop.geom ho, hrun,
    .inr ⟨o, rfl, hinv.hand_out htag, ?_, fun x hx => hframe x hx⟩⟩
  exact ((shape_avail mp _).trans (shape_setTag mp₀ o false)).trans hshape

/-- The scan takes the first block of the lowest non-empty list. -/
theorem allocScan_spec {order : ℕ} {U : Multiset Block} {m : Mem} {mp : BuddyMempool}
    (h : Inv m mp 0 U) (hmin : mp.minOrder ≤ order) :
    ∀ (n j : ℕ), order ≤ j → j + n = mp.poolOrder + 1 →
      (∀ i, order ≤ i → i < j → mp.avail i = []) →
      ∃ r, allocScan order n j m mp = .ok r ∧ AllocResult m mp U order r := by
  intro n
  -- the lists looked at so far are empty, which is what a refusal reports
  induction n with
  | zero =>
    intro j _ hjn hempty
    refine ⟨_, rfl, .inl ⟨rfl, fun i hi => ?_⟩⟩
    by_cases hij : i < j
    · exact hempty i hi hij
    · -- no list beyond the pool's order is used
      rw [List.eq_nil_iff_forall_not_mem]
      intro a ha
      have := (h.listed i a ha).2.1
      omega
  | succ n ih =>
    intro j hj hjn hempty
    rw [allocScan]
    cases hav : mp.avail j with
    | nil =>
      refine ih (j + 1) (by omega) (by omega) fun i hi hij => ?_
      by_cases hij' : i = j
      · rw [hij', hav]
      · exact hempty i hi (by omega)
    | cons a rest =>
      -- the first block of this list is taken and trimmed
      obtain ⟨mp₁, m', mp', hmark, htrim, hres⟩ := alloc_from_list h hmin hj hav
      refine ⟨_, ?_, hres⟩
      simp only [hmark, bind, Except.bind, htrim]
      rfl

/-- The order a request is raised to. -/
def effOrder (mp : BuddyMempool) (order : ℕ) : ℕ :=
  if order < mp.minOrder then mp.minOrder else order

theorem effOrder_eq_max (mp : BuddyMempool) (order : ℕ) :
    effOrder mp order = max order mp.minOrder := by
  unfold effOrder
  split <;> omega

/-- `buddy_alloc` never stops: it finds nothing and changes nothing, or hands out a block of
the requested order. -/
theorem buddyAlloc_spec {m : Mem} {mp : BuddyMempool} {U : Multiset Block} {order : ℕ}
    (h : Inv m mp 0 U) (hord : order ≤ mp.poolOrder) :
    ∃ r, buddyAlloc m mp order = .ok r ∧ AllocResult m mp U (effOrder mp order) r := by
  have hmin : mp.minOrder ≤ effOrder mp order := by rw [effOrder_eq_max]; exact Nat.le_max_right _ _
  have hle : effOrder mp order ≤ mp.poolOrder := by
    rw [effOrder_eq_max]; exact Nat.max_le.2 ⟨hord, h.geom.min_le⟩
  rw [buddyAlloc, if_neg (by omega)]
  exact allocScan_spec h hmin _ _ (le_refl _)
    (show effOrder mp order + (mp.poolOrder + 1 - effOrder mp order) = mp.poolOrder + 1 by omega)
    (fun _ h1 h2 => absurd h2 (Nat.not_lt.2 h1))

end Buddy

end Petmem
