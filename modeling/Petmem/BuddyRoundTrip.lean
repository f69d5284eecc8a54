import Petmem.BuddyRuns

/-!
# Allocating and freeing one block

`buddy_alloc` takes the first block of the lowest list that has one and lists the upper halves it
trims off, one on each of the empty lists below (`Taken`). `buddy_free` of the block it returned
meets exactly these halves on its way up, and stops at the list the block came from, because the
buddy of a listed block is not listed (`freeMerge_retrace`). So the two cancel.

The tag bits do not go back the same way: `buddy_free` sets the bit of the merged block only, and
leaves the bits of the halves as they are. A block that was merged into its lower buddy keeps a
clear bit, and a second `buddy_free` of it is not noticed.
-/

namespace Petmem
namespace Buddy

open Dyadic ByteMemory

/-! ## What an allocation does to the lists and the tags -/

/-- The trim loop lists one upper half at each order it passes. -/
theorem allocTrim_lists {o order : ℕ} {U : Multiset Block} :
    ∀ (n : ℕ) {m m' : Mem} {mp mp' : BuddyMempool}, Inv m mp {⟨o, order + n⟩} U →
      mp.minOrder ≤ order → allocTrim (mp.baseAddr + o) order n m mp = .ok (m', mp') →
      (∀ i, mp'.avail i = if order ≤ i ∧ i < order + n then
        (mp.baseAddr + (o + 2 ^ i)) :: mp.avail i else mp.avail i) ∧
      ∀ x, mp'.tagBits x = true ↔ mp.tagBits x = true ∨
        ∃ i, order ≤ i ∧ i < order + n ∧ x = (o + 2 ^ i) >>> mp.minOrder := by
  intro n
  induction n with
  | zero =>
    intro m m' mp mp' _ _ hrun
    obtain ⟨-, rfl⟩ := Prod.mk.inj (Except.ok.inj hrun)
    refine ⟨fun i => by rw [if_neg (by omega)], fun x => ⟨.inl, ?_⟩⟩
    rintro (h | ⟨i, h1, h2, -⟩)
    · exact h
    · omega
  | succ n ih =>
    intro m m' mp mp' h hmin hrun
    have hstep := h.trim_step (k := order + n) (le_trans hmin (Nat.le_add_right _ _))
    rw [h.allocTrim_succ] at hrun
    -- this turn lists the upper half at order + n, the later ones are below it
    obtain ⟨hlists, htags⟩ := ih hstep hmin hrun
    refine ⟨fun i => ?_, fun x => ?_⟩
    · rw [hlists i]
      -- the half of this turn, or one of a later turn
      by_cases hi : i = order + n
      · subst hi
        rw [if_neg (by omega), if_pos (by omega)]
        simp [listAdd, setTag]
      · have hother : (listAdd (setTag mp (o + 2 ^ (order + n)) true)
            (mp.baseAddr + (o + 2 ^ (order + n))) (order + n)).avail i = mp.avail i := by
          simp [listAdd, setTag, hi]
        rw [hother]
        by_cases hin : order ≤ i ∧ i < order + n
        · rw [if_pos hin, if_pos (by omega)]
          rfl
        · rw [if_neg hin, if_neg (by omega)]
    · rw [htags x]
      have htag : (listAdd (setTag mp (o + 2 ^ (order + n)) true)
          (mp.baseAddr + (o + 2 ^ (order + n))) (order + n)).tagBits x = true ↔
          x = (o + 2 ^ (order + n)) >>> mp.minOrder ∨ mp.tagBits x = true := by
        by_cases hx : x = (o + 2 ^ (order + n)) >>> mp.minOrder
        · simp [listAdd, setTag, hx]
        · simp [listAdd, setTag, hx]
      rw [htag]
      constructor
      · rintro ((hx | hx) | ⟨i, h1, h2, hx⟩)
        · exact .inr ⟨order + n, by omega, by omega, hx⟩
        · exact .inl hx
        · exact .inr ⟨i, h1, by omega, hx⟩
      · rintro (hx | ⟨i, h1, h2, hx⟩)
        · exact .inl (.inr hx)
        · by_cases hi : i = order + n
          · subst hi
            exact .inl (.inl hx)
          · exact .inr ⟨i, h1, by omega, hx⟩

/-- The block of order `order` at offset `o` was taken from the list of order `j`. -/
structure Taken (mp : BuddyMempool) (order j o : ℕ) (rest : List ℕ) (mp' : BuddyMempool) :
    Prop where
  le : order ≤ j
  list : mp.avail j = (mp.baseAddr + o) :: rest
  below : ∀ i, order ≤ i → i < j → mp.avail i = []
  avail : ∀ i, mp'.avail i = if i = j then rest else
    if order ≤ i ∧ i < j then [mp.baseAddr + (o + 2 ^ i)] else mp.avail i
  tags : ∀ x, mp'.tagBits x = true ↔ (mp.tagBits x = true ∧ x ≠ o >>> mp.minOrder) ∨
    ∃ i, order ≤ i ∧ i < j ∧ x = (o + 2 ^ i) >>> mp.minOrder

/-- The scan stops at the lowest list that has a block. -/
theorem allocScan_taken {order : ℕ} {U : Multiset Block} {m m' : Mem} {mp mp' : BuddyMempool}
    {b : ℕ} (h : Inv m mp 0 U) (hmin : mp.minOrder ≤ order) (hb : b ≠ 0) :
    ∀ n j, order ≤ j → (∀ i, order ≤ i → i < j → mp.avail i = []) →
      allocScan order n j m mp = .ok (b, m', mp') →
      ∃ j o rest, b = mp.baseAddr + o ∧ Taken mp order j o rest mp' := by
  intro n
  induction n with
  | zero =>
    intro j _ _ hrun
    exact absurd (Prod.mk.inj (Except.ok.inj hrun)).1.symm hb
  | succ n ih =>
    intro j hj hempty hrun
    rw [allocScan] at hrun
    cases hav : mp.avail j with
    | nil =>
      rw [hav] at hrun
      -- an empty list is passed over
      refine ih (j + 1) (by omega) (fun i hi hij => ?_) hrun
      by_cases hij' : i = j
      · rw [hij', hav]
      · exact hempty i hi (by omega)
    | cons a rest =>
      rw [hav] at hrun
      obtain ⟨mp₁, hmark, hrun⟩ := bind_eq_ok.1 hrun
      obtain ⟨⟨m₂, mp₂⟩, htrim, hrun⟩ := bind_eq_ok.1 hrun
      obtain ⟨rfl, hrest⟩ := Prod.mk.inj (Except.ok.inj hrun)
      obtain ⟨rfl, rfl⟩ := Prod.mk.inj hrest
      have ha : a ∈ mp.avail j := by rw [hav]; exact List.mem_cons_self
      obtain ⟨o, rfl⟩ := Nat.exists_eq_add_of_le (h.listed j a ha).2.2.1
      have ho : o < 2 ^ mp.poolOrder := by simpa [blk] using h.lt_pool (h.tile_of_mem ha)
      -- the block leaves its list and is in hand while the loop trims it
      have hpop := h.pop hav
      rw [show blk mp (mp.baseAddr + o) j = ⟨o, order + (j - order)⟩ by
        rw [Nat.add_sub_cancel' hj]; simp [blk]] at hpop
      rw [markAllocated_eq hpop.geom ho] at hmark
      obtain rfl := Except.ok.inj hmark
      obtain ⟨hlists, htags⟩ := allocTrim_lists (j - order) (hpop.setTag_hand false) hmin htrim
      refine ⟨j, o, rest, rfl, hj, hav, hempty, fun i => ?_, fun x => ?_⟩
      · rw [hlists i, Nat.add_sub_cancel' hj]
        by_cases hij : i = j
        · subst hij
          rw [if_neg (by omega), if_pos rfl]
          simp [setTag]
        · rw [if_neg hij]
          by_cases hin : order ≤ i ∧ i < j
          · rw [if_pos hin, if_pos hin]
            simp [setTag, hij, hempty i hin.1 hin.2]
          · rw [if_neg hin, if_neg hin]
            simp [setTag, hij]
      · rw [htags x, Nat.add_sub_cancel' hj]
        refine or_congr ?_ Iff.rfl
        by_cases hx : x = o >>> mp.minOrder
        · simp [setTag, hx]
        · simp [setTag, hx]

/-- What a call that returns a block has done. -/
theorem buddyAlloc_taken {U : Multiset Block} {m m' : Mem} {mp mp' : BuddyMempool} {order b : ℕ}
    (h : Inv m mp 0 U) (hrun : buddyAlloc m mp order = .ok (b, m', mp')) (hb : b ≠ 0) :
    ∃ j o rest, b = mp.baseAddr + o ∧ Taken mp (effOrder mp order) j o rest mp' := by
  unfold buddyAlloc at hrun
  split at hrun
  · cases hrun
  · have hmin : mp.minOrder ≤ effOrder mp order := by
      rw [effOrder_eq_max]
      exact Nat.le_max_right _ _
    exact allocScan_taken h hmin hb _ _ (le_refl _) (fun i h1 h2 => absurd h2 (by omega)) hrun

/-! ## Freeing the block again -/

/-- The merge loop meets the upper halves that were trimmed off, and nothing else. -/
theorem freeMerge_retrace {U : Multiset Block} {o j : ℕ} :
    ∀ (n : ℕ) {m : Mem} {mp : BuddyMempool} {k : ℕ}, Inv m mp {⟨o, k⟩} U → k + n = j →
      j ≤ mp.poolOrder → 2 ^ j ∣ o →
      (∀ i, k ≤ i → i < j → mp.avail i = [mp.baseAddr + (o + 2 ^ i)]) →
      (j < mp.poolOrder → mp.baseAddr + (⟨o, j⟩ : Block).buddy.off ∉ mp.avail j) →
      ∃ m' mp', freeMerge (mp.poolOrder - k) (mp.baseAddr + o) k m mp
          = .ok (mp.baseAddr + o, j, m', mp') ∧ SameShape mp mp' ∧
        ∀ i, mp'.avail i = if k ≤ i ∧ i < j then [] else mp.avail i := by
  intro n
  induction n with
  | zero =>
    intro m mp k h hkj hj ho hlists hstop
    obtain rfl : k = j := by omega
    refine ⟨m, mp, ?_, .refl _, fun i => by rw [if_neg (by omega)]⟩
    -- the loop stops at once, since the buddy is not listed
    cases hn : mp.poolOrder - k with
    | zero => rfl
    | succ n =>
      have hlt : k < mp.poolOrder := by omega
      have hb : o < 2 ^ mp.poolOrder := h.lt_pool (b := ⟨o, k⟩) (by simp)
      have hbud := h.buddy_off_lt (b := ⟨o, k⟩) hlt
      rw [freeMerge]
      simp only [findBuddy_eq h.geom (b := ⟨o, k⟩) hb hbud hlt, isAvailable_eq h.geom hbud, bind,
        Except.bind]
      by_cases htag : tag mp (⟨o, k⟩ : Block).buddy.off = true
      · by_cases hword : readOrder m (mp.baseAddr + (⟨o, k⟩ : Block).buddy.off) = k
        · exact absurd (h.listed_of_tag (b := ⟨o, k⟩) hlt htag hword) (hstop hlt)
        · simp [htag, hword]
          rfl
      · simp [htag]
        rfl
  | succ n ih =>
    intro m mp k h hkj hj ho hlists hstop
    have hlt : k < mp.poolOrder := by omega
    have hb : o < 2 ^ mp.poolOrder := h.lt_pool (b := ⟨o, k⟩) (by simp)
    have hbud := h.buddy_off_lt (b := ⟨o, k⟩) hlt
    have hdvd : 2 ^ (k + 1) ∣ o := (pow_dvd_pow 2 (by omega)).trans ho
    have hbuddy : (⟨o, k⟩ : Block).buddy = ⟨o + 2 ^ k, k⟩ := Block.buddy_of_dvd hdvd
    have hmem : mp.baseAddr + (⟨o, k⟩ : Block).buddy.off ∈ mp.avail k := by
      rw [hlists k (le_refl _) (by omega), hbuddy]
      simp
    obtain ⟨-, -, -, htag, hword⟩ := h.listed _ _ hmem
    rw [Nat.add_sub_cancel_left] at htag
    have hmerge := h.merge_step (b := ⟨o, k⟩) hlt hmem
    rw [Block.parent_of_dvd hdvd] at hmerge
    have hwrite := hmerge.writeOrder_hand (H := 0) (k + 1)
    set mp₁ : BuddyMempool :=
      { mp with avail := fun i => (mp.avail i).erase (mp.baseAddr + (⟨o, k⟩ : Block).buddy.off) }
      with hmp₁
    -- no other list has the buddy
    have hother : ∀ i, i ≠ k → mp₁.avail i = mp.avail i := fun i hi => by
      refine List.erase_of_not_mem fun hc => hi ?_
      exact h.avail_unique hc hmem
    obtain ⟨m', mp', hrun, hshape, hav⟩ := ih (k := k + 1) hwrite (by omega) hj ho
      (fun i h1 h2 => by rw [hother i (by omega)]; exact hlists i (by omega) h2)
      (fun hjlt hc => by
        rw [hother j (by omega)] at hc
        exact hstop hjlt hc)
    refine ⟨m', mp', ?_, (shape_avail mp _).trans hshape, fun i => ?_⟩
    · obtain ⟨r, hr⟩ : ∃ r, mp.poolOrder - k = r + 1 := ⟨mp.poolOrder - k - 1, by omega⟩
      have hr' : mp₁.poolOrder - (k + 1) = r := by
        show mp.poolOrder - (k + 1) = r
        omega
      have hle : ¬ mp.baseAddr + (⟨o, k⟩ : Block).buddy.off < mp.baseAddr + o := by
        rw [hbuddy]
        simp only
        omega
      rw [hr'] at hrun
      rw [hr, freeMerge]
      simp only [findBuddy_eq h.geom (b := ⟨o, k⟩) hb hbud hlt, isAvailable_eq h.geom hbud, bind,
        Except.bind, htag, hword, listDel_eq h hmem, hle, Bool.not_true, Bool.false_eq_true,
        if_false, ne_eq, not_true_eq_false]
      exact hrun
    · rw [hav i]
      by_cases hi : i = k
      · subst hi
        rw [if_neg (by omega), if_pos (by omega)]
        show (mp.avail i).erase _ = []
        rw [hlists i (le_refl _) (by omega), hbuddy]
        simp
      · rw [hother i hi]
        by_cases hin : k + 1 ≤ i ∧ i < j
        · rw [if_pos hin, if_pos (by omega)]
        · rw [if_neg hin, if_neg (by omega)]

/-- The block that was taken goes back to the list it came from. -/
theorem Taken.free {m : Mem} {mp mp' : BuddyMempool} {U : Multiset Block} {order j o : ℕ}
    {rest : List ℕ} (ht : Taken mp (effOrder mp order) j o rest mp') {m₀ : Mem}
    (h₀ : Inv m₀ mp 0 U) (hshape : SameShape mp mp')
    (h : Inv m mp' 0 (⟨o, effOrder mp' order⟩ ::ₘ U)) (hord : order ≤ mp.poolOrder) :
    ∃ m'' mp'', buddyFree m mp' (mp.baseAddr + o) order = .ok (m'', mp'') ∧
      ∀ i, mp''.avail i = mp.avail i := by
  have ha : mp.baseAddr + o ∈ mp.avail j := by
    rw [ht.list]
    exact List.mem_cons_self
  have hjp := (h₀.listed j _ ha).2.1
  have htile := h₀.tile_of_mem ha
  have hblk : blk mp (mp.baseAddr + o) j = ⟨o, j⟩ := by simp [blk]
  rw [hblk] at htile
  have hdvd : 2 ^ j ∣ o := h₀.tiling.aligned _ htile
  have ho : o < 2 ^ mp'.poolOrder := by
    rw [hshape.pool]
    exact h₀.lt_pool htile
  have heff : effOrder mp' order = effOrder mp order := hshape.effOrder_eq order
  -- the halves above the block are listed alone, and the buddy at order `j` is not listed
  have hlists : ∀ i, effOrder mp' order ≤ i → i < j →
      mp'.avail i = [mp'.baseAddr + (o + 2 ^ i)] := fun i h1 h2 => by
    rw [heff] at h1
    rw [ht.avail i, if_neg (by omega), if_pos ⟨h1, h2⟩, hshape.base]
  have hstop : j < mp'.poolOrder → mp'.baseAddr + (⟨o, j⟩ : Block).buddy.off ∉ mp'.avail j := by
    intro hjlt hc
    rw [hshape.pool] at hjlt
    rw [ht.avail j, if_pos rfl, hshape.base] at hc
    have hc' : mp.baseAddr + (⟨o, j⟩ : Block).buddy.off ∈ mp.avail j := by
      rw [ht.list]
      exact List.mem_cons_of_mem _ hc
    refine h₀.merged j hjlt _ ha _ hc' ?_
    rw [hblk]
    simp [blk, Block.buddy]
  have hle := ht.le
  obtain ⟨m₁, mp₁, hrun, hshape₁, hav⟩ := freeMerge_retrace (j - effOrder mp' order)
    h.take_back (by omega) (by rw [hshape.pool]; exact hjp) hdvd hlists hstop
  have hfree := buddyFree_eq h.geom (by rw [hshape.pool]; exact hord) ho
    (h.used _ (Multiset.mem_cons_self _ _)).2 hrun hshape₁ ho
  rw [hshape.base] at hfree
  refine ⟨_, _, hfree, fun i => ?_⟩
  by_cases hi : i = j
  · subst hi
    have : mp₁.avail i = rest := by
      rw [hav i, if_neg (by omega), ht.avail i, if_pos rfl]
    simp [listAdd, setTag, this, ht.list]
  · have hkeep : (listAdd (setTag mp₁ o true) (mp.baseAddr + o) j).avail i = mp₁.avail i := by
      simp [listAdd, setTag, hi]
    rw [hkeep, hav i]
    by_cases hin : effOrder mp' order ≤ i ∧ i < j
    · rw [if_pos hin, ht.below i (by rw [← heff]; exact hin.1) hin.2]
    · rw [if_neg hin, ht.avail i, if_neg hi, if_neg (by rw [← heff]; exact hin)]

/-- **Round trip.** In every reachable state a block that `buddy_alloc` returns can be freed at
once, whatever was written into it, and that restores every free list in its order. -/
theorem alloc_free_round_trip {base pool min : ℕ} {mp₀ mp₁ : BuddyMempool} {m₀ m₁ : Mem}
    (hinit : buddyInit base pool min = some mp₀) (hbase : base ≠ 0)
    (hspace : base + 2 ^ pool ≤ 2 ^ 64)
    (hfree : buddyFree m₀ mp₀ base pool = .ok (m₁, mp₁)) {s : PoolState}
    (hs : Relation.ReflTransGen PoolStep ⟨m₁, mp₁, []⟩ s) {order b : ℕ} {m m' : Mem}
    {mp : BuddyMempool} (hord : order ≤ s.mp.poolOrder)
    (halloc : buddyAlloc s.mem s.mp order = .ok (b, m, mp)) (hb : b ≠ 0)
    (hclient : ∀ x, ¬ InBlock b (max order s.mp.minOrder) x → m' x = m x) :
    ∃ m'' mp'', buddyFree m' mp b order = .ok (m'', mp'') ∧
      ∀ j, mp''.avail j = s.mp.avail j := by
  obtain ⟨m₁', mp₁', hrun, hinv, -, -⟩ := start_spec m₀ hinit hbase hspace
  rw [hfree] at hrun
  cases hrun
  have h := (runInv_of_reaches hinv hs).1
  obtain ⟨j, o, rest, rfl, ht⟩ := buddyAlloc_taken h.inv halloc hb
  -- the state after the allocation and the client's stores
  obtain ⟨hout, hshape⟩ := h.step (.alloc hord halloc)
  rw [if_neg hb] at hout
  obtain ⟨hout', -⟩ := hout.step (t := ⟨m', mp, (s.mp.baseAddr + o, order) :: s.out⟩)
    (.client fun x hx => hclient x fun hin => by
      refine hx _ List.mem_cons_self ?_
      show InBlock _ (max order mp.minOrder) x
      rw [show mp.minOrder = s.mp.minOrder from hshape.min]
      exact hin)
  have hinv' := hout'.inv
  have hshape' : SameShape s.mp mp := hshape
  simp only [outBlocks_cons, hshape'.outBlocks_eq] at hinv'
  rw [show blk s.mp (s.mp.baseAddr + o) (effOrder s.mp order) = ⟨o, effOrder mp order⟩ by
    rw [hshape'.effOrder_eq]; simp [blk]] at hinv'
  exact ht.free h.inv hshape' hinv' hord

/-- The lower half of a pool of 64 bytes is allocated, filled with ones and freed. -/
theorem alloc_free_round_trip_of_64_bytes :
    ∃ mp₀ m₁ mp₁ m mp, buddyInit 4096 6 0 = some mp₀ ∧
      buddyFree (fun _ => 0) mp₀ 4096 6 = .ok (m₁, mp₁) ∧
      buddyAlloc m₁ mp₁ 5 = .ok (4096, m, mp) ∧
      ∃ m'' mp'', buddyFree (fun x => if InBlock 4096 5 x then 1 else m x) mp 4096 5
          = .ok (m'', mp'') ∧ ∀ j, mp''.avail j = mp₁.avail j := by
  obtain ⟨mp₀, hinit, m₁, mp₁, hfree, m, mp, halloc, hpool, hmin⟩ :
      ∃ mp₀, buddyInit 4096 6 0 = some mp₀ ∧ ∃ m₁ mp₁,
        buddyFree (fun _ => 0) mp₀ 4096 6 = .ok (m₁, mp₁) ∧ ∃ m mp,
        buddyAlloc m₁ mp₁ 5 = .ok (4096, m, mp) ∧ mp₁.poolOrder = 6 ∧ mp₁.minOrder = 5 :=
    ⟨_, rfl, _, _, rfl, _, _, rfl, rfl, rfl⟩
  refine ⟨mp₀, m₁, mp₁, m, mp, hinit, hfree, halloc, ?_⟩
  refine alloc_free_round_trip hinit (by decide) (by norm_num) hfree .refl (by simp [hpool]) halloc
    (by decide) fun x hx => ?_
  simp only [hmin, Nat.max_self] at hx
  rw [if_neg hx]

end Buddy

end Petmem
