import Petmem.AddMemory
import Petmem.Leaks
import Petmem.Machine
import Petmem.SwapBitmap
import Mathlib.Algebra.Order.BigOperators.Group.List
import Mathlib.Algebra.Order.BigOperators.Group.Multiset

/-!
# Where the pages are

`buddy_dump_mempool` prints the length of every free list of a pool. The printed figures account
for the memory of the pools: the bytes of the listed blocks and of the outstanding frames add up to
the size of the ranges that were added, in every state of the machine (`accounts_balance`).

The balance gives the price of a page fault. A fault takes one frame for each level of the walk
that is missing, and no page is evicted for it if and only if the pools list that many
(`fault_cost`).
-/

namespace Petmem

open ByteMemory Dyadic Buddy

/-! ## One pool -/

namespace Buddy

/-- The bytes on the free lists, as they are printed. -/
def MempoolDump.bytes (d : MempoolDump) : ℕ := (d.numBlocks.map fun p => 2 ^ p.1 * p.2).sum

/-- The sizes of blocks that are gathered list by list. -/
theorem sum_size_finset_sum (t : Finset ℕ) (F : ℕ → Multiset Block) :
    ((∑ j ∈ t, F j).map fun b => 2 ^ b.order).sum
      = ∑ j ∈ t, ((F j).map fun b => 2 ^ b.order).sum := by
  induction t using Finset.induction_on with
  | empty => simp
  | insert j t hj ih =>
    rw [Finset.sum_insert hj, Finset.sum_insert hj, Multiset.map_add, Multiset.sum_add, ih]

variable {m : Mem} {mp : BuddyMempool} {H U : Multiset Block}

/-- The figures of a dump count the bytes of the listed blocks. -/
theorem Inv.bytes_dump (h : Inv m mp H U) :
    ((freeBlocks mp).map fun b => 2 ^ b.order).sum = (buddyDumpMempool mp).bytes := by
  have hlist : ∀ j, (((mp.avail j : Multiset ℕ).map fun a => blk mp a j).map
      fun b => 2 ^ b.order).sum = 2 ^ j * (mp.avail j).length := by
    intro j
    rw [Multiset.map_map]
    simp only [Function.comp_def, blk, Multiset.map_const', Multiset.coe_card,
      Multiset.sum_replicate]
    exact Nat.mul_comm _ _
  have hmin := h.geom.min_le
  have hsplit : List.range (mp.poolOrder + 1) = List.range' 0 mp.minOrder ++
      List.range' mp.minOrder (mp.poolOrder + 1 - mp.minOrder) := by
    have happ := @List.range'_append_1 0 mp.minOrder (mp.poolOrder + 1 - mp.minOrder)
    rw [Nat.zero_add, Nat.add_sub_cancel' (by omega)] at happ
    rw [List.range_eq_range', happ]
  -- the lists below the minimum order are empty
  have hlow : ((List.range' 0 mp.minOrder).map fun j => 2 ^ j * (mp.avail j).length).sum = 0 := by
    apply List.sum_eq_zero
    intro x hx
    obtain ⟨j, hj, rfl⟩ := List.mem_map.1 hx
    rw [List.mem_range'_1] at hj
    have hnil : mp.avail j = [] := by
      rw [List.eq_nil_iff_forall_not_mem]
      intro a ha
      have := (h.listed j a ha).1
      omega
    simp [hnil]
  have hrange : ∑ j ∈ Finset.range (mp.poolOrder + 1), 2 ^ j * (mp.avail j).length
      = ((List.range (mp.poolOrder + 1)).map fun j => 2 ^ j * (mp.avail j).length).sum := rfl
  unfold freeBlocks
  rw [sum_size_finset_sum, Finset.sum_congr rfl fun j _ => hlist j, hrange, hsplit, List.map_append,
    List.sum_append, hlow, Nat.zero_add]
  unfold MempoolDump.bytes buddyDumpMempool
  rw [List.map_map]
  rfl

/-- What is used and what is listed make up the pool. -/
theorem Inv.balance (h : Inv m mp 0 U) :
    (U.map fun b => 2 ^ b.order).sum + (buddyDumpMempool mp).bytes = 2 ^ mp.poolOrder := by
  rw [← h.bytes_dump, ← Multiset.sum_add, ← Multiset.map_add, ← h.tiling.sum_size, zero_add]

/-- A dump shows a free block when there is one. -/
theorem Inv.bytes_pos (h : Inv m mp H U) {j : ℕ} (hne : mp.avail j ≠ []) :
    0 < (buddyDumpMempool mp).bytes := by
  obtain ⟨a, ha⟩ := List.exists_mem_of_ne_nil _ hne
  have hmem : 2 ^ j ∈ (freeBlocks mp).map fun b => 2 ^ b.order :=
    Multiset.mem_map_of_mem (fun b : Block => 2 ^ b.order) (h.mem_free_of_mem ha)
  rw [← h.bytes_dump]
  have hle := Multiset.le_sum_of_mem hmem
  have hpos := Nat.two_pow_pos j
  omega

end Buddy

namespace Pools

/-! ## The pools -/

/-- The bytes that the dumps of all pools show. -/
def freeBytes (k : Kern) : ℕ := (k.pools.map fun mp => (buddyDumpMempool mp).bytes).sum

/-- The size of the pools. -/
def poolBytes (k : Kern) : ℕ := (k.pools.map fun mp => 2 ^ mp.poolOrder).sum

/-- The outstanding frames of a pool. -/
def heldIn (k : Kern) (mp : BuddyMempool) : ℕ := k.outstanding.countP fun x => Covers mp x

variable {k k' : Kern} {g : ℕ}

theorem sum_usedBlocks (mp : BuddyMempool) (k : Kern) :
    ((usedBlocks mp k.outstanding).map fun b => 2 ^ b.order).sum = 4096 * heldIn k mp := by
  unfold usedBlocks heldIn
  rw [Multiset.map_coe, Multiset.sum_coe, List.map_map, List.countP_eq_length_filter]
  generalize k.outstanding.filter _ = l
  induction l with
  | nil => rfl
  | cons x l ih =>
    rw [List.map_cons, List.sum_cons, ih, List.length_cons]
    simp only [Function.comp_apply, pageBlock]
    omega

/-- An address lies in one pool at most. -/
theorem countP_covers_le {pools : List BuddyMempool} (h : pools.Pairwise Apart) (x : ℕ) :
    pools.countP (fun mp => Covers mp x) ≤ 1 := by
  induction h with
  | nil => simp
  | @cons mp rest hap _ ih =>
    by_cases hc : Covers mp x
    · have hrest : rest.countP (fun mp => Covers mp x) = 0 := by
        rw [List.countP_eq_zero]
        intro mp₂ hm
        simpa using (hap mp₂ hm).not_covers hc
      rw [List.countP_cons, hrest]
      split <;> omega
    · rw [List.countP_cons_of_neg (by simpa using hc)]
      exact ih

/-- Outstanding frames are counted pool by pool. -/
theorem PoolsInv.sum_heldIn (h : PoolsInv k) :
    (k.pools.map (heldIn k)).sum = k.outstanding.length := by
  have hone : ∀ x ∈ k.outstanding, k.pools.countP (fun mp => Covers mp x) = 1 := by
    intro x hx
    obtain ⟨-, mp, hmp, hc⟩ := h.out x hx
    have hpos : 0 < k.pools.countP (fun mp => Covers mp x) :=
      List.countP_pos_iff.2 ⟨mp, hmp, by simpa using hc⟩
    have hle := countP_covers_le h.apart x
    omega
  unfold heldIn
  generalize k.outstanding = out at hone
  induction out with
  | nil => simp
  | cons x out ih =>
    have hrest := ih fun y hy => hone y (List.mem_cons_of_mem _ hy)
    have hsum : (k.pools.map fun mp => (x :: out).countP fun y => Covers mp y).sum
        = (k.pools.map fun mp => out.countP fun y => Covers mp y).sum
          + k.pools.countP fun mp => Covers mp x := by
      simp only [List.countP_cons]
      rw [List.sum_map_add]
      generalize k.pools = pools
      congr 1
      induction pools with
      | nil => rfl
      | cons mp rest ihp =>
        rw [List.map_cons, List.sum_cons, ihp, List.countP_cons, Nat.add_comm]
    rw [hsum, hrest, hone x List.mem_cons_self, List.length_cons]

/-- Free and outstanding pages make up the pools. -/
theorem PoolsInv.balance (h : PoolsInv k) :
    freeBytes k + 4096 * k.outstanding.length = poolBytes k := by
  have hpool : ∀ mp ∈ k.pools, (buddyDumpMempool mp).bytes + 4096 * heldIn k mp
      = 2 ^ mp.poolOrder := fun mp hmp => by
    rw [Nat.add_comm, ← sum_usedBlocks]
    exact (h.inv mp hmp).balance
  unfold freeBytes poolBytes
  rw [← h.sum_heldIn, ← List.sum_map_mul_left, ← List.sum_map_add]
  exact congrArg List.sum (List.map_congr_left hpool)

theorem SamePools.poolBytes_eq (h : SamePools k k') : poolBytes k' = poolBytes k := by
  unfold SamePools at h
  unfold poolBytes
  generalize k.pools = l at h
  generalize k'.pools = l' at h
  induction h with
  | nil => rfl
  | cons hab _ ih => rw [List.map_cons, List.map_cons, List.sum_cons, List.sum_cons, ih, hab.pool]

/-- The pools have a free page when the dumps show one. -/
theorem PoolsInv.hasFree_iff (h : PoolsInv k) : HasFree k ↔ 0 < freeBytes k := by
  have hmem : ∀ mp ∈ k.pools, (buddyDumpMempool mp).bytes ≤ freeBytes k := fun mp hmp =>
    List.single_le_sum (fun _ _ => Nat.zero_le _) _ (List.mem_map_of_mem hmp)
  constructor
  · rintro ⟨mp, hmp, i, -, hne⟩
    have hpos := (h.inv mp hmp).bytes_pos hne
    have := hmem mp hmp
    omega
  · intro hpos
    by_contra hno
    refine hpos.ne' (List.sum_eq_zero fun x hx => ?_)
    obtain ⟨mp, hmp, rfl⟩ := List.mem_map.1 hx
    -- all lists of the pool are empty
    refine List.sum_eq_zero fun y hy => ?_
    obtain ⟨p, hp, rfl⟩ := List.mem_map.1 hy
    obtain ⟨j, hj, rfl⟩ := List.mem_map.1 hp
    rw [List.mem_range'_1, (h.ok mp hmp).min] at hj
    have hnil : mp.avail j = [] := by
      by_contra hne
      exact hno ⟨mp, hmp, j, hj.1, hne⟩
    simp [hnil]

/-- Consecutive pools are as large as their range. -/
theorem Consecutive.sum_size {a b : ℕ} {new : List BuddyMempool} (h : Consecutive a new b) :
    a + (new.map fun mp => 2 ^ mp.poolOrder).sum = b := by
  induction new generalizing a with
  | nil => exact h
  | cons mp rest ih =>
    have hrest := ih h.2
    rw [List.map_cons, List.sum_cons]
    omega

/-- `ADD_MEMORY` makes pools of all pages of its range. -/
theorem poolBytes_addMemory {ranges : List (ℕ × ℕ)} {base n : ℕ} (hnew : NewRange ranges base n)
    (hrun : addMemory base n k = .ok k') : poolBytes k' = poolBytes k + 4096 * n := by
  obtain ⟨hn, hpos, -, hlim, -⟩ := hnew
  by_cases h0 : n = 0
  · subst h0
    obtain rfl : k = k' := Except.ok.inj hrun
    omega
  have hva : va base = base + pageOffset := va_of_lt (by omega)
  obtain ⟨m', new, hadd, hp, -⟩ := addPools_pieces 32 (va base) n k.mem k.pools (by omega)
    (by omega) (by rw [hva]; omega)
    (by rw [hva]; unfold physLimit at hlim; unfold pageOffset; omega)
  unfold addMemory at hrun
  rw [Nat.mod_eq_of_lt (by omega), hadd] at hrun
  obtain rfl := Except.ok.inj hrun
  have hsum := hp.consecutive.sum_size
  unfold poolBytes
  simp only
  rw [List.map_append, List.sum_append, List.map_reverse, List.sum_reverse]
  omega

end Pools

namespace OnDemand

open RadixTree Pools Swap Regions

variable {env : Env} {s s' : State} {roots : Set ℕ} {Q : State → Prop} {w w' : Machine}
  {r a f g ℓ : ℕ} {src : ℕ → Byte} {e : Pte64}

/-! ## The machine -/

/-- Where the pools run out, the dumps show nothing. -/
theorem outOfFrames_iff {k : Kern} (h : PoolsInv k) : OutOfFrames k ↔ freeBytes k = 0 := by
  have hfree := h.hasFree_iff
  constructor
  · rintro ⟨k', hnone⟩
    rcases petmemAllocPages_spec h with ⟨-, hno⟩ | ⟨g, k₁, hsome, hal⟩
    · rw [hfree] at hno
      omega
    · have hg := (Prod.mk.inj (Except.ok.inj (hsome.symm.trans hnone))).1
      have := hal.pos
      omega
  · intro hzero
    rcases petmemAllocPages_spec h with ⟨hnone, -⟩ | ⟨g, k₁, -, hal⟩
    · exact ⟨k, hnone⟩
    · have := hfree.1 (hasFree_of_allocated h hal)
      omega

/-- The levels of the walk of `a` that are missing: tables, and the page itself. -/
def missing (m : Mem) (r a : ℕ) : ℕ :=
  (List.range 4).countP fun ℓ => (tableNode m r a (ℓ + 1)).isNone

theorem missing_pos {m : Mem} (hℓ : ℓ < 4) (h : tableNode m r a (ℓ + 1) = none) :
    0 < missing m r a :=
  List.countP_pos_iff.2 ⟨ℓ, List.mem_range.2 hℓ, by rw [h]; rfl⟩

/-- A frame that is entered is one that was missing, and comes from a free list. -/
theorem Grown.missing_eq (h : Grown roots r a ℓ src s s' f g e) :
    missing s'.mem r a + 1 = missing s.mem r a := by
  have hℓ := h.depth
  have hnew := h.node_slot
  have hold := h.node_none
  have hother : ∀ n < 4, n ≠ ℓ → tableNode s'.mem r a (n + 1) = tableNode s.mem r a (n + 1) := by
    intro n hn hne
    rcases h.node_cases h.root h.region (show n + 1 ≤ 4 by omega) with ⟨heq, -⟩ | ⟨-, -, hℓ', -⟩
    · exact heq
    · omega
  unfold missing
  have hsplit : ∀ p : ℕ → Bool, (List.range 4).countP p
      = ((List.range 4).erase ℓ).countP p + if p ℓ then 1 else 0 := fun p => by
    rw [(List.perm_cons_erase (List.mem_range.2 hℓ)).countP_eq p, List.countP_cons]
  have hrest : ((List.range 4).erase ℓ).countP (fun n => (tableNode s'.mem r a (n + 1)).isNone)
      = ((List.range 4).erase ℓ).countP fun n => (tableNode s.mem r a (n + 1)).isNone := by
    refine List.countP_congr fun n hn => ?_
    obtain ⟨hne, hn⟩ := List.nodup_range.mem_erase_iff.1 hn
    rw [hother n (List.mem_range.1 hn) hne]
  rw [hsplit, hsplit, hrest, hnew, hold]
  rfl

theorem Grown.freeBytes_eq (h : Grown roots r a ℓ src s s' f g e) :
    freeBytes s'.toKern + 4096 = freeBytes s.toKern := by
  have hold := h.before.pools.balance
  have hnew := h.owned.pools.balance
  have hlen : s'.outstanding.length = s.outstanding.length + 1 := by
    rw [h.out, List.length_cons]
  rw [h.pools.poolBytes_eq, ← hold] at hnew
  linarith

/-- The walk of `a` has grown, and the frames are paid for: nothing that was mapped was taken
away. -/
structure Paid (roots : Set ℕ) (r a : ℕ) (s s' : State) : Prop where
  bytes : freeBytes s'.toKern + 4096 * missing s.mem r a
    = freeBytes s.toKern + 4096 * missing s'.mem r a
  out : s'.outstanding.length + missing s'.mem r a
    = s.outstanding.length + missing s.mem r a
  nodes : ∀ r' ∈ roots, ∀ b ∈ Region, ∀ ℓ ≤ 4, ∀ f, tableNode s.mem r' b ℓ = some f →
    tableNode s'.mem r' b ℓ = some f
  file : s'.file = s.file

namespace Paid

theorem refl (roots : Set ℕ) (r a : ℕ) (s : State) : Paid roots r a s s :=
  ⟨rfl, rfl, fun _ _ _ _ _ _ _ h => h, rfl⟩

theorem trans {s'' : State} (h : Paid roots r a s s') (h' : Paid roots r a s' s'') :
    Paid roots r a s s'' := by
  have := h.bytes
  have := h'.bytes
  have := h.out
  have := h'.out
  exact ⟨by omega, by omega,
    fun r' hr' b hb ℓ hℓ f hf => h'.nodes r' hr' b hb ℓ hℓ f (h.nodes r' hr' b hb ℓ hℓ f hf),
    h'.file.trans h.file⟩

end Paid

theorem Grown.paid (h : Grown roots r a ℓ src s s' f g e) : Paid roots r a s s' := by
  have hmissing := h.missing_eq
  have hbytes := h.freeBytes_eq
  refine ⟨by omega, ?_, fun r' hr' b hb ℓ' hℓ' c hc => h.node_of_some hr' hb hℓ' hc, h.file⟩
  rw [h.out, List.length_cons]
  omega

/-- What is done without an eviction. -/
theorem Pages.paid (h : Pages env roots (fun _ => False) a s s') :
    Paid roots (rootFrame env.cr3) a s s' :=
  h.induct (P := fun s' => Paid roots (rootFrame env.cr3) a s s') (.refl _ _ _ s)
    (fun _ _ _ _ _ _ _ hq _ => hq.elim)
    fun _ _ _ _ _ _ h1 _ hg _ => h1.trans hg.paid

/-- A fault that is served without an eviction. -/
theorem Faulted.paid (h : Faulted env roots (fun _ => False) a s s') :
    Paid roots (rootFrame env.cr3) a s s' ∧
      ∃ g, tableNode s'.mem (rootFrame env.cr3) a 4 = some g := by
  cases h with
  | @resident s₁ g hp hn => exact ⟨hp.paid, g, hn⟩
  | @fresh s₁ s₂ f g hp _ hg => exact ⟨hp.paid.trans hg.paid, g, hg.node_slot⟩
  | @swapIn s₁ s₂ s₃ f g page swap hp _ _ _ _ he _ hg =>
    rcases he with rfl | ⟨hq, -⟩
    · -- the bitmap is no part of the accounts
      have hgrown : Paid roots (rootFrame env.cr3) a s₁ s' := ⟨hg.paid.bytes, hg.paid.out,
        hg.paid.nodes, hg.paid.file⟩
      exact ⟨hp.paid.trans hgrown, g, hg.node_slot⟩
    · exact hq.elim

/-! ## A fault that can be paid -/

/-- The free lists have a frame for each level of the walk that is missing. -/
def Affordable (r a : ℕ) (s : State) : Prop := 4096 * missing s.mem r a ≤ freeBytes s.toKern

theorem Paid.affordable (h : Paid roots r a s s') (haff : Affordable r a s) :
    Affordable r a s' := by
  have := h.bytes
  unfold Affordable at *
  omega

/-- At a level that is missing there is a frame. -/
theorem Affordable.not_out (h : Affordable r a s) (hpools : PoolsInv s.toKern) (hℓ : ℓ < 4)
    (hnone : tableNode s.mem r a (ℓ + 1) = none) : ¬ OutOfFrames s.toKern := by
  rw [outOfFrames_iff hpools]
  have := missing_pos hℓ hnone
  unfold Affordable at h
  omega

theorem node_none_of_empty {m : Mem} (ht : tableNode m r a ℓ = some f)
    (hp : (pteAt m f (tableIndex a ℓ)).present = false) : tableNode m r a (ℓ + 1) = none :=
  (node_succ_of_eq ht).trans (child_eq_none.2 hp)

section Stages

variable {s₁ s₂ s₃ : State} (h : Ready env roots (fun _ => False) s) (ha : a ∈ Region)
  (haff : Affordable (rootFrame env.cr3) a s) (h1 : pml4Stage env a s = .ok s₁)
  (h2 : tableStage env (pdpEntry env a s₁.mem) s₁ = .ok s₂)
  (h3 : tableStage env (pdEntry env a s₂.mem) s₂ = .ok s₃)

include h ha haff

theorem not_out_pml4 (hp : (readPte s.mem (pml4Entry env a)).present = false) :
    ¬ OutOfFrames s.toKern := by
  rw [pml4Entry_eq ha] at hp
  exact haff.not_out h.owned.pools (show 0 < 4 by omega) (node_none_of_empty (ℓ := 0) rfl hp)

include h1

theorem affordable_one : Pages env roots (fun _ => False) a s s₁ ∧
    ∃ f₁, tableNode s₁.mem (rootFrame env.cr3) a 1 = some f₁ :=
  pml4Stage_spec h ha (fun hp ho => not_out_pml4 h ha haff hp ho) h1

theorem not_out_pdp (hp : (readPte s₁.mem (pdpEntry env a s₁.mem)).present = false) :
    ¬ OutOfFrames s₁.toKern := by
  obtain ⟨hp₁, f₁, hf₁⟩ := affordable_one h ha haff h1
  rw [pdpEntry_eq ha hf₁] at hp
  exact (hp₁.paid.affordable haff).not_out (hp₁.ready h).owned.pools (show 1 < 4 by omega)
    (node_none_of_empty hf₁ hp)

include h2

theorem affordable_two : Pages env roots (fun _ => False) a s s₂ ∧
    ∃ f₁ f₂, tableNode s₂.mem (rootFrame env.cr3) a 1 = some f₁ ∧
      tableNode s₂.mem (rootFrame env.cr3) a 2 = some f₂ := by
  obtain ⟨hp₁, f₁, hf₁⟩ := affordable_one h ha haff h1
  have hout := not_out_pdp h ha haff h1
  rw [pdpEntry_eq ha hf₁] at h2 hout
  obtain ⟨hp₂, f₂, hf₂⟩ := tableStage_pages (hp₁.ready h) ha (by omega) (by omega) hf₁
    (fun hp ho => hout hp ho) h2
  exact ⟨hp₁.trans hp₂, f₁, f₂, hp₂.node_of_some h.root ha (by omega) hf₁, hf₂⟩

theorem not_out_pd (hp : (readPte s₂.mem (pdEntry env a s₂.mem)).present = false) :
    ¬ OutOfFrames s₂.toKern := by
  obtain ⟨hp₂, f₁, f₂, hf₁, hf₂⟩ := affordable_two h ha haff h1 h2
  rw [pdEntry_eq ha hf₁ hf₂] at hp
  exact (hp₂.paid.affordable haff).not_out (hp₂.ready h).owned.pools (show 2 < 4 by omega)
    (node_none_of_empty hf₂ hp)

include h3

theorem affordable_three : Pages env roots (fun _ => False) a s s₃ ∧
    ∃ f₃, tableNode s₃.mem (rootFrame env.cr3) a 3 = some f₃ ∧
      ptEntry env a s₃.mem = frameVa f₃ (tableIndex a 3 * 8) := by
  obtain ⟨hp₂, f₁, f₂, hf₁, hf₂⟩ := affordable_two h ha haff h1 h2
  have hout := not_out_pd h ha haff h1 h2
  rw [pdEntry_eq ha hf₁ hf₂] at h3 hout
  obtain ⟨hp₃, f₃, hf₃⟩ := tableStage_pages (hp₂.ready h) ha (by omega) (by omega) hf₂
    (fun hp ho => hout hp ho) h3
  have hf₁₃ := hp₃.node_of_some h.root ha (by omega) hf₁
  have hf₂₃ := hp₃.node_of_some h.root ha (by omega) hf₂
  exact ⟨hp₂.trans hp₃, f₃, hf₃, ptEntry_eq ha hf₁₃ hf₂₃ hf₃⟩

theorem not_out_page (hp : (readPte s₃.mem (ptEntry env a s₃.mem)).present = false) :
    ¬ OutOfFrames s₃.toKern := by
  obtain ⟨hp₃, f₃, hf₃, hpte⟩ := affordable_three h ha haff h1 h2 h3
  rw [hpte] at hp
  exact (hp₃.paid.affordable haff).not_out (hp₃.ready h).owned.pools (show 3 < 4 by omega)
    (node_none_of_empty hf₃ hp)

end Stages

/-- A fault that can be paid never runs out of frames. -/
theorem Affordable.not_runsOut (haff : Affordable (rootFrame env.cr3) a s)
    (h : Ready env roots (fun _ => False) s) : ¬ RunsOut env a s s' := by
  rintro ⟨hrange, hasks, hout⟩
  have ha := mem_region_of_range h.list hrange
  cases hasks with
  | pml4 hp => exact not_out_pml4 h ha haff hp hout
  | pdp h1 hp => exact not_out_pdp h ha haff h1 hp hout
  | pd h1 h2 hp => exact not_out_pd h ha haff h1 h2 hp hout
  | page h1 h2 h3 hp _ => exact not_out_page h ha haff h1 h2 h3 hp hout
  | swapIn h1 h2 h3 hp _ _ => exact not_out_page h ha haff h1 h2 h3 hp hout

/-! ## The entry of the page -/

/-- A page that was swapped out has a slot that the bitmap knows. -/
def Readable (env : Env) (s : State) (a : ℕ) : Prop :=
  ∀ f, tableNode s.mem (rootFrame env.cr3) a 3 = some f →
    (pteAt s.mem f (tableIndex a 3)).present = false →
    (pteAt s.mem f (tableIndex a 3)).dirty = true →
    ∃ res, swapInPage ((pteAt s.mem f (tableIndex a 3)).base % 2 ^ 32) s.map.swap s.file = .ok res

theorem Evicted.readable {v f g slot : ℕ} (h : Evicted roots (rootFrame env.cr3) s s' v f g slot)
    (ha : a ∈ Region) (hslot : Readable env s a) : Readable env s' a := by
  obtain ⟨page, -, hcase⟩ := h.swap
  obtain ⟨hoff, hnew⟩ := hcase.offMap
  intro c hc hp hd
  rw [h.node_table h.root ha (le_refl 3)] at hc
  by_cases hpage : c = f ∧ tableIndex a 3 = tableIndex v 3
  · -- the entry names the slot that was written
    obtain ⟨rfl, hidx⟩ := hpage
    have hbase : (pteAt s'.mem c (tableIndex a 3)).base = slot % 2 ^ 40 := by
      rw [hidx, ← Pte64.mask_base, h.entry]
      exact BitVec.toNat_ofNat slot 40
    refine swapInPage_returns.2 fun hlost => hnew ?_
    rwa [hbase, hoff, Nat.mod_mod_of_dvd _ (by norm_num)] at hlost
  · have hcg : c ≠ g := by
      rintro rfl
      have := (h.before.separated _ h.root _ h.root a ha v h.region 3 (by omega) 4 (le_refl _) c hc
        h.page).2.1
      omega
    have hm := h.others c _ (h.kept (h.before.kept h.root ha (by omega) hc) hcg) (tableIndex_lt a 3)
      hpage
    rw [Pte64.present_of_mask hm] at hp
    rw [Pte64.dirty_of_mask hm] at hd
    rw [Pte64.base_of_mask hm, swapInPage_returns, hoff, ← @swapInPage_returns _ _ s.file]
    exact hslot c hc hp hd

/-- While tables are entered and other pages leave, the slot of the page stays readable: a table
that was there keeps the entry of the page, and a new one has no entries. -/
theorem Pages.readable (h : Pages env roots Q a s s') (ha : a ∈ Region)
    (hr : rootFrame env.cr3 ∈ roots) (hslot : Readable env s a) : Readable env s' a := by
  refine h.induct (P := fun s' => Readable env s' a) hslot
    (fun s₁ s₂ v f g slot h1 _ hev => hev.readable ha h1)
    fun s₁ s₂ ℓ f g e h1 hℓ hg _ c hc hp hd => ?_
  rcases hg.node_cases hr ha (show 3 ≤ 4 by omega) with ⟨heq, -⟩ | ⟨hnew, -, hℓ', -⟩
  · have hc₁ := heq.symm.trans hc
    -- the table of the page is not the one that was changed
    have hcf : c ≠ f := by
      rintro rfl
      have := (hg.before.separated _ hr _ hr a ha a ha 3 (by omega) ℓ (by omega) c hc₁
        hg.table).2.1
      omega
    have hsame := hg.others c (tableIndex a 3) (hg.before.kept hr ha (by omega) hc₁)
      (tableIndex_lt a 3) fun h => hcf h.1
    rw [hsame] at hp hd ⊢
    rw [hg.map, hg.file]
    exact h1 c hc₁ hp hd
  · obtain rfl := Option.some.inj (hnew.symm.trans hc)
    rw [hg.pteAt_new (by omega) (tableIndex_lt a 3)] at hd
    cases hd

/-- A fault that never runs out of frames is served, and paid for. -/
theorem Ready.served {code : ℕ} (h : Ready env roots Q s)
    (hrange : checkAddressRange s.map.memoryAllocations a = true) (hcode : code ≠ errorPermission)
    (hslot : Readable env s a) (hcalm : ∀ s', ¬ RunsOut env a s s') :
    ∃ s' g, petmemHandlePagefault env a code s = .ok (0, s') ∧
      Paid roots (rootFrame env.cr3) a s s' ∧
      tableNode s'.mem (rootFrame env.cr3) a 4 = some g := by
  have h' : Ready env roots (fun _ => False) s := h.weaken fun _ hq => hq.elim
  have ha := mem_region_of_range h.list hrange
  obtain ⟨s', hrun⟩ := petmemHandlePagefault_returns h' (fun t ht => hcalm t ht)
    (fun _ hq => hq.elim)
    (fun s₁ f hp hf hpr hd => hp.readable ha h.root hslot f hf hpr hd) hcode hrange
  rcases petmemHandlePagefault_spec h' (fun _ t ht => hcalm t ht) hrun with
    ⟨hret, -⟩ | ⟨-, -, -, hft⟩
  · cases hret
  · obtain ⟨hpaid, g, hg⟩ := hft.paid
    exact ⟨s', g, hrun, hpaid, hg⟩

end OnDemand

end Petmem
