import Petmem.PageMap

/-!
# What freeing a page does

`attempt_free_physical_address` hands kernel addresses to `petmem_free_pages`, which expects
physical ones: what it looks for lies below every pool, so no pool takes anything back
(`petmemFreePages_of_va`) and only the page tables change. `prune` is that change, as a function
on memory.

On the page map (`Dropped`) the entry of the page is cleared, but keeps its dirty bit; when no
other page of its table is in memory the whole table is unlinked, with the entries of pages that
are swapped out. `dropped_all` adds this up over the pages of a region.
-/

namespace Petmem
namespace OnDemand

open ByteMemory RadixTree Pools Swap Regions Pte64

/-! ## Nothing goes back to the pools -/

/-- A kernel address, taken for a physical one, lies in no pool. -/
theorem inPool_va_va {mp : BuddyMempool} (h : PoolOk mp) {x : ℕ} (hx : x < physLimit) :
    inPool (va (va x)) mp = false := by
  have hb := h.base
  unfold inPool
  rw [va_of_lt hx]
  unfold va
  unfold physLimit at hx
  unfold pageOffset at *
  rw [decide_eq_false]
  omega

theorem petmemFreePages_of_va {k : Kern} {x n : ℕ} (h : ∀ mp ∈ k.pools, PoolOk mp)
    (hx : x < physLimit) : petmemFreePages (va x) n k = .ok k :=
  petmemFreePages_of_not_covers fun mp hmp => inPool_va_va (h mp hmp) hx

theorem frame_lt_phys {f i : ℕ} (hf : f < frameLimit) (hi : i < 4096) :
    f * 4096 + i < physLimit := by
  unfold frameLimit at hf
  unfold physLimit
  omega

/-- The entry of a page or table that was given up. -/
def clearedEntry (e : Pte64) : Pte64 :=
  { e with writable := false, userPage := false, present := false, pageBaseAddr := 0 }

/-- The loop of `attempt_free_physical_address` on memory, over the frames of the tables on the
walk with the index in each. -/
def prune : List (ℕ × ℕ) → Mem → Mem
  | [], m => m
  | (f, i) :: rest, m =>
    let m := clearEntry m (frameVa f (i * 8))
    if isEntirePageFree m (frameVa f 0) then prune rest m else m

theorem pruneEntries_eq {l : List (ℕ × ℕ)} (hl : ∀ p ∈ l, p.1 < frameLimit) :
    ∀ {k : Kern}, (∀ mp ∈ k.pools, PoolOk mp) →
      pruneEntries (l.map fun p => (frameVa p.1 (p.2 * 8), frameVa p.1 0)) k
        = .ok { k with mem := prune l k.mem } := by
  induction l with
  | nil => exact fun _ => rfl
  | cons p rest ih =>
    intro k hk
    have hfree := petmemFreePages_of_va (k := { k with
      mem := clearEntry k.mem (frameVa p.1 (p.2 * 8)) }) (n := 1) hk
      (frame_lt_phys (hl p (by simp)) (show 0 < 4096 by omega))
    rw [show va (p.1 * 4096 + 0) = frameVa p.1 0 from rfl] at hfree
    simp only [List.map_cons, pruneEntries, prune]
    split
    · rw [hfree]
      exact ih (fun q hq => hl q (by simp [hq])) hk
    · rfl

theorem isEntirePageFree_iff {m : Mem} {f : ℕ} (hf : f < frameLimit) :
    isEntirePageFree m (frameVa f 0) = true ↔ ∀ i < 512, (pteAt m f i).present = false := by
  unfold isEntirePageFree
  rw [List.all_eq_true]
  simp only [List.mem_range, Bool.not_eq_true']
  refine forall₂_congr fun i hi => ?_
  rw [show frameVa f 0 + i * 8 = frameVa f (i * 8) by
    rw [frameVa_eq hf (by omega), frameVa_eq hf (by omega)]; omega]
  rfl

/-- One round of the loop: the entry is cleared, and the loop goes on when that leaves the table
without present entries. -/
theorem prune_cons (m : Mem) {f i : ℕ} (rest : List (ℕ × ℕ)) (hf : f < frameLimit) (hi : i < 512) :
    ∃ m₁, EntrySet m f i (clearedEntry (pteAt m f i)) m₁ ∧
      ((prune ((f, i) :: rest) m = m₁ ∧ ∃ j < 512, (pteAt m₁ f j).present = true) ∨
        (prune ((f, i) :: rest) m = prune rest m₁ ∧
          ∀ j < 512, (pteAt m₁ f j).present = false)) := by
  refine ⟨clearEntry m (frameVa f (i * 8)), entrySet_writePte m _ hf hi, ?_⟩
  cases hfree : isEntirePageFree (clearEntry m (frameVa f (i * 8))) (frameVa f 0) with
  | true =>
    refine .inr ⟨?_, (isEntirePageFree_iff hf).1 hfree⟩
    simp only [prune, hfree, if_true]
  | false =>
    refine .inl ⟨?_, ?_⟩
    · simp only [prune, hfree, Bool.false_eq_true, if_false]
    · by_contra hnone
      have hall : ∀ j < 512,
          (pteAt (clearEntry m (frameVa f (i * 8))) f j).present = false := fun j hj => by
        by_contra hp
        exact hnone ⟨j, hj, by simpa using hp⟩
      rw [(isEntirePageFree_iff hf).2 hall] at hfree
      cases hfree

variable {k : Kern} {roots : Set ℕ} {r a : ℕ}

/-- Clearing entries of kept frames keeps the tables in order. -/
theorem owned_prune {l : List (ℕ × ℕ)} (h : Owned k roots)
    (hl : ∀ p ∈ l, Kept k p.1 ∧ p.2 < 512) : Owned { k with mem := prune l k.mem } roots := by
  induction l generalizing k with
  | nil => exact h.congr rfl rfl rfl
  | cons p rest ih =>
    obtain ⟨f, i⟩ := p
    obtain ⟨hkept, hi⟩ := hl (f, i) (by simp)
    obtain ⟨m₁, hset, hcase⟩ := prune_cons k.mem rest (h.pools.kept_lt hkept) hi
    have h₁ : Owned { k with mem := m₁ } roots := h.write_le hset hkept fun hp => by cases hp
    rcases hcase with ⟨heq, -⟩ | ⟨heq, -⟩
    · rw [heq]
      exact h₁
    · rw [heq]
      exact (ih h₁ fun q hq =>
        ⟨(hl q (by simp [hq])).1.congr rfl rfl, (hl q (by simp [hq])).2⟩).congr rfl rfl rfl

/-! ## One page -/

theorem index_zero (ha : a ∈ Region ∪ Side) : tableIndex a 0 = 0 :=
  ha.elim region_index_zero side_index_zero

/-- The frame at the end of a walk is memory of the direct map. -/
theorem page_lt (h : Owned k roots) (hr : r ∈ roots) (ha : a ∈ Region ∪ Side) {g : ℕ}
    (hg : tableNode k.mem r a 4 = some g) : g < frameLimit :=
  ha.elim (fun ha => h.lt_limit hr ha (le_refl _) hg) fun ha => h.sidePage r hr a ha g hg

/-- The tables and indices of the walk of `a`, last level first. -/
def slotsOf (r a f₁ f₂ f₃ : ℕ) : List (ℕ × ℕ) :=
  [(f₃, tableIndex a 3), (f₂, tableIndex a 2), (f₁, tableIndex a 1), (r, tableIndex a 0)]

/-- `attempt_free_physical_address` does nothing, or prunes the tables on the walk. -/
theorem attemptFree_cases {cr3 : ℕ} (h : Owned k roots) (hr : rootFrame cr3 ∈ roots)
    (ha : a ∈ Region ∪ Side) :
    (tableNode k.mem (rootFrame cr3) a 4 = none ∧
      attemptFreePhysicalAddress cr3 a k = .ok k) ∨
    ∃ f₁ f₂ f₃ g, tableNode k.mem (rootFrame cr3) a 1 = some f₁ ∧
      tableNode k.mem (rootFrame cr3) a 2 = some f₂ ∧
      tableNode k.mem (rootFrame cr3) a 3 = some f₃ ∧
      tableNode k.mem (rootFrame cr3) a 4 = some g ∧
      attemptFreePhysicalAddress cr3 a k
        = .ok { k with mem := prune (slotsOf (rootFrame cr3) a f₁ f₂ f₃) k.mem } := by
  have h0 := index_zero ha
  cases h4 : tableNode k.mem (rootFrame cr3) a 4 with
  | none =>
    refine .inl ⟨rfl, ?_⟩
    unfold attemptFreePhysicalAddress
    rw [walk_of_node_none h0 h4]
  | some g =>
    obtain ⟨f₁, f₂, f₃, h1, h2, h3⟩ := exists_tables h4
    refine .inr ⟨f₁, f₂, f₃, g, h1, h2, h3, rfl, ?_⟩
    have hlt : ∀ ℓ ≤ 3, ∀ f, tableNode k.mem (rootFrame cr3) a ℓ = some f → f < frameLimit :=
      fun ℓ hℓ f hf => h.pools.kept_lt (h.table_kept hr ha hℓ hf)
    have hbase : ∀ {ℓ f c : ℕ}, tableNode k.mem (rootFrame cr3) a ℓ = some f →
        tableNode k.mem (rootFrame cr3) a (ℓ + 1) = some c →
        (readPte k.mem (frameVa f (tableIndex a ℓ * 8))).base = c := fun hf hc =>
      (child_eq_some.1 ((node_succ_of_eq hf).symm.trans hc)).2
    -- the page itself is not taken back
    have hpage := petmemFreePages_of_va (n := 1) h.pools.ok
      (frame_lt_phys (page_lt h hr ha h4) (show physicalOffset a < 4096 by
        unfold physicalOffset
        rw [show 0xfff = 2 ^ 12 - 1 from rfl, Nat.and_two_pow_sub_one_eq_mod]
        omega))
    have hroot : cr3ToPml4e64Va cr3 = frameVa (rootFrame cr3) 0 := by
      unfold cr3ToPml4e64Va frameVa
      rw [cr3_mask_eq, Nat.add_zero]
    unfold attemptFreePhysicalAddress
    rw [walk_of_node h0 h1 h2 h3 h4]
    simp only [entryVa_eq, hbase h3 h4, hbase h2 h3, hbase h1 h2, hbase (ℓ := 0) rfl h1, hroot,
      Nat.zero_mul, Nat.shiftLeft_eq, show 2 ^ 12 = 4096 from rfl]
    have hprune := pruneEntries_eq (l := slotsOf (rootFrame cr3) a f₁ f₂ f₃) (k := k)
      (fun p hp => by
        simp only [slotsOf, List.mem_cons, List.not_mem_nil, or_false] at hp
        rcases hp with rfl | rfl | rfl | rfl
        · exact hlt 3 (by omega) _ h3
        · exact hlt 2 (by omega) _ h2
        · exact hlt 1 (by omega) _ h1
        · exact hlt 0 (by omega) _ rfl) h.pools.ok
    simp only [slotsOf, List.map_cons, List.map_nil] at hprune
    exact bind_eq_ok.2 ⟨k, hpage, hprune⟩

/-! ## Cleared entries and the page map -/

section Clearing

variable {f i ℓ r' b : ℕ} {e : Pte64} {m' : Mem}

/-- A lookup that does not pass the entry that is written sees no change. -/
theorem leaf_of_not_passed (h : Owned k roots) (hset : EntrySet k.mem f i e m') (hr' : r' ∈ roots)
    (hb : b ∈ Region)
    (hne : ∀ ℓ ≤ 3, tableNode k.mem r' b ℓ = some f → tableIndex b ℓ ≠ i) :
    (∀ ℓ ≤ 4, tableNode m' r' b ℓ = tableNode k.mem r' b ℓ) ∧
      leaf m' r' b = leaf k.mem r' b := by
  have hpte : ∀ ℓ ≤ 3, ∀ c, tableNode k.mem r' b ℓ = some c →
      pteAt m' c (tableIndex b ℓ) = pteAt k.mem c (tableIndex b ℓ) := by
    intro ℓ hℓ c hc
    refine hset.others c _ (h.lt_limit hr' hb (by omega) hc) (tableIndex_lt _ _) ?_
    rintro ⟨rfl, hidx⟩
    exact hne ℓ hℓ hc hidx
  have hnode : ∀ ℓ ≤ 4, tableNode m' r' b ℓ = tableNode k.mem r' b ℓ := fun ℓ hℓ =>
    node_eq_of_eq (d := 4) (fun n hn c hc => by
      unfold child
      rw [hpte n (by omega) c hc]) hℓ
  refine ⟨hnode, leaf_eq_of_pteAt (hnode 3 (by omega)) fun c hc => ?_⟩
  rw [hpte 3 (le_refl _) c hc]

variable (h : Owned k roots) (hset : EntrySet k.mem f (tableIndex a ℓ) e m') (hr : r ∈ roots)
  (ha : a ∈ Region) (hf : tableNode k.mem r a ℓ = some f)

include h hset hr ha hf

/-- On the path of a petmem address this depends on the path alone. -/
theorem leaf_of_path_ne (hℓ : ℓ < 4) (hr' : r' ∈ roots) (hb : b ∈ Region)
    (hne : ¬ (r' = r ∧ SamePath tableIndex (ℓ + 1) b a)) :
    (∀ ℓ ≤ 4, tableNode m' r' b ℓ = tableNode k.mem r' b ℓ) ∧
      leaf m' r' b = leaf k.mem r' b := by
  refine leaf_of_not_passed h hset hr' hb fun n hn hc hidx => ?_
  obtain ⟨hrr, rfl, hp⟩ := h.separated r' hr' r hr b hb a ha n (by omega) ℓ (by omega) f hc hf
  exact hne ⟨hrr, samePath_succ.2 ⟨hp, hidx⟩⟩

/-- The path up to the entry stays. -/
theorem node_above (hℓ : ℓ < 4) {n : ℕ} (hn : n ≤ ℓ) :
    tableNode m' r a n = tableNode k.mem r a n :=
  (h.slotUpdate hset hr ha hℓ hf).node_eq hr ha (by omega) (by omega)

/-- A table that is unlinked takes the entries of its pages with it. -/
theorem leaf_of_unlinked (hℓ : ℓ < 3) (he : e.present = false) (hb : b ∈ Region)
    (hp : SamePath tableIndex (ℓ + 1) b a) : leaf m' r b = none := by
  have hupd := h.slotUpdate hset hr ha (by omega) hf
  rw [he, if_neg (by simp)] at hupd
  exact leaf_of_none (hupd.node_cleared hr hb (by omega) hp (by omega))

/-- Unlinking an empty table above the last level changes no entry of a page. -/
theorem leaf_of_unlinked_empty {c : ℕ} (hℓ : ℓ < 2) (he : e.present = false)
    (hc : tableNode k.mem r a (ℓ + 1) = some c)
    (hempty : ∀ j < 512, (pteAt k.mem c j).present = false)
    (hr' : r' ∈ roots) (hb : b ∈ Region) : leaf m' r' b = leaf k.mem r' b := by
  by_cases hp : r' = r ∧ SamePath tableIndex (ℓ + 1) b a
  · obtain ⟨rfl, hp⟩ := hp
    have hnext : tableNode k.mem r' b (ℓ + 1 + 1) = none := by
      rw [show tableNode k.mem r' b (ℓ + 1 + 1) = child k.mem c (tableIndex b (ℓ + 1)) from
        node_succ_of_eq ((node_congr hp).trans hc), child_eq_none]
      exact hempty _ (tableIndex_lt _ _)
    rw [leaf_of_unlinked h hset hr ha hf (by omega) he hb hp,
      leaf_of_none (node_eq_none_of_le hnext (by omega))]
  · exact (leaf_of_path_ne h hset hr ha hf (by omega) hr' hb hp).2

end Clearing

/-! ## Giving up a page, on the page map -/

/-- Another page of the table of `a` is in memory. -/
def Shared (L : ℕ → Option Pte64) (a : ℕ) : Prop :=
  ∃ b ∈ Region, b / 2 ^ 21 = a / 2 ^ 21 ∧ b / 4096 ≠ a / 4096 ∧ InMemory (L b)

/-- The address is that of a petmem page in memory. -/
def Hits (L : ℕ → Option Pte64) (a : ℕ) : Prop := a ∈ Region ∧ InMemory (L a)

/-- The page at `a` is given up: nothing happens when it is not in memory; otherwise its entry is
cleared, or its table goes when no other page of it is in memory. -/
structure Dropped (L L' : ℕ → Option Pte64) (a : ℕ) : Prop where
  absent : ¬ Hits L a → ∀ b ∈ Region, L' b = L b
  cleared : Hits L a → Shared L a → ∀ b ∈ Region,
    L' b = if b / 4096 = a / 4096 then (L b).map clearedEntry else L b
  unlinked : Hits L a → ¬ Shared L a → ∀ b ∈ Region,
    L' b = if b / 2 ^ 21 = a / 2 ^ 21 then none else L b

section Pruning

variable {f₁ f₂ f₃ g : ℕ} (h : Owned k roots) (hr : r ∈ roots)
  (h1 : tableNode k.mem r a 1 = some f₁) (h2 : tableNode k.mem r a 2 = some f₂)
  (h3 : tableNode k.mem r a 3 = some f₃) (h4 : tableNode k.mem r a 4 = some g)

include h hr h1 h2

/-- Above the last level pruning changes no entry of a page. -/
theorem prune_above (ha : a ∈ Region) (hempty : ∀ j < 512, (pteAt k.mem f₂ j).present = false)
    {r' b : ℕ} (hr' : r' ∈ roots) (hb : b ∈ Region) :
    leaf (prune [(f₁, tableIndex a 1), (r, tableIndex a 0)] k.mem) r' b = leaf k.mem r' b := by
  have hk₁ := h.kept hr ha (by omega) h1
  obtain ⟨m₁, hset₁, hcase₁⟩ := prune_cons k.mem [(r, tableIndex a 0)] (h.pools.kept_lt hk₁)
    (tableIndex_lt a 1)
  have hleaf₁ : ∀ {r' b : ℕ}, r' ∈ roots → b ∈ Region → leaf m₁ r' b = leaf k.mem r' b :=
    fun hr' hb => leaf_of_unlinked_empty h hset₁ hr ha h1 (by omega) rfl h2 hempty hr' hb
  rcases hcase₁ with ⟨heq, -⟩ | ⟨heq, hempty₁⟩
  · rw [heq]
    exact hleaf₁ hr' hb
  · have ho₁ : Owned { k with mem := m₁ } roots := h.write_le hset₁ hk₁ fun hp => by cases hp
    obtain ⟨m₀, hset₀, hcase₀⟩ := prune_cons m₁ [] (h.pools.kept_lt (.inr (h.root r hr)))
      (tableIndex_lt a 0)
    have h1' : tableNode m₁ r a 1 = some f₁ :=
      (node_above h hset₁ hr ha h1 (by omega) (le_refl 1)).trans h1
    have hleaf₀ : leaf m₀ r' b = leaf m₁ r' b :=
      leaf_of_unlinked_empty (k := { k with mem := m₁ }) ho₁ hset₀ hr ha rfl (by omega) rfl h1'
        hempty₁ hr' hb
    have hend : prune [(f₁, tableIndex a 1), (r, tableIndex a 0)] k.mem = m₀ := by
      rw [heq]
      rcases hcase₀ with ⟨heq₀, -⟩ | ⟨heq₀, -⟩ <;> exact heq₀
    rw [hend, hleaf₀]
    exact hleaf₁ hr' hb

include h3 h4

/-- A petmem page that is given up. -/
theorem prune_dropped (ha : a ∈ Region) :
    Dropped (leaf k.mem r) (leaf (prune (slotsOf r a f₁ f₂ f₃) k.mem) r) a ∧
      ∀ r' ∈ roots, r' ≠ r → ∀ b ∈ Region,
        leaf (prune (slotsOf r a f₁ f₂ f₃) k.mem) r' b = leaf k.mem r' b := by
  have hin : Hits (leaf k.mem r) a := ⟨ha, resident_iff.2 ⟨g, h4⟩⟩
  have hk₃ := h.kept hr ha (by omega) h3
  have hk₂ := h.kept hr ha (by omega) h2
  obtain ⟨m₁, hset₁, hcase₁⟩ := prune_cons k.mem
    [(f₂, tableIndex a 2), (f₁, tableIndex a 1), (r, tableIndex a 0)] (h.pools.kept_lt hk₃)
    (tableIndex_lt a 3)
  have hother : ∀ {r' b : ℕ}, r' ∈ roots → b ∈ Region → ¬ (r' = r ∧ b / 4096 = a / 4096) →
      leaf m₁ r' b = leaf k.mem r' b := fun hr' hb hne =>
    (leaf_of_path_ne h hset₁ hr ha h3 (by omega) hr' hb fun hc =>
      hne ⟨hc.1, (samePath_four_iff hb ha).1 hc.2⟩).2
  -- another page of the table is in memory when another of its entries is present
  have hshared : Shared (leaf k.mem r) a ↔ ∃ j < 512, (pteAt m₁ f₃ j).present = true := by
    constructor
    · rintro ⟨b, hb, htab, hpage, e, he, hp⟩
      have hpath := (samePath_three_iff hb ha).2 htab
      have hb3 : tableNode k.mem r b 3 = some f₃ := (node_congr hpath).trans h3
      refine ⟨tableIndex b 3, tableIndex_lt _ _, ?_⟩
      rw [hset₁.others f₃ _ (h.pools.kept_lt hk₃) (tableIndex_lt _ _) fun hc =>
        hpage ((samePath_four_iff hb ha).1 (samePath_succ.2 ⟨hpath, hc.2⟩))]
      rw [leaf_of_node hb3] at he
      rw [← mask_present, Option.some.inj he, hp]
    · rintro ⟨j, hj, hp⟩
      have hji : j ≠ tableIndex a 3 := by
        rintro rfl
        rw [hset₁.entry] at hp
        cases hp
      rw [hset₁.others f₃ j (h.pools.kept_lt hk₃) hj fun hc => hji hc.2] at hp
      have hpath := (samePath_three_iff (tablePage_mem ha hj) ha).2 (tablePage_table hj)
      refine ⟨tablePage a j, tablePage_mem ha hj, tablePage_table hj, fun hpage => hji ?_,
        (pteAt k.mem f₃ j).mask, ?_, hp⟩
      · rw [← tableIndex_tablePage (a := a) hj]
        exact (samePath_four_iff (tablePage_mem ha hj) ha).2 hpage 3 (by omega)
      · rw [leaf_of_node ((node_congr hpath).trans h3), tableIndex_tablePage hj]
  rcases hcase₁ with ⟨heq, hstay⟩ | ⟨heq, hempty⟩
  · -- the table stays
    have heq' : prune (slotsOf r a f₁ f₂ f₃) k.mem = m₁ := heq
    rw [heq']
    refine ⟨⟨fun hn => absurd hin hn, fun _ _ b hb => ?_, fun _ hn =>
      absurd (hshared.2 hstay) hn⟩, fun r' hr' hne b hb => hother hr' hb fun hc => hne hc.1⟩
    by_cases hp : b / 4096 = a / 4096
    · have hpath := (samePath_four_iff hb ha).2 hp
      have h3' : tableNode m₁ r a 3 = some f₃ :=
        (node_above h hset₁ hr ha h3 (by omega) (le_refl 3)).trans h3
      rw [if_pos hp, leaf_congr hpath, leaf_congr (r := r) (m := k.mem) hpath, leaf_of_node h3',
        leaf_of_node h3, hset₁.entry]
      rfl
    · rw [if_neg hp]
      exact hother hr hb fun hc => hp hc.2
  · -- the table is unlinked
    have ho₁ : Owned { k with mem := m₁ } roots := h.write_le hset₁ hk₃ fun hp => by cases hp
    have hup : ∀ {n : ℕ}, n ≤ 3 → tableNode m₁ r a n = tableNode k.mem r a n := fun hn =>
      node_above h hset₁ hr ha h3 (by omega) hn
    obtain ⟨m₂, hset₂, hcase₂⟩ := prune_cons m₁ [(f₁, tableIndex a 1), (r, tableIndex a 0)]
      (h.pools.kept_lt hk₂) (tableIndex_lt a 2)
    have h2' : tableNode m₁ r a 2 = some f₂ := (hup (by omega)).trans h2
    have ho₂ : Owned { k with mem := m₂ } roots :=
      (ho₁.write_le hset₂ (hk₂.congr rfl rfl) fun hp => by cases hp).congr rfl rfl rfl
    have hleaf₂ : ∀ {r' b : ℕ}, r' ∈ roots → b ∈ Region →
        leaf (prune (slotsOf r a f₁ f₂ f₃) k.mem) r' b = leaf m₂ r' b := by
      intro r' b hr' hb
      have heq' : prune (slotsOf r a f₁ f₂ f₃) k.mem = _ := heq
      rw [heq']
      rcases hcase₂ with ⟨heq₂, -⟩ | ⟨heq₂, hempty₂⟩
      · rw [heq₂]
      · rw [heq₂]
        have hab : ∀ {n : ℕ}, n ≤ 2 → tableNode m₂ r a n = tableNode k.mem r a n := fun hn =>
          (node_above ho₁ hset₂ hr ha h2' (by omega) hn).trans (hup (by omega))
        exact prune_above ho₂ hr ((hab (by omega)).trans h1) ((hab (le_refl 2)).trans h2) ha
          hempty₂ hr' hb
    have hbeside : ∀ {r' b : ℕ}, r' ∈ roots → b ∈ Region → ¬ (r' = r ∧ b / 2 ^ 21 = a / 2 ^ 21) →
        leaf (prune (slotsOf r a f₁ f₂ f₃) k.mem) r' b = leaf k.mem r' b := by
      intro r' b hr' hb hne
      rw [hleaf₂ hr' hb, (leaf_of_path_ne ho₁ hset₂ hr ha h2' (by omega) hr' hb fun hc =>
        hne ⟨hc.1, (samePath_three_iff hb ha).1 hc.2⟩).2]
      exact hother hr' hb fun hc => hne ⟨hc.1, by omega⟩
    refine ⟨⟨fun hn => absurd hin hn, fun _ hs => ?_, fun _ _ b hb => ?_⟩,
      fun r' hr' hne b hb => hbeside hr' hb fun hc => hne hc.1⟩
    · obtain ⟨j, hj, hp⟩ := hshared.1 hs
      rw [hempty j hj] at hp
      cases hp
    · by_cases htab : b / 2 ^ 21 = a / 2 ^ 21
      · rw [if_pos htab, hleaf₂ hr hb]
        exact leaf_of_unlinked ho₁ hset₂ hr ha h2' (by omega) rfl hb
          ((samePath_three_iff hb ha).2 htab)
      · rw [if_neg htab]
        exact hbeside hr hb fun hc => htab hc.2

omit h4 in
/-- Pruning around the petmem region changes nothing inside it. -/
theorem prune_side (ha : a ∈ Side) {r' b : ℕ} (hr' : r' ∈ roots) (hb : b ∈ Region) :
    leaf (prune (slotsOf r a f₁ f₂ f₃) k.mem) r' b = leaf k.mem r' b := by
  let Same (m : Mem) : Prop := ∀ r' ∈ roots, ∀ b ∈ Region,
    (∀ ℓ ≤ 4, tableNode m r' b ℓ = tableNode k.mem r' b ℓ) ∧ leaf m r' b = leaf k.mem r' b
  have hkeep : ∀ {m m' : Mem} {f i : ℕ} {e : Pte64}, Owned { k with mem := m } roots → Same m →
      EntrySet m f i e m' → (∀ r' ∈ roots, ∀ b ∈ Region, ∀ ℓ ≤ 3,
        tableNode k.mem r' b ℓ = some f → tableIndex b ℓ ≠ i) → Same m' := by
    intro m m' f i e ho hsame hset hne r' hr' b hb
    obtain ⟨hn, hl⟩ := leaf_of_not_passed ho hset hr' hb fun ℓ hℓ hf =>
      hne r' hr' b hb ℓ hℓ (((hsame r' hr' b hb).1 ℓ (by omega)).symm.trans hf)
    obtain ⟨hn', hl'⟩ := hsame r' hr' b hb
    exact ⟨fun ℓ hℓ => (hn ℓ hℓ).trans (hn' ℓ hℓ), hl.trans hl'⟩
  have hown : ∀ {m m' : Mem} {f i : ℕ} {e : Pte64}, Owned { k with mem := m } roots → Kept k f →
      EntrySet m f i (clearedEntry e) m' → Owned { k with mem := m' } roots := fun ho hk hset =>
    (ho.write_le hset (hk.congr rfl rfl) fun hp => by cases hp).congr rfl rfl rfl
  have hk₃ := h.side_kept hr ha (by omega) h3
  have hk₂ := h.side_kept hr ha (by omega) h2
  have hk₁ := h.side_kept hr ha (by omega) h1
  have ho : Owned { k with mem := k.mem } roots := h
  -- the last two tables are the process's own
  obtain ⟨m₃, hset₃, hcase₃⟩ := prune_cons k.mem
    [(f₂, tableIndex a 2), (f₁, tableIndex a 1), (r, tableIndex a 0)] (h.pools.kept_lt hk₃)
    (tableIndex_lt a 3)
  have hs₃ : Same m₃ := hkeep ho (fun _ _ _ _ => ⟨fun _ _ => rfl, rfl⟩) hset₃
    fun r' hr' b hb ℓ hℓ hf =>
      absurd hf (h.side_ne hr ha (by omega) (by omega) h3 hr' hb (by omega))
  rcases hcase₃ with ⟨heq, -⟩ | ⟨heq₃, -⟩
  · rw [show prune (slotsOf r a f₁ f₂ f₃) k.mem = m₃ from heq]
    exact (hs₃ r' hr' b hb).2
  rw [show prune (slotsOf r a f₁ f₂ f₃) k.mem = _ from heq₃]
  have ho₃ := hown ho hk₃ hset₃
  obtain ⟨m₂, hset₂, hcase₂⟩ := prune_cons m₃ [(f₁, tableIndex a 1), (r, tableIndex a 0)]
    (h.pools.kept_lt hk₂) (tableIndex_lt a 2)
  have hs₂ : Same m₂ := hkeep ho₃ hs₃ hset₂ fun r' hr' b hb ℓ hℓ hf =>
    absurd hf (h.side_ne hr ha (by omega) (by omega) h2 hr' hb (by omega))
  rcases hcase₂ with ⟨heq, -⟩ | ⟨heq₂, -⟩
  · rw [heq]
    exact (hs₂ r' hr' b hb).2
  rw [heq₂]
  have ho₂ := hown ho₃ hk₂ hset₂
  -- the level-3 table is shared, but the entries are different ones
  have h1' : tableNode k.mem r petmemRegionStart 1 = some f₁ := (Owned.side_pdp ha).symm.trans h1
  obtain ⟨m₁, hset₁, hcase₁⟩ := prune_cons m₂ [(r, tableIndex a 0)] (h.pools.kept_lt hk₁)
    (tableIndex_lt a 1)
  have hs₁ : Same m₁ := by
    refine hkeep ho₂ hs₂ hset₁ fun r' hr' b hb ℓ hℓ hf hidx => ?_
    obtain ⟨-, rfl, -⟩ := h.separated r' hr' r hr b hb _ start_mem_region ℓ (by omega) 1 (by omega)
      f₁ hf h1'
    have h5 := region_index_one hb
    have h6 := side_index_one ha
    omega
  rcases hcase₁ with ⟨heq, -⟩ | ⟨heq₁, hempty⟩
  · rw [heq]
    exact (hs₁ r' hr' b hb).2
  rw [heq₁]
  have ho₁ := hown ho₂ hk₁ hset₁
  obtain ⟨m₀, hset₀, hcase₀⟩ := prune_cons m₁ [] (h.pools.kept_lt (.inr (h.root r hr)))
    (tableIndex_lt a 0)
  have hend : prune [(r, tableIndex a 0)] m₁ = m₀ := by
    rcases hcase₀ with ⟨heq, -⟩ | ⟨heq, -⟩ <;> exact heq
  have hzero : tableIndex a 0 = tableIndex petmemRegionStart 0 := by
    rw [side_index_zero ha, region_index_zero start_mem_region]
  rw [hzero] at hset₀
  rw [hend, ← (hs₁ r' hr' b hb).2]
  exact leaf_of_unlinked_empty (k := { k with mem := m₁ }) ho₁ hset₀ hr start_mem_region rfl
    (by omega) rfl (((hs₁ r hr _ start_mem_region).1 1 (by omega)).trans h1') hempty hr' hb

end Pruning

/-- Only the tables that are pruned are written to. -/
theorem prune_frames {l : List (ℕ × ℕ)} (hl : ∀ p ∈ l, p.1 < frameLimit ∧ p.2 < 512) {c : ℕ}
    (hc : c < frameLimit) (hne : ∀ p ∈ l, p.1 ≠ c) (m : Mem) : SameFrame m (prune l m) c := by
  induction l generalizing m with
  | nil => exact .refl _ _
  | cons p rest ih =>
    obtain ⟨f, i⟩ := p
    obtain ⟨hf, hi⟩ := hl (f, i) (by simp)
    obtain ⟨m₁, hset, hcase⟩ := prune_cons m rest hf hi
    have h₁ := hset.frames c hc (hne (f, i) (by simp)).symm
    rcases hcase with ⟨heq, -⟩ | ⟨heq, -⟩
    · rw [heq]
      exact h₁
    · rw [heq]
      exact h₁.trans (ih (fun q hq => hl q (by simp [hq])) (fun q hq => hne q (by simp [hq])) m₁)

/-! ## The pages of a region -/

/-- A page of the table of `b` is visited while it is in memory. -/
def Met (L : ℕ → Option Pte64) (V : List ℕ) (b : ℕ) : Prop :=
  ∃ v ∈ V, v / 2 ^ 21 = b / 2 ^ 21 ∧ Hits L v

/-- Every page of the table of `b` that is in memory is visited. -/
def AllMet (L : ℕ → Option Pte64) (V : List ℕ) (b : ℕ) : Prop :=
  ∀ c ∈ Region, c / 2 ^ 21 = b / 2 ^ 21 → InMemory (L c) → ∃ v ∈ V, v / 4096 = c / 4096

/-- The page at `b` is in memory and visited. -/
def Taken (L : ℕ → Option Pte64) (V : List ℕ) (b : ℕ) : Prop :=
  InMemory (L b) ∧ ∃ v ∈ V, v / 4096 = b / 4096

/-- The pages at `V` are given up. A table none of whose pages is taken stays as it is; one all
of whose pages in memory are taken is unlinked; in the others the taken pages are cleared. -/
structure DroppedAll (L L' : ℕ → Option Pte64) (V : List ℕ) : Prop where
  untouched : ∀ b ∈ Region, ¬ Met L V b → L' b = L b
  unlinked : ∀ b ∈ Region, Met L V b → AllMet L V b → L' b = none
  cleared : ∀ b ∈ Region, Met L V b → ¬ AllMet L V b → Taken L V b →
    L' b = (L b).map clearedEntry
  kept : ∀ b ∈ Region, Met L V b → ¬ AllMet L V b → ¬ Taken L V b → L' b = L b

/-- Entries belong to pages. -/
def PageWise (L : ℕ → Option Pte64) : Prop :=
  ∀ a ∈ Region, ∀ b ∈ Region, a / 4096 = b / 4096 → L a = L b

theorem pageWise_leaf (m : Mem) (r : ℕ) : PageWise (leaf m r) :=
  fun _ ha _ hb h => leaf_congr ((samePath_four_iff ha hb).2 h)

theorem mem_region_of_page {a b : ℕ} (ha : a ∈ Region) (h : b / 4096 = a / 4096) : b ∈ Region := by
  rw [mem_region] at ha ⊢
  unfold petmemRegionStart petmemRegionEnd at *
  omega

theorem not_inMemory_cleared (o : Option Pte64) : ¬ InMemory (o.map clearedEntry) := by
  rintro ⟨e, he, hp⟩
  obtain ⟨e', -, rfl⟩ := Option.map_eq_some_iff.1 he
  cases hp

theorem not_inMemory_none : ¬ InMemory none := by
  rintro ⟨e, he, -⟩
  cases he

theorem droppedAll_nil {L L' : ℕ → Option Pte64} (h : ∀ b ∈ Region, L' b = L b) :
    DroppedAll L L' [] where
  untouched b hb _ := h b hb
  unlinked b _ hm := by
    obtain ⟨v, hv, -⟩ := hm
    cases hv
  cleared b _ hm := by
    obtain ⟨v, hv, -⟩ := hm
    cases hv
  kept b hb _ _ _ := h b hb

namespace Dropped

variable {L L₁ L' : ℕ → Option Pte64} {V : List ℕ} {b : ℕ}

/-- Afterwards the page is not in memory, and no other page has changed in that respect. -/
theorem inMemory_iff (h : Dropped L L₁ a) (hL : PageWise L) (hb : b ∈ Region) :
    InMemory (L₁ b) ↔ InMemory (L b) ∧ (a / 4096 ≠ b / 4096) := by
  by_cases hit : Hits L a
  · by_cases hs : Shared L a
    · rw [h.cleared hit hs b hb]
      split
      · rename_i hp
        exact ⟨fun hi => absurd hi (not_inMemory_cleared _), fun hi => absurd hp.symm hi.2⟩
      · rename_i hp
        exact ⟨fun hi => ⟨hi, fun he => hp he.symm⟩, fun hi => hi.1⟩
    · rw [h.unlinked hit hs b hb]
      split
      · rename_i htab
        refine ⟨fun hi => absurd hi not_inMemory_none, fun hi => absurd ?_ hs⟩
        exact ⟨b, hb, htab, fun he => hi.2 he.symm, hi.1⟩
      · rename_i htab
        exact ⟨fun hi => ⟨hi, fun he => htab (by omega)⟩, fun hi => hi.1⟩
  · rw [h.absent hit b hb]
    refine ⟨fun hi => ⟨hi, fun he => hit ?_⟩, fun hi => hi.1⟩
    have ha := mem_region_of_page hb he
    exact ⟨ha, by rwa [hL a ha b hb he]⟩

/-- Visiting one page more. -/
theorem cons (h : Dropped L L₁ a) (hL : PageWise L) (hall : DroppedAll L₁ L' V) :
    DroppedAll L L' (a :: V) := by
  have hin : ∀ {c : ℕ}, c ∈ Region → (InMemory (L₁ c) ↔ InMemory (L c) ∧ a / 4096 ≠ c / 4096) :=
    fun hc => h.inMemory_iff hL hc
  -- a page in memory that `a :: V` visits is `a`, or is visited by `V` and in memory after `a`
  have hmet : ∀ {b : ℕ}, Met L₁ V b → Met L (a :: V) b := by
    rintro b ⟨v, hv, htab, hvR, hi⟩
    exact ⟨v, by simp [hv], htab, hvR, ((hin hvR).1 hi).1⟩
  have hmet' : ∀ {b : ℕ}, Met L (a :: V) b → Met L₁ V b ∨ (a / 2 ^ 21 = b / 2 ^ 21 ∧ Hits L a) := by
    rintro b ⟨v, hv, htab, hvR, hi⟩
    rcases List.mem_cons.1 hv with rfl | hv
    · exact .inr ⟨htab, hvR, hi⟩
    · by_cases hpage : a / 4096 = v / 4096
      · have ha := mem_region_of_page hvR hpage
        exact .inr ⟨by omega, ha, by rwa [hL a ha v hvR hpage]⟩
      · exact .inl ⟨v, hv, htab, hvR, (hin hvR).2 ⟨hi, hpage⟩⟩
  have hallmet : ∀ {b : ℕ}, AllMet L₁ V b ↔ AllMet L (a :: V) b := by
    intro b
    constructor
    · intro hA c hc htab hi
      by_cases hpage : a / 4096 = c / 4096
      · exact ⟨a, by simp, hpage⟩
      · obtain ⟨v, hv, hvc⟩ := hA c hc htab ((hin hc).2 ⟨hi, hpage⟩)
        exact ⟨v, by simp [hv], hvc⟩
    · intro hA c hc htab hi
      obtain ⟨hi, hpage⟩ := (hin hc).1 hi
      obtain ⟨v, hv, hvc⟩ := hA c hc htab hi
      rcases List.mem_cons.1 hv with rfl | hv
      · exact absurd hvc hpage
      · exact ⟨v, hv, hvc⟩
  have htaken : ∀ {b : ℕ}, b ∈ Region → Taken L₁ V b → Taken L (a :: V) b := by
    rintro b hb ⟨hi, v, hv, hvb⟩
    exact ⟨((hin hb).1 hi).1, v, by simp [hv], hvb⟩
  have hmet_self : ∀ {c : ℕ}, c ∈ Region → InMemory (L₁ c) → (∃ v ∈ V, v / 4096 = c / 4096) →
      Met L₁ V c := by
    rintro c hc hi ⟨v, hv, hvc⟩
    obtain ⟨hi, hpage⟩ := (hin hc).1 hi
    have hvR := mem_region_of_page hc hvc
    exact ⟨v, hv, by omega, hvR, (hin hvR).2 ⟨by rwa [hL v hvR c hc hvc], by omega⟩⟩
  -- what the visit of `a` does to the entry of `b`
  have hsame : ∀ {b : ℕ}, b ∈ Region → ¬ (a / 2 ^ 21 = b / 2 ^ 21 ∧ Hits L a) → L₁ b = L b := by
    intro b hb hne
    by_cases hit : Hits L a
    · have htab : b / 2 ^ 21 ≠ a / 2 ^ 21 := fun he => hne ⟨he.symm, hit⟩
      by_cases hs : Shared L a
      · rw [h.cleared hit hs b hb, if_neg (by omega)]
      · rw [h.unlinked hit hs b hb, if_neg htab]
    · exact h.absent hit b hb
  have hshared : ∀ {b : ℕ}, ¬ AllMet L (a :: V) b → a / 2 ^ 21 = b / 2 ^ 21 → Shared L a := by
    intro b hA htab
    by_contra hs
    refine hA fun c hc hct hi => ⟨a, by simp, ?_⟩
    by_contra hpage
    exact hs ⟨c, hc, by omega, fun he => hpage he.symm, hi⟩
  have hbeside : ∀ {b : ℕ}, b ∈ Region → ¬ AllMet L (a :: V) b → b / 4096 ≠ a / 4096 →
      L₁ b = L b := by
    intro b hb hA hpage
    by_cases hne : a / 2 ^ 21 = b / 2 ^ 21 ∧ Hits L a
    · rw [h.cleared hne.2 (hshared hA hne.1) b hb, if_neg hpage]
    · exact hsame hb hne
  have hrest : ∀ {b : ℕ}, b ∈ Region → ¬ AllMet L (a :: V) b → ¬ Taken L₁ V b → L' b = L₁ b := by
    intro b hb hA ht
    by_cases hm : Met L₁ V b
    · exact hall.kept b hb hm (fun hA' => hA (hallmet.1 hA')) ht
    · exact hall.untouched b hb hm
  refine ⟨fun b hb hm => ?_, fun b hb hm hA => ?_, fun b hb hm hA ht => ?_, fun b hb hm hA ht => ?_⟩
  · rw [hall.untouched b hb fun hm' => hm (hmet hm')]
    exact hsame hb fun hne => hm ⟨a, by simp, hne⟩
  · by_cases hm' : Met L₁ V b
    · exact hall.unlinked b hb hm' (hallmet.2 hA)
    · -- only `a` itself was left in the table
      obtain ⟨htab, hit⟩ := (hmet' hm).resolve_left hm'
      have hs : ¬ Shared L a := by
        rintro ⟨c, hc, hct, hpage, hi⟩
        have hi₁ : InMemory (L₁ c) := (hin hc).2 ⟨hi, fun he => hpage he.symm⟩
        obtain ⟨v, hv, hvc⟩ := hallmet.2 hA c hc (by omega) hi₁
        obtain ⟨w, hw, hwt, hwh⟩ := hmet_self hc hi₁ ⟨v, hv, hvc⟩
        exact hm' ⟨w, hw, by omega, hwh⟩
      rw [hall.untouched b hb hm', h.unlinked hit hs b hb, if_pos htab.symm]
  · obtain ⟨hi, v, hv, hvb⟩ := ht
    by_cases hpage : b / 4096 = a / 4096
    · have ha := mem_region_of_page hb hpage.symm
      have hit : Hits L a := ⟨ha, by rwa [hL a ha b hb hpage.symm]⟩
      rw [hrest hb hA fun ht' => ((hin hb).1 ht'.1).2 hpage.symm,
        h.cleared hit (hshared hA (by omega)) b hb, if_pos hpage]
    · have hi₁ : InMemory (L₁ b) := (hin hb).2 ⟨hi, fun he => hpage he.symm⟩
      have hvV : ∃ v ∈ V, v / 4096 = b / 4096 := by
        rcases List.mem_cons.1 hv with rfl | hv
        · exact absurd hvb.symm hpage
        · exact ⟨v, hv, hvb⟩
      rw [hall.cleared b hb (hmet_self hb hi₁ hvV) (fun hA' => hA (hallmet.1 hA')) ⟨hi₁, hvV⟩,
        hbeside hb hA hpage]
  · rw [hrest hb hA fun ht' => ht (htaken hb ht')]
    by_cases hpage : b / 4096 = a / 4096
    · refine hsame hb fun hne => ht ⟨?_, a, by simp, hpage.symm⟩
      rw [hL b hb a hne.2.1 hpage]
      exact hne.2.2
    · exact hbeside hb hA hpage

end Dropped

namespace DroppedAll

variable {L L' : ℕ → Option Pte64} {V : List ℕ} {b : ℕ}

/-- A page that is still in memory has kept its entry. -/
theorem eq_of_inMemory (h : DroppedAll L L' V) (hb : b ∈ Region) (hi : InMemory (L' b)) :
    L' b = L b := by
  by_cases hm : Met L V b
  · by_cases hA : AllMet L V b
    · rw [h.unlinked b hb hm hA] at hi
      exact absurd hi not_inMemory_none
    · by_cases ht : Taken L V b
      · rw [h.cleared b hb hm hA ht] at hi
        exact absurd hi (not_inMemory_cleared _)
      · exact h.kept b hb hm hA ht
  · exact h.untouched b hb hm

/-- A page in memory that is not visited stays. -/
theorem eq_of_not_visited (h : DroppedAll L L' V) (hb : b ∈ Region) (hi : InMemory (L b))
    (hv : ∀ x ∈ V, x / 4096 ≠ b / 4096) : L' b = L b := by
  by_cases hm : Met L V b
  · by_cases hA : AllMet L V b
    · obtain ⟨x, hx, hxb⟩ := hA b hb rfl hi
      exact absurd hxb (hv x hx)
    · refine h.kept b hb hm hA fun ht => ?_
      obtain ⟨-, x, hx, hxb⟩ := ht
      exact hv x hx hxb
  · exact h.untouched b hb hm

/-- No page that was visited is in memory. -/
theorem not_inMemory (h : DroppedAll L L' V) (hL : PageWise L) (hb : b ∈ Region)
    (hv : ∃ v ∈ V, v / 4096 = b / 4096) : ¬ InMemory (L' b) := by
  intro hi
  have hi' := hi
  rw [h.eq_of_inMemory hb hi] at hi'
  obtain ⟨v, hv, hvb⟩ := hv
  have hvR := mem_region_of_page hb hvb
  have hm : Met L V b := ⟨v, hv, by omega, hvR, by rwa [hL v hvR b hb hvb]⟩
  by_cases hA : AllMet L V b
  · rw [h.unlinked b hb hm hA] at hi
    exact not_inMemory_none hi
  · rw [h.cleared b hb hm hA ⟨hi', v, hv, hvb⟩] at hi
    exact not_inMemory_cleared _ hi

end DroppedAll

/-- The addresses of the pages of a region that is freed, as the loop computes them. -/
def pagesFrom (pageAddr size : ℕ) : List ℕ := (List.range size).map (pageOf pageAddr)

/-- The pages lie in the petmem region or, when `i * 4096` overflows, up to 2 GB beside it. -/
theorem pageOf_mem {A : ℕ} (hA : A ∈ Region) (i : ℕ) : pageOf A i ∈ Region ∪ Side := by
  rw [mem_region] at hA
  rw [Set.mem_union, mem_region, mem_side]
  unfold pageOf sext32
  unfold petmemRegionStart petmemRegionEnd at *
  split <;> omega

theorem pageOf_of_lt {A i : ℕ} (hA : A ∈ Region) (hi : i < 2 ^ 19) :
    pageOf A i = A + 4096 * i := by
  rw [mem_region] at hA
  unfold pageOf
  rw [sext32_of_lt (by omega)]
  unfold petmemRegionEnd at hA
  omega

/-- The state after a page, or the pages of a region, were given up by the process with the
top-level table `r`: the pools are as they were, and so are the pages that stay. -/
structure Pruned (roots : Set ℕ) (r : ℕ) (k : Kern) (m' : Mem) : Prop where
  owned : Owned { k with mem := m' } roots
  others : ∀ r' ∈ roots, r' ≠ r → ∀ b ∈ Region, leaf m' r' b = leaf k.mem r' b
  frames : ∀ r' ∈ roots, ∀ b ∈ Region, ∀ g, tableNode m' r' b 4 = some g →
    tableNode k.mem r' b 4 = some g ∧ SameFrame k.mem m' g

namespace Pruned

variable {m₁ m₂ : Mem}

theorem refl (h : Owned k roots) : Pruned roots r k k.mem where
  owned := h.congr rfl rfl rfl
  others _ _ _ _ _ := rfl
  frames _ _ _ _ _ hg := ⟨hg, .refl _ _⟩

theorem trans (h : Pruned roots r k m₁) (h' : Pruned roots r { k with mem := m₁ } m₂) :
    Pruned roots r k m₂ where
  owned := h'.owned.congr rfl rfl rfl
  others r' hr' hne b hb := (h'.others r' hr' hne b hb).trans (h.others r' hr' hne b hb)
  frames r' hr' b hb g hg := by
    obtain ⟨hg₁, hs₁⟩ := h'.frames r' hr' b hb g hg
    obtain ⟨hg₀, hs₀⟩ := h.frames r' hr' b hb g hg₁
    exact ⟨hg₀, hs₀.trans hs₁⟩

end Pruned

/-- The effect of `attempt_free_physical_address`. -/
theorem attemptFree_spec {cr3 : ℕ} (h : Owned k roots) (hr : rootFrame cr3 ∈ roots)
    (ha : a ∈ Region ∪ Side) :
    ∃ m', attemptFreePhysicalAddress cr3 a k = .ok { k with mem := m' } ∧
      Pruned roots (rootFrame cr3) k m' ∧
      Dropped (leaf k.mem (rootFrame cr3)) (leaf m' (rootFrame cr3)) a := by
  rcases attemptFree_cases h hr ha with ⟨hnone, hrun⟩ | ⟨f₁, f₂, f₃, g, h1, h2, h3, h4, hrun⟩
  · refine ⟨k.mem, hrun, .refl h, fun _ _ _ => rfl, fun hit => absurd hit.2 ?_,
      fun hit => absurd hit.2 ?_⟩ <;>
    exact not_resident_iff.2 hnone
  · have hslots : ∀ p ∈ slotsOf (rootFrame cr3) a f₁ f₂ f₃,
        ∃ ℓ ≤ 3, tableNode k.mem (rootFrame cr3) a ℓ = some p.1 ∧ p.2 < 512 := by
      intro p hp
      simp only [slotsOf, List.mem_cons, List.not_mem_nil, or_false] at hp
      rcases hp with rfl | rfl | rfl | rfl
      · exact ⟨3, by omega, h3, tableIndex_lt _ _⟩
      · exact ⟨2, by omega, h2, tableIndex_lt _ _⟩
      · exact ⟨1, by omega, h1, tableIndex_lt _ _⟩
      · exact ⟨0, by omega, rfl, tableIndex_lt _ _⟩
    have hkept : ∀ p ∈ slotsOf (rootFrame cr3) a f₁ f₂ f₃, Kept k p.1 ∧ p.2 < 512 := fun p hp => by
      obtain ⟨ℓ, hℓ, hn, hi⟩ := hslots p hp
      exact ⟨h.table_kept hr ha hℓ hn, hi⟩
    have hframes : ∀ r' ∈ roots, ∀ b ∈ Region, ∀ g, tableNode k.mem r' b 4 = some g →
        SameFrame k.mem (prune (slotsOf (rootFrame cr3) a f₁ f₂ f₃) k.mem) g := by
      intro r' hr' b hb g hg
      refine prune_frames (fun p hp => ⟨h.pools.kept_lt (hkept p hp).1, (hkept p hp).2⟩)
        (h.lt_limit hr' hb (le_refl _) hg) (fun p hp hpg => ?_) k.mem
      obtain ⟨ℓ, hℓ, hn, -⟩ := hslots p hp
      rw [hpg] at hn
      exact h.table_ne_page hr ha hℓ hn hr' hb hg
    obtain ⟨hothers, hdrop⟩ : (∀ r' ∈ roots, r' ≠ rootFrame cr3 → ∀ b ∈ Region,
        leaf (prune (slotsOf (rootFrame cr3) a f₁ f₂ f₃) k.mem) r' b = leaf k.mem r' b) ∧
        Dropped (leaf k.mem (rootFrame cr3))
          (leaf (prune (slotsOf (rootFrame cr3) a f₁ f₂ f₃) k.mem) (rootFrame cr3)) a := by
      by_cases haR : a ∈ Region
      · obtain ⟨hdrop, hothers⟩ := prune_dropped h hr h1 h2 h3 h4 haR
        exact ⟨hothers, hdrop⟩
      · have haS : a ∈ Side := ha.resolve_left haR
        exact ⟨fun r' hr' _ b hb => prune_side h hr h1 h2 h3 haS hr' hb,
          fun _ b hb => prune_side h hr h1 h2 h3 haS hr hb, fun hit => absurd hit.1 haR,
          fun hit => absurd hit.1 haR⟩
    refine ⟨_, hrun, ⟨owned_prune h hkept, hothers, fun r' hr' b hb g hg => ?_⟩, hdrop⟩
    have hold : tableNode k.mem r' b 4 = some g := by
      obtain ⟨e, he, hp, hbase⟩ := node_iff_leaf.1 hg
      refine node_iff_leaf.2 ⟨e, ?_, hp, hbase⟩
      by_cases hrr : r' = rootFrame cr3
      · subst hrr
        have hall := hdrop.cons (pageWise_leaf _ _) (droppedAll_nil fun _ _ => rfl)
        rw [← hall.eq_of_inMemory hb ⟨e, he, hp⟩, he]
      · rw [← hothers r' hr' hrr b hb, he]
    exact ⟨hold, hframes r' hr' b hb g hold⟩

/-- The effect of the loop over the pages of a region. -/
theorem freeRange_spec {cr3 A : ℕ} (hr : rootFrame cr3 ∈ roots) (hA : A ∈ Region)
    (is : List ℕ) : ∀ {k : Kern}, Owned k roots →
      ∃ m', freeRange cr3 A is k = .ok { k with mem := m' } ∧ Pruned roots (rootFrame cr3) k m' ∧
        DroppedAll (leaf k.mem (rootFrame cr3)) (leaf m' (rootFrame cr3)) (is.map (pageOf A)) := by
  induction is with
  | nil => exact fun h => ⟨_, rfl, .refl h, droppedAll_nil fun _ _ => rfl⟩
  | cons i rest ih =>
    intro k h
    obtain ⟨m₁, hrun₁, hp₁, hd₁⟩ := attemptFree_spec h hr (pageOf_mem hA i)
    obtain ⟨m₂, hrun₂, hp₂, hd₂⟩ := ih hp₁.owned
    refine ⟨m₂, ?_, hp₁.trans hp₂, hd₁.cons (pageWise_leaf _ _) hd₂⟩
    rw [freeRange]
    exact bind_eq_ok.2 ⟨_, hrun₁, hrun₂⟩

/-- The loop over the regions returns, and keeps what freeing the pages of a region keeps. -/
theorem deinitRegions_spec {cr3 : ℕ} {P : Kern → Prop} (hr : rootFrame cr3 ∈ roots)
    (hP : ∀ {k k' : Kern} {A : ℕ} {is : List ℕ}, A ∈ Region → Owned k roots → P k →
      freeRange cr3 A is k = .ok k' → P k')
    (l : List VaddrReg) (hl : ∀ reg ∈ l, reg.pageAddr ∈ Region) : ∀ {k : Kern}, Owned k roots →
      P k → ∃ m', deinitRegions cr3 l k = .ok { k with mem := m' } ∧
        Owned { k with mem := m' } roots ∧ P { k with mem := m' } := by
  induction l with
  | nil => exact fun h hk => ⟨_, rfl, h, hk⟩
  | cons reg rest ih =>
    intro k h hk
    have hreg := hl reg List.mem_cons_self
    obtain ⟨m₁, hrun₁, hp₁, -⟩ := freeRange_spec hr hreg (List.range reg.size) h
    obtain ⟨m₂, hrun₂, h₂⟩ := ih (fun z hz => hl z (List.mem_cons_of_mem _ hz)) hp₁.owned
      (hP hreg h hk hrun₁)
    refine ⟨m₂, ?_, h₂⟩
    rw [deinitRegions]
    exact bind_eq_ok.2 ⟨_, hrun₁, hrun₂⟩

end OnDemand

end Petmem
