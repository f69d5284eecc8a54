import Petmem.Contents

/-!
# Slots and swapped-out pages

The slot of a page that is swapped out is recorded twice, in the entry of the page and in the
bitmap. Evictions and page faults keep the two in step. A free does not touch the bitmap: a table
that is unlinked takes the entries of swapped-out pages with it, and an entry that is cleared keeps
its dirty bit, which makes it look swapped out to slot 0. `KeepsSlots` says when neither happens.
-/

namespace Petmem
namespace OnDemand

open ByteMemory RadixTree Pools Swap Regions Pte64 SlotStore

variable {env : Env} {s s' : State} {roots : Set ℕ} {Q : State → Prop}
  {r a b f g n v ℓ slot : ℕ} {e : Pte64} {src : ℕ → Byte} {P : Set ℕ}

/-- The pages of `P` that are swapped out and the slots that are marked correspond one to one. -/
structure Matched (s : State) (r : ℕ) (P : Set ℕ) : Prop where
  slotted : Slotted (placeAt s r) (marked (2 ^ 32) s.map.swap) P
  covering : Covering (placeAt s r) (marked (2 ^ 32) s.map.swap) P
  size : s.map.swap.size ≤ 2 ^ 32

/-- Only slots count. -/
theorem Matched.congr (h : Matched s r P) (hswap : s'.map.swap = s.map.swap)
    (hplace : ∀ n ∈ P, ∀ i, placeAt s' r n = .slot i ↔ placeAt s r n = .slot i) :
    Matched s' r P := by
  refine ⟨?_, ?_, by rw [hswap]; exact h.size⟩
  · rw [hswap]
    exact h.slotted.shrink (le_refl _) fun n hn i => (hplace n hn i).1
  · rw [hswap]
    exact h.covering.congr fun n hn i => (hplace n hn i).2

/-! ## Evictions and page faults -/

/-- An eviction finds the list head absent and a free slot. -/
def FindsSlot (env : Env) (s : State) : Prop :=
  HeadAbsent env s.mem ∧ FreeBelow (2 ^ 31) s.map.swap

theorem Evicted.matched (h : Evicted roots r s s' v f g slot)
    (hfree : FreeBelow (2 ^ 31) s.map.swap) (hP : P ⊆ petmemPages) (hv : v / 4096 ∈ P)
    (hm : Matched s r P) : Matched s' r P := by
  obtain ⟨hlt, hmap, -, hset, -⟩ := h.taken (le_refl _) hfree
  refine ⟨h.slotted (le_refl _) (by norm_num) hfree hP hm.slotted, ?_, ?_⟩
  · have hout : ∀ j, placeAt s r (v / 4096) ≠ .slot j := by
      intro j hj
      rw [h.placeAt_victim] at hj
      cases hj
    rw [marked_of_set hset hmap (by omega)]
    refine (hm.covering.evict hv hout slot).congr fun n hn i hi => ?_
    rw [h.placeAt_eq hlt (hP hn), hi]
  · rw [hset.size]
    exact hm.size

theorem Pages.matched (h : Pages env roots (FindsSlot env) a s s')
    (hm : Matched s (rootFrame env.cr3) petmemPages) :
    Matched s' (rootFrame env.cr3) petmemPages := by
  refine h.induct (P := fun s => Matched s (rootFrame env.cr3) petmemPages) hm
    (fun s₁ s₂ v f g slot h1 hq he => ?_) fun s₁ s₂ ℓ f g e h1 hℓ hg _ => ?_
  · exact he.matched hq.2 (le_refl _) (mem_petmemPages he.region) h1
  · exact h1.congr (by rw [hg.map]) fun n hn i => by rw [hg.placeAt_table hℓ hn]

/-- A page that was left out is entered. -/
theorem Grown.matched (h : Grown roots r a 3 src s s' f g e)
    (hm : Matched s r (petmemPages \ {a / 4096})) : Matched s' r petmemPages := by
  refine ⟨?_, ?_, by rw [h.map]; exact hm.size⟩
  · rw [h.map]
    exact (hm.slotted.enter g).congr fun n hn => h.placeAt_page hn
  · rw [h.map]
    exact (hm.covering.enter g).congr fun n hn i hi => (h.placeAt_page hn).trans hi

/-- A page that is in no slot can be left out. -/
theorem Matched.leaveOut (h : Matched s r petmemPages) (hn : ∀ i, placeAt s r n ≠ .slot i) :
    Matched s r (petmemPages \ {n}) := by
  refine ⟨h.slotted.shrink Set.sdiff_subset fun _ _ _ hi => hi, fun i hi => ?_, h.size⟩
  obtain ⟨m, hm, hmi⟩ := h.covering i hi
  refine ⟨m, ⟨hm, ?_⟩, hmi⟩
  rintro rfl
  exact hn i hmi

/-- A page fault keeps entries and bitmap in step. -/
theorem Faulted.matched (h : Faulted env roots (FindsSlot env) a s s') (ha : a ∈ Region)
    (hm : Matched s (rootFrame env.cr3) petmemPages) :
    Matched s' (rootFrame env.cr3) petmemPages := by
  cases h with
  | resident hp _ => exact hp.matched hm
  | @fresh s₁ s₂ f g hp hd hg =>
    refine hg.matched ((hp.matched hm).leaveOut fun i hi => ?_)
    unfold placeAt at hi
    rw [leaf_page_eq ha, leaf_of_node hg.table,
      placeOf_clean (by exact hg.empty) (by exact hd)] at hi
    cases hi
  | @swapIn s₁ s₂ s₃ f g page swap hp ht hpres hdirty hin he _ hg =>
    have hm₁ := hp.matched hm
    have haP := mem_petmemPages ha
    obtain ⟨hplace, -, hset⟩ := swapIn_spec (le_refl _) ha haP hm₁.slotted ht hpres hdirty hin
    -- the slot is given up, and the page is left out until it is entered
    have hout : Matched { s₁ with map := { s₁.map with swap } } (rootFrame env.cr3)
        (petmemPages \ {a / 4096}) := by
      refine ⟨?_, ?_, ?_⟩
      · show Slotted _ (marked _ swap) _
        rw [marked_of_cleared hset]
        exact hm₁.slotted.release haP hplace
      · show Covering _ (marked _ swap) _
        rw [marked_of_cleared hset]
        exact hm₁.covering.release hplace
      · show swap.size ≤ 2 ^ 32
        rw [hset.size]
        exact hm₁.size
    refine hg.matched ?_
    rcases he with rfl | ⟨hq, -, v, f', g', slot, hev⟩
    · exact hout
    · refine hev.matched hq.2 Set.sdiff_subset ⟨mem_petmemPages hev.region, fun heq => ?_⟩ hout
      -- the victim is in memory
      have hvic := hev.placeAt_victim
      rw [show v / 4096 = a / 4096 from heq] at hvic
      cases hplace.symm.trans hvic

/-! ## Frees -/

variable {L L' : ℕ → Option Pte64} {V : List ℕ}

/-- The entry of the page at `a` is not present, is marked dirty, and names slot `i`. -/
def SwappedTo (m : Mem) (r a i : ℕ) : Prop :=
  ∃ e, leaf m r a = some e ∧ e.present = false ∧ e.dirty = true ∧ e.base = i

variable {k : Kern} {node : ℕ} {es : List Event}

end OnDemand

end Petmem
