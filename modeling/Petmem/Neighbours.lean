import Petmem.SlotOwners
import Petmem.Tlb

/-!
# What a free leaves of the other regions

The pages of neighbouring regions share last-level tables. A page in memory of another region keeps
its table alive; a page of another region that is swapped out does not, since
`is_entire_page_free` looks at present bits alone. It is lost when the last page in memory of its
table is given up.
-/

namespace Petmem
namespace OnDemand

open ByteMemory RadixTree Pools Swap Regions Pte64 SlotStore

variable {env : Env} {s s' : State} {roots : Set ℕ} {Q : State → Prop} {r a b vaddr : ℕ} {k : Kern}
  {node : ℕ} {es : List Event} {p : Position}

/-- The address lies in the region. -/
def Within (reg : VaddrReg) (a : ℕ) : Prop :=
  reg.pageAddr ≤ a ∧ a < reg.pageAddr + 4096 * reg.size

/-- The page at `a` is as it was: it keeps its frame or its slot, and it holds the same bytes. -/
structure Intact (env : Env) (s s' : State) (a : ℕ) : Prop where
  frame : ∀ g, translation s.mem env.cr3 a = some g → translation s'.mem env.cr3 a = some g
  slot : ∀ i, SwappedTo s.mem (rootFrame env.cr3) a i → SwappedTo s'.mem (rootFrame env.cr3) a i
  bytes : ∀ j < 4096, bytesAt s' (rootFrame env.cr3) (a / 4096) j
    = bytesAt s (rootFrame env.cr3) (a / 4096) j

/-- The table of `a` has a page of the region in memory, and no other. -/
def OnlyPagesOf (env : Env) (s : State) (reg : VaddrReg) (a : ℕ) : Prop :=
  (∃ b, Within reg b ∧ b / 2 ^ 21 = a / 2 ^ 21 ∧ walk s.mem env.cr3 b ≠ none) ∧
  ∀ b ∈ Region, b / 2 ^ 21 = a / 2 ^ 21 → walk s.mem env.cr3 b ≠ none → Within reg b

/-- The pages that are visited are those of the region. -/
theorem visited_iff {l : List VaddrReg} (hl : Partition l) {reg : VaddrReg} (hr : reg ∈ l)
    (hsize : reg.size ≤ 2 ^ 19) :
    (∃ v ∈ pagesFrom reg.pageAddr reg.size, v / 4096 = a / 4096) ↔ Within reg a := by
  have hstart : reg.pageAddr ∈ Region := starts_subset hl ⟨reg, hr, rfl⟩
  have hdvd := hl.spans.dvd (by decide) hr
  constructor
  · rintro ⟨v, hv, hva⟩
    obtain ⟨i, hi, rfl⟩ := List.mem_map.1 hv
    have hi := List.mem_range.1 hi
    rw [pageOf_of_lt hstart (by omega)] at hva
    obtain ⟨q, hq⟩ := hdvd
    exact ⟨by omega, by omega⟩
  · rintro ⟨h1, h2⟩
    exact mem_pagesFrom hstart hdvd hsize h1 h2

theorem within_region {l : List VaddrReg} (hl : Partition l) {reg : VaddrReg} (hr : reg ∈ l)
    (h : Within reg a) : a ∈ Region := by
  have hb := hl.spans.bounds hr
  unfold Within at h
  exact ⟨by omega, by omega⟩

/-- The walk of a page is that of each of its addresses. -/
theorem walk_none_of_page {m : Mem} {cr3 : ℕ} (ha : a ∈ Region) (hw : walk m cr3 a = none)
    (hb : b / 4096 = a / 4096) : walk m cr3 b = none := by
  by_contra hwb
  have hbR := mem_region_of_page ha hb
  have hres := (resident_iff_walk hbR).2 hwb
  unfold Resident at hres
  rw [pageWise_leaf _ _ b hbR a ha hb] at hres
  exact (resident_iff_walk ha).1 hres hw

/-- When the table of a page is unlinked. -/
theorem unlinked_iff {l : List VaddrReg} (hl : Partition l) {reg : VaddrReg} (hr : reg ∈ l)
    (hsize : reg.size ≤ 2 ^ 19) :
    Met (leaf s.mem (rootFrame env.cr3)) (pagesFrom reg.pageAddr reg.size) a ∧
      AllMet (leaf s.mem (rootFrame env.cr3)) (pagesFrom reg.pageAddr reg.size) a ↔
      OnlyPagesOf env s reg a := by
  refine and_congr ⟨?_, ?_⟩ ⟨fun hA b hb htab hw => ?_, fun hall c hc htab hi => ?_⟩
  · rintro ⟨v, hv, htab, hvR, hi⟩
    exact ⟨v, (visited_iff hl hr hsize).1 ⟨v, hv, rfl⟩, htab, (resident_iff_walk hvR).1 hi⟩
  · rintro ⟨b, hb, htab, hw⟩
    have hbR := within_region hl hr hb
    obtain ⟨v, hv, hvb⟩ := (visited_iff hl hr hsize).2 hb
    have hvR := mem_region_of_page hbR hvb
    refine ⟨v, hv, by omega, hvR, ?_⟩
    rw [pageWise_leaf _ _ v hvR b hbR hvb]
    exact (resident_iff_walk hbR).2 hw
  · exact (visited_iff hl hr hsize).1 (hA b hb htab ((resident_iff_walk hb).2 hw))
  · exact (visited_iff hl hr hsize).2 (hall c hc htab ((resident_iff_walk hc).1 hi))

/-- The entry of a page of another region stays, unless its table goes; a page in memory stays. -/
theorem Released.leaf_other (h : Released env roots vaddr s s' p)
    (hl : Partition s.map.memoryAllocations) (hsize : p.found.size ≤ 2 ^ 19) (ha : a ∈ Region)
    (hout : ¬ Within p.found a) :
    (OnlyPagesOf env s p.found a ∧ leaf s'.mem (rootFrame env.cr3) a = none) ∨
      leaf s'.mem (rootFrame env.cr3) a = leaf s.mem (rootFrame env.cr3) a := by
  have hnot : ¬ Taken (leaf s.mem (rootFrame env.cr3))
      (pagesFrom p.found.pageAddr p.found.size) a := fun ht =>
    hout ((visited_iff hl h.found.mem hsize).1 ht.2)
  by_cases hm : Met (leaf s.mem (rootFrame env.cr3)) (pagesFrom p.found.pageAddr p.found.size) a
  · by_cases hA : AllMet (leaf s.mem (rootFrame env.cr3))
        (pagesFrom p.found.pageAddr p.found.size) a
    · exact .inl ⟨(unlinked_iff hl h.found.mem hsize).1 ⟨hm, hA⟩, h.dropped.unlinked a ha hm hA⟩
    · exact .inr (h.dropped.kept a ha hm hA hnot)
  · exact .inr (h.dropped.untouched a ha hm)

theorem Released.leaf_resident (h : Released env roots vaddr s s' p)
    (hl : Partition s.map.memoryAllocations) (hsize : p.found.size ≤ 2 ^ 19) (ha : a ∈ Region)
    (hout : ¬ Within p.found a) (hi : InMemory (leaf s.mem (rootFrame env.cr3) a)) :
    leaf s'.mem (rootFrame env.cr3) a = leaf s.mem (rootFrame env.cr3) a := by
  refine h.dropped.eq_of_not_visited ha hi fun v hv hva => hout ?_
  exact (visited_iff hl h.found.mem hsize).1 ⟨v, hv, hva⟩

/-- A page of another region whose entry stays is as it was. -/
theorem Released.intact_of_leaf (h : Released env roots vaddr s s' p) (hr : Ready env roots Q s)
    (ha : a ∈ Region)
    (hleaf : leaf s'.mem (rootFrame env.cr3) a = leaf s.mem (rootFrame env.cr3) a) :
    Intact env s s' a := by
  refine ⟨fun g hg => ?_, fun i hi => ?_, ?_⟩
  · rw [translation_eq ha, node_iff_leaf] at hg ⊢
    rwa [hleaf]
  · unfold SwappedTo at hi ⊢
    rwa [hleaf]
  · refine bytesAt_congr ?_ (fun g hg => ?_) fun i _ j _ => by rw [h.kern]
    · unfold placeAt
      rw [leaf_page_eq ha, leaf_page_eq ha, hleaf]
    · have hplace : placeAt s' (rootFrame env.cr3) (a / 4096) = .frame g := by
        unfold placeAt at hg ⊢
        rwa [leaf_page_eq ha, hleaf, ← leaf_page_eq ha]
      rw [placeAt_of_frame] at hplace
      exact (h.pruned.frames _ hr.root _ (mem_petmemPages ha) g hplace).2

end OnDemand

end Petmem
