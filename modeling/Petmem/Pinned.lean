import Petmem.Isolation
import Petmem.Neighbours

/-!
# Pages that are never evicted

The clock looks at the region nodes, and of each region at the first page only. The other pages of
a region, once they are in memory, stay in their frames until the region is given up, however
short of frames the machine is. `KeepingStep` is an operation of a party with another page table,
or one of the process itself that frees neither the region nor any region of more than 2^19 pages,
whose loop would leave it and could come to this one.
-/

namespace Petmem
namespace OnDemand

open ByteMemory RadixTree Pools Swap Regions

variable {env : Env} {s s' : State} {roots : Set ℕ} {Q : State → Prop} {r a b f g : ℕ}
  {p : Position} {reg : VaddrReg}

/-- The address is in no first page of a region. -/
def Inner (l : List VaddrReg) (a : ℕ) : Prop := ∀ reg ∈ l, reg.pageAddr / 4096 ≠ a / 4096

/-- The pages of a region behind the first one. -/
theorem inner_of_within {l : List VaddrReg} (hl : Partition l) (hreg : reg ∈ l)
    (h1 : reg.pageAddr + 4096 ≤ a) (h2 : a < reg.pageAddr + 4096 * reg.size) : Inner l a := by
  intro z hz heq
  have hdvd := hl.spans.dvd (by decide) hz
  have hdvd' := hl.spans.dvd (by decide) hreg
  obtain ⟨pre, post, rfl⟩ := List.append_of_mem hreg
  obtain ⟨hpre, hpost⟩ := hl.spans.beside
  rcases List.mem_append.1 hz with hm | hm
  · have := hpre z hm
    omega
  · rcases List.mem_cons.1 hm with rfl | hm
    · omega
    · have := hpost z hm
      omega

theorem Inner.congr {l l' : List VaddrReg} (h : Inner l a) (hl : l' = l) : Inner l' a := hl ▸ h

/-! ## One operation of the process -/

theorem Evicted.inner {v slot : ℕ} (h : Evicted roots r s s' v f g slot) (hb : b ∈ Region)
    (hin : Inner s.map.memoryAllocations b) {c : ℕ} (hc : tableNode s.mem r b 4 = some c) :
    tableNode s'.mem r b 4 = some c := by
  -- the page that is evicted is the first one of its region
  have hne : ¬ (r = r ∧ b / 4096 = v / 4096) := by
    rintro ⟨-, heq⟩
    obtain ⟨reg, hreg, hv⟩ := h.addr
    exact hin reg hreg (by rw [hv, heq])
  rwa [node_iff_leaf, h.leaf_other h.root hb hne, ← node_iff_leaf]

theorem Eased.inner (h : Eased env roots Q s s') (hb : b ∈ Region)
    (hin : Inner s.map.memoryAllocations b) {c : ℕ}
    (hc : tableNode s.mem (rootFrame env.cr3) b 4 = some c) :
    tableNode s'.mem (rootFrame env.cr3) b 4 = some c := by
  rcases h with rfl | ⟨-, -, v, f, g, slot, hev⟩
  · exact hc
  · exact hev.inner hb hin hc

theorem Pages.inner (h : Pages env roots Q a s s') (hb : b ∈ Region)
    (hin : Inner s.map.memoryAllocations b) {c : ℕ}
    (hc : tableNode s.mem (rootFrame env.cr3) b 4 = some c) :
    tableNode s'.mem (rootFrame env.cr3) b 4 = some c := by
  have hall : s'.map.memoryAllocations = s.map.memoryAllocations ∧
      tableNode s'.mem (rootFrame env.cr3) b 4 = some c := by
    refine h.induct (P := fun s' => s'.map.memoryAllocations = s.map.memoryAllocations ∧
      tableNode s'.mem (rootFrame env.cr3) b 4 = some c) ⟨rfl, hc⟩ ?_ ?_
    · rintro s₁ s₂ v f g slot ⟨hl, hn⟩ _ hev
      exact ⟨hev.list.trans hl, hev.inner hb (hin.congr hl) hn⟩
    · rintro s₁ s₂ ℓ f g e ⟨hl, hn⟩ - hg -
      exact ⟨by rw [hg.map, hl], hg.node_of_some hg.root hb (le_refl _) hn⟩
  exact hall.2

theorem Faulted.inner (h : Faulted env roots Q a s s') (hb : b ∈ Region)
    (hin : Inner s.map.memoryAllocations b) {c : ℕ}
    (hc : tableNode s.mem (rootFrame env.cr3) b 4 = some c) :
    tableNode s'.mem (rootFrame env.cr3) b 4 = some c := by
  cases h with
  | resident hp _ => exact hp.inner hb hin hc
  | fresh hp _ hg => exact hg.node_of_some hg.root hb (le_refl _) (hp.inner hb hin hc)
  | swapIn hp _ _ _ _ he _ hg =>
    have h1 := hp.inner hb hin hc
    exact hg.node_of_some hg.root hb (le_refl _) (he.inner hb (hin.congr hp.list) h1)

/-- A free of another region leaves the page. -/
theorem Released.inner (h : Released env roots a s s' p) (hl : Partition s.map.memoryAllocations)
    (hsize : p.found.size ≤ 2 ^ 19) (hb : b ∈ Region) (hout : ¬ Within p.found b) {c : ℕ}
    (hc : tableNode s.mem (rootFrame env.cr3) b 4 = some c) :
    tableNode s'.mem (rootFrame env.cr3) b 4 = some c := by
  have hi : InMemory (leaf s.mem (rootFrame env.cr3) b) := resident_iff.2 ⟨c, hc⟩
  rwa [node_iff_leaf, h.leaf_resident hl hsize hb hout hi, ← node_iff_leaf]

/-- Regions in use that are not given up stay in the list. -/
theorem Released.mem_of_ne (h : Released env roots a s s' p) (hs : reg.status = ALLOCATED)
    (hreg : reg ∈ s.map.memoryAllocations) (hne : p.found ≠ reg) :
    reg ∈ s'.map.memoryAllocations := by
  obtain ⟨pre, x, z, y, post, hlist, hc⟩ := h.list
  rw [h.found.split] at hreg
  rw [hlist]
  refine (hc.mem_allocated hs).2 ?_
  simpa [hne.symm] using hreg

/-- An operation that does not give up the region: what is freed are other regions, of at most 2^19
pages. -/
def SparesRegion (reg : VaddrReg) (s : State) (ev : Event) : Prop :=
  ∀ v, ev = .free v → ∀ p, IsLastAt v s.map.memoryAllocations p →
    p.found ≠ reg ∧ p.found.size ≤ 2 ^ 19

/-- One step of the process leaves the region and its inner pages in memory. -/
theorem StepCase.inner {ev : Event} (h : StepCase env roots Q s ev s') (hr : Ready env roots Q s)
    (hspare : SparesRegion reg s ev) (hreg : reg ∈ s.map.memoryAllocations)
    (hs : reg.status = ALLOCATED) (h1 : reg.pageAddr + 4096 ≤ b)
    (h2 : b < reg.pageAddr + 4096 * reg.size) {c : ℕ}
    (hc : tableNode s.mem (rootFrame env.cr3) b 4 = some c) :
    reg ∈ s'.map.memoryAllocations ∧ tableNode s'.mem (rootFrame env.cr3) b 4 = some c := by
  have hin := inner_of_within hr.list hreg h1 h2
  have hwithin : Within reg b := ⟨by omega, h2⟩
  have hb := within_region hr.list hreg hwithin
  have hfault : ∀ {a : ℕ} {s₁ : State}, (s₁ = s ∨
      (checkAddressRange s.map.memoryAllocations a = true ∧ Faulted env roots Q a s s₁)) →
      reg ∈ s₁.map.memoryAllocations ∧ tableNode s₁.mem (rootFrame env.cr3) b 4 = some c := by
    rintro a s₁ (rfl | ⟨-, hft⟩)
    · exact ⟨hreg, hc⟩
    · exact ⟨by rwa [hft.list], hft.inner hb hin hc⟩
  cases h with
  | alloc _ => exact ⟨mem_allocate _ _ hreg hs, hc⟩
  | freeNone _ => exact ⟨hreg, hc⟩
  | free hrel =>
    obtain ⟨hne, hsize⟩ := hspare _ rfl _ hrel.found
    refine ⟨hrel.mem_of_ne hs hreg hne, hrel.inner hr.list hsize hb (fun hin' => hne ?_) hc⟩
    exact hr.list.spans.eq_of_mem hrel.found.mem hreg hin' hwithin
  | refused => exact ⟨hreg, hc⟩
  | fault _ _ hft => exact hfault (.inr ⟨‹_›, hft⟩)
  | read _ hcase hacc _ =>
    obtain ⟨hl, hn⟩ := hfault hcase
    exact ⟨by rwa [hacc.map], (hacc.owned_nodes.2 _ hacc.root b (.inl hb) 4 (le_refl _)).trans hn⟩
  | write _ hcase hacc hw =>
    obtain ⟨hl, hn⟩ := hfault hcase
    have hn₁ := (hacc.owned_nodes.2 _ hacc.root b (.inl hb) 4 (le_refl _)).trans hn
    exact ⟨by rwa [hw.map, hacc.map],
      (hw.owned_nodes.2 _ hw.root b (.inl hb) 4 (le_refl _)).trans hn₁⟩

/-! ## Runs of the machine -/

variable {w w' : Machine} {pid cr3 : ℕ}

end OnDemand

end Petmem
