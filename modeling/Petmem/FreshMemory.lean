import Petmem.Neighbours
import Petmem.Transparency

/-!
# Fresh memory is zero

A read of an address that was not written since it was allocated returns 0, unless the request was
served with a range in which entries of an earlier region are left. Such entries exist: a free
passes over pages that are swapped out, and an entry that it does clear keeps its dirty bit, the
mark of a page in the swap file.

The invariant is about the pages in use alone: they have slots of their own, and every byte that
was not written since its region was allocated is zero.
-/

namespace Petmem
namespace OnDemand

open ByteMemory RadixTree Pools Swap Regions Pte64 SlotStore

variable {env : Env} {s s' : State} {roots : Set ℕ} {r a b f g n vaddr : ℕ} {k : Kern} {node : ℕ}
  {es : List Event} {p : Position}

/-- No byte was written at `a` since a region with this address was last handed out. -/
def unwritten (a : ℕ) : List Event → Bool
  | [] => true
  | .alloc addr numPages :: es =>
    (addr ≤ a && a < addr + 4096 * numPages) || unwritten a es
  | .write x _ :: es => x ≠ a && unwritten a es
  | _ :: es => unwritten a es

/-- The page at `a` has no entry, or one that is neither present nor marked as swapped out. -/
def Clean (m : Mem) (r a : ℕ) : Prop :=
  ∀ e, leaf m r a = some e → e.present = false ∧ e.dirty = false

/-- Evictions find room, a region that is freed has at most 2^19 pages, and the pages of a range
that is handed out are clean. -/
def HandsOutClean (env : Env) (es : List Event) (s : State) (ev : Event) : Prop :=
  AtEvictions env (Roomy env) es s ev ∧
  match ev with
  | .alloc addr numPages => ∀ a ∈ Region, addr ≤ a → a < addr + 4096 * numPages →
      Clean s.mem (rootFrame env.cr3) a
  | .free vaddr => ∀ p, IsLastAt vaddr s.map.memoryAllocations p → p.found.size ≤ 2 ^ 19
  | _ => True

/-- The pages of the regions in use. -/
def pagesInUse (l : List VaddrReg) : Set ℕ := { n | Covered l (n * 4096) }

theorem Clean.placeOf (h : Clean s.mem r a) : placeOf (leaf s.mem r a) = .nowhere := by
  cases hl : leaf s.mem r a with
  | none => rfl
  | some e => exact placeOf_clean (h e hl).1 (h e hl).2

theorem pagesInUse_subset {l : List VaddrReg} (hl : Partition l) : pagesInUse l ⊆ petmemPages :=
  fun n hn => mem_region_of_range hl ((checkAddressRange_iff hl (n * 4096)).2 hn)

theorem mem_pagesInUse {l : List VaddrReg} (hl : Partition l) (h : Covered l a) :
    a / 4096 ∈ pagesInUse l :=
  h.page hl (by omega)

/-! ## The invariant -/

/-- The pages in use have slots of their own, and what was not written is zero. -/
structure Blank (env : Env) (roots : Set ℕ) (es : List Event) (s : State) : Prop where
  paged : Paged env roots (pagesInUse s.map.memoryAllocations) s
  zero : ∀ n ∈ pagesInUse s.map.memoryAllocations, ∀ i < 4096,
    unwritten (n * 4096 + i) es = true → bytesAt s (rootFrame env.cr3) n i = 0

namespace Blank

/-- The handler fills pages with zeros, or with what they held. -/
theorem faulted (h : Blank env roots es s) (hcov : Covered s.map.memoryAllocations a)
    (hf : Faulted env roots (Roomy env) a s s') : Blank env roots es s' := by
  obtain ⟨hp, hbytes⟩ := h.paged.faulted (mem_pagesInUse h.paged.ready.list hcov) hf
  rw [← hf.list] at hp
  refine ⟨hp, fun n hn i hi hun => ?_⟩
  rw [hf.list] at hn
  rw [hbytes n hn i hi]
  exact h.zero n hn i hi hun

theorem accessed {w : Bool} (h : Blank env roots es s)
    (hacc : Accessed roots (rootFrame env.cr3) a w s s' f g) : Blank env roots es s' := by
  have hp := h.paged.accessed hacc
  rw [← hacc.map] at hp
  refine ⟨hp, fun n hn i hi hun => ?_⟩
  rw [hacc.bytesAt_eq (hp.pages hn) i hi]
  rw [hacc.map] at hn
  exact h.zero n hn i hi hun

theorem written {byte : Byte} (h : Blank env roots es s)
    (hw : Written roots (rootFrame env.cr3) a byte s s' g) :
    Blank env roots (.write a byte :: es) s' := by
  have hp := h.paged.written hw
  rw [← hw.map] at hp
  refine ⟨hp, fun n hn i hi hun => ?_⟩
  simp only [unwritten, Bool.and_eq_true, decide_eq_true_eq] at hun
  rw [hw.bytesAt_eq (hp.pages hn) hi, if_neg (Ne.symm hun.1)]
  rw [hw.map] at hn
  exact h.zero n hn i hi hun.2

/-- Events that neither write nor hand out memory leave what is unwritten. -/
theorem congr {ev : Event} (h : Blank env roots es s) (hw : ∀ x byte, ev ≠ .write x byte)
    (ha : ∀ x pages, ev ≠ .alloc x pages) : Blank env roots (ev :: es) s := by
  refine ⟨h.paged, fun n hn i hi hun => h.zero n hn i hi ?_⟩
  cases ev with
  | write x byte => exact absurd rfl (hw x byte)
  | alloc x pages => exact absurd rfl (ha x pages)
  | free | fault | read => exact hun

theorem access {w : Bool} {s₁ s₂ : State} (h : Blank env roots es s)
    (hcase : s₁ = s ∨ (checkAddressRange s.map.memoryAllocations a = true ∧
      Faulted env roots (Roomy env) a s s₁))
    (hacc : Accessed roots (rootFrame env.cr3) a w s₁ s₂ f g) : Blank env roots es s₂ := by
  rcases hcase with rfl | ⟨hrange, hf⟩
  · exact h.accessed hacc
  · exact (h.faulted ((checkAddressRange_iff h.paged.ready.list a).1 hrange) hf).accessed hacc

/-- A page in use after a request was in use, or is one of those that are handed out. -/
theorem pagesInUse_alloc {newNode pages addr : ℕ} (hl : Partition s.map.memoryAllocations)
    (hnew : newNode ∉ s.map.memoryAllocations.map VaddrReg.node)
    (haddr : (petmemAllocVspace newNode pages s).1 = addr)
    (hn : n ∈ pagesInUse (petmemAllocVspace newNode pages s).2.map.memoryAllocations) :
    n ∈ pagesInUse s.map.memoryAllocations ∨
      (addr ≤ n * 4096 ∧ n * 4096 + 4096 ≤ addr + 4096 * pages) := by
  obtain ⟨reg, hreg, hs, h1, h2⟩ := hn
  rcases new_of_mem_allocate hreg hs with hold | ⟨hsize, hstart⟩
  · exact .inl ⟨reg, hold, hs, h1, h2⟩
  · obtain ⟨q, hq⟩ := (hl.allocate hnew).spans.dvd (by decide) hreg
    have hstart : reg.pageAddr = addr := hstart.trans haddr
    exact .inr ⟨by omega, by omega⟩

theorem allocated {newNode pages addr : ℕ} (h : Blank env roots es s)
    (hnew : newNode ∉ s.map.memoryAllocations.map VaddrReg.node)
    (haddr : (petmemAllocVspace newNode pages s).1 = addr)
    (hclean : ∀ a ∈ Region, addr ≤ a → a < addr + 4096 * pages →
      Clean s.mem (rootFrame env.cr3) a) :
    Blank env roots (.alloc addr pages :: es) (petmemAllocVspace newNode pages s).2 := by
  have hl := h.paged.ready.list
  have hl' : Partition (petmemAllocVspace newNode pages s).2.map.memoryAllocations :=
    hl.allocate hnew
  have hsub := pagesInUse_subset hl'
  -- the pages that are handed out are nowhere
  have hnowhere : ∀ n ∈ petmemPages, ∀ i < 4096, addr ≤ n * 4096 + i →
      n * 4096 + i < addr + 4096 * pages → placeAt s (rootFrame env.cr3) n = .nowhere := by
    intro n hn i hi h1 h2
    have hR : n * 4096 + i ∈ Region := mem_region_of_page hn (by omega)
    have hplace := (hclean _ hR h1 h2).placeOf
    rwa [← leaf_page_eq hR, show (n * 4096 + i) / 4096 = n by omega] at hplace
  refine ⟨⟨⟨h.paged.ready.owned, h.paged.ready.root, hl', h.paged.ready.head⟩, h.paged.flagged,
    hsub, ?_⟩, fun n hn i hi hun => ?_⟩
  · refine (h.paged.slotted.union (N := { n | placeAt s (rootFrame env.cr3) n = .nowhere })
      fun n hn j hj => ?_).shrink (fun n hn => ?_) fun _ _ _ hj => hj
    · cases hn.symm.trans hj
    · rcases pagesInUse_alloc hl hnew haddr hn with hold | ⟨h1, h2⟩
      · exact .inl hold
      · exact .inr (hnowhere n (hsub hn) 0 (by omega) (Nat.le_add_right_of_le h1) (by omega))
  · by_cases hrange : addr ≤ n * 4096 + i ∧ n * 4096 + i < addr + 4096 * pages
    · exact congrFun (bytesAt_of_nowhere (hnowhere n (hsub hn) i hi hrange.1 hrange.2)) i
    · have hold : n ∈ pagesInUse s.map.memoryAllocations := by
        rcases pagesInUse_alloc hl hnew haddr hn with hold | ⟨h1, h2⟩
        · exact hold
        · exact absurd ⟨Nat.le_add_right_of_le h1, by omega⟩ hrange
      refine h.zero n hold i hi ?_
      simp only [unwritten, Bool.or_eq_true, Bool.and_eq_true, decide_eq_true_eq] at hun
      exact hun.resolve_left hrange

/-- A page in use after a free was in use, and is not of the region that is freed. -/
theorem pagesInUse_free (hrel : Released env roots vaddr s s' p)
    (hl : Partition s.map.memoryAllocations) (hn : n ∈ pagesInUse s'.map.memoryAllocations) :
    n ∈ pagesInUse s.map.memoryAllocations ∧ ¬ Within p.found (n * 4096) := by
  obtain ⟨pre, x, reg, y, post, hlist, hc⟩ := hrel.list
  obtain ⟨z, hz, hs, h12⟩ := hn
  rw [hlist] at hz
  have hside := (hc.mem_allocated hs).1 hz
  have hmem : z ∈ s.map.memoryAllocations := by
    rw [hrel.found.split]
    rcases hside with hm | hm <;> simp [hm]
  refine ⟨⟨z, hmem, hs, h12⟩, fun hin => ?_⟩
  -- no region is in the list twice
  obtain rfl := hl.spans.eq_of_mem hmem hrel.found.mem h12 hin
  have hnodes := hl.nodes
  rw [hrel.found.split] at hnodes
  simp only [List.map_append, List.map_cons, List.map_reverse, List.nodup_append,
    List.nodup_cons, List.nodup_reverse, List.mem_reverse, List.mem_cons] at hnodes
  rcases hside with hm | hm
  · exact hnodes.2.2 _ (List.mem_map_of_mem hm) _ (.inl rfl) rfl
  · exact hnodes.2.1.1 (List.mem_map_of_mem hm)

theorem released (h : Blank env roots es s) (hrel : Released env roots vaddr s s' p)
    (hsize : p.found.size ≤ 2 ^ 19) (hflag : Flagged s'.mem (rootFrame env.cr3)) :
    Blank env roots es s' := by
  have hl := h.paged.ready.list
  have hr' := hrel.ready h.paged.ready
  have hsub := pagesInUse_subset hr'.list
  -- an entry stays, or its table goes
  have hcase : ∀ n ∈ pagesInUse s'.map.memoryAllocations,
      placeAt s' (rootFrame env.cr3) n = .nowhere ∨ leaf s'.mem (rootFrame env.cr3) (n * 4096)
        = leaf s.mem (rootFrame env.cr3) (n * 4096) := by
    intro n hn
    rcases hrel.leaf_other hl hsize (hsub hn) (pagesInUse_free hrel hl hn).2 with ⟨-, hnone⟩ | hsame
    · refine .inl ?_
      unfold placeAt
      rw [hnone]
      rfl
    · exact .inr hsame
  refine ⟨⟨hr', hflag, hsub, ?_⟩, fun n hn i hi hun => ?_⟩
  · rw [hrel.map]
    refine h.paged.slotted.shrink (fun n hn => (pagesInUse_free hrel hl hn).1) fun n hn j hj => ?_
    rcases hcase n hn with hno | hsame
    · cases hno.symm.trans hj
    · unfold placeAt at hj ⊢
      rwa [hsame] at hj
  · rcases hcase n hn with hno | hsame
    · rw [bytesAt_of_nowhere hno]
    · have hbytes := (hrel.intact_of_leaf h.paged.ready (hsub hn) hsame).bytes i hi
      rw [show n * 4096 / 4096 = n by omega] at hbytes
      rw [hbytes]
      exact h.zero n (pagesInUse_free hrel hl hn).1 i hi hun

theorem step {ev : Event} (h : Blank env roots es s) (hok : HandsOutClean env es s ev)
    (hstep : Step env s ev s') : Blank env roots (ev :: es) s' := by
  have hflag : ∀ vaddr, ev = .free vaddr → Flagged s'.mem (rootFrame env.cr3) := by
    rintro vaddr rfl
    cases hstep with
    | free hrun => exact petmemFreeVspace_flagged h.paged.ready hrun h.paged.flagged
  have hcase := step_cases h.paged.ready hok.1 hstep
  cases hcase with
  | alloc hnew => exact h.allocated hnew rfl hok.2
  | freeNone => exact h.congr (by simp) (by simp)
  | free hrel =>
    exact (h.released hrel (hok.2 _ hrel.found) (hflag _ rfl)).congr (by simp) (by simp)
  | refused => exact h.congr (by simp) (by simp)
  | fault hrange _ hf =>
    have hcov := (checkAddressRange_iff h.paged.ready.list _).1 hrange
    exact (h.faulted hcov hf).congr (by simp) (by simp)
  | read _ hcase hacc _ => exact (h.access hcase hacc).congr (by simp) (by simp)
  | write _ hcase hacc hw => exact (h.access hcase hacc).written hw

/-- What an access finds at an address that was not written. -/
theorem found {w : Bool} {s₁ s₂ : State} (h : Blank env roots es s₂)
    (hcov : Covered s₂.map.memoryAllocations a) (hun : unwritten a es = true)
    (hacc : Accessed roots (rootFrame env.cr3) a w s₁ s₂ f g) :
    s₂.mem (frameVa g (a % 4096)) = 0 := by
  have hl := h.paged.ready.list
  have hn := mem_pagesInUse hl hcov
  have ha := mem_region_of_range hl ((checkAddressRange_iff hl a).2 hcov)
  rw [hacc.found ha]
  refine h.zero _ hn _ (Nat.mod_lt _ (by norm_num)) ?_
  rwa [show a / 4096 * 4096 + a % 4096 = a by omega]

end Blank

/-! ## Runs -/

end OnDemand

end Petmem
