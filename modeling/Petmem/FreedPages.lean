import Petmem.Freeing
import Petmem.RegionRuns

/-!
# The pages that are given up with a region

`free_address` and `petmem_deinit_process` go over the pages of a region with an `int` counter,
and add `i * 4096`, an `int` too, to the address of the region. Both are the same sequence of calls
of `attempt_free_physical_address` (`freeAll`). For a region of at most 2^19 pages the addresses
are the pages of the region; page 2^19 of a larger one comes out 2 GB below its start.
-/

namespace Petmem
namespace OnDemand

open Regions

/-- `attempt_free_physical_address` of one address after the other. -/
def freeAll (cr3 : ℕ) (addresses : List ℕ) (k : Kern) : Except Stop Kern :=
  addresses.foldlM (fun k address => attemptFreePhysicalAddress cr3 address k) k

/-- The addresses that are passed for a region. -/
def passed (r : VaddrReg) : List ℕ := pagesFrom r.pageAddr r.size

/-- The loop over the pages of a region. -/
theorem freeRange_eq_freeAll (cr3 pageAddr : ℕ) (is : List ℕ) (k : Kern) :
    freeRange cr3 pageAddr is k = freeAll cr3 (is.map (pageOf pageAddr)) k := by
  unfold freeAll
  induction is generalizing k with
  | nil => rfl
  | cons i is ih =>
    rw [freeRange, List.map_cons, List.foldlM_cons]
    exact congrArg _ (funext fun k' => ih k')

/-- The loop over the regions of a process that ends. -/
theorem deinitRegions_eq_freeAll (cr3 : ℕ) (l : List VaddrReg) (k : Kern) :
    deinitRegions cr3 l k = freeAll cr3 (l.flatMap passed) k := by
  induction l generalizing k with
  | nil => rfl
  | cons r l ih =>
    rw [deinitRegions, freeRange_eq_freeAll, List.flatMap_cons, freeAll, freeAll,
      List.foldlM_append]
    exact congrArg _ (funext fun k' => ih k')

/-- What is passed for the region `r` of the list `l` are its own pages, each once. -/
structure OwnPages (l : List VaddrReg) (r : VaddrReg) : Prop where
  exact : passed r = (List.range r.size).map fun k => r.pageAddr + 4096 * k
  once : (passed r).Nodup
  inside : ∀ a ∈ passed r, r.pageAddr ≤ a ∧ a < r.pageAddr + 4096 * r.size
  others : ∀ r' ∈ l, r' ≠ r → ∀ a ∈ passed r,
    ¬ (r'.pageAddr ≤ a ∧ a < r'.pageAddr + 4096 * r'.size)

/-- At page 2^19 the product is -2^31. -/
theorem pageOf_wraps {A : ℕ} (h1 : 2 ^ 31 ≤ A) (h2 : A < 2 ^ 64) :
    pageOf A (2 ^ 19) = A - 2 ^ 31 := by
  unfold pageOf sext32
  norm_num
  omega

theorem ownPages_iff {l : List VaddrReg} (hl : Partition l) {r : VaddrReg} (hr : r ∈ l) :
    OwnPages l r ↔ r.size ≤ 2 ^ 19 := by
  obtain ⟨hlow, hhigh⟩ := hl.spans.bounds hr
  have hstart := hl.starts r hr
  constructor
  · intro h
    by_contra hlt
    -- from page 2^19 on `i * 4096` is negative, and the address lies below the petmem region
    have hmem : pageOf r.pageAddr (2 ^ 19) ∈ passed r :=
      List.mem_map.2 ⟨2 ^ 19, List.mem_range.2 (by omega), rfl⟩
    have hin := (h.inside _ hmem).1
    unfold petmemRegionStart petmemRegionEnd at *
    rw [pageOf_wraps (by omega) (by omega)] at hin
    omega
  · intro hsize
    -- below that nothing wraps
    have hexact : passed r = (List.range r.size).map fun k => r.pageAddr + 4096 * k := by
      refine List.map_congr_left fun i hi => pageOf_of_lt (mem_region.2 ⟨hlow, hstart⟩) ?_
      have := List.mem_range.1 hi
      omega
    have hinside : ∀ a ∈ passed r, r.pageAddr ≤ a ∧ a < r.pageAddr + 4096 * r.size := by
      intro a ha
      rw [hexact] at ha
      obtain ⟨i, hi, rfl⟩ := List.mem_map.1 ha
      have := List.mem_range.1 hi
      omega
    refine ⟨hexact, ?_, hinside, fun r' hr' hne a ha hin => ?_⟩
    · rw [hexact]
      exact List.nodup_range.map fun i j hij => by omega
    · exact hne (hl.spans.eq_of_mem hr' hr hin (hinside a ha))

variable {env : Env} {ok : List Event → State → Event → Prop} {k : Kern} {node : ℕ}
  {es : List Event} {s : State}

/-- **Freeing a region visits exactly its pages** if and only if it has at most 2^19 of them. The
first two parts say which addresses `free_address` and `petmem_deinit_process` pass. -/
theorem freed_pages_exact_iff (h : Run env ok (initState k node) es s) :
    (∀ page p, findRegion page [] s.map.memoryAllocations none = some p →
      p.found ∈ s.map.memoryAllocations ∧ freeAddress env page s = (do
        let k ← freeAll env.cr3 (passed p.found) s.toKern
        let l ← coalesce env.head page p
        return { toKern := k, map := { s.map with memoryAllocations := l } })) ∧
    petmemDeinitProcess env.cr3 s
      = freeAll env.cr3 (s.map.memoryAllocations.flatMap passed) s.toKern ∧
    ∀ r ∈ s.map.memoryAllocations, OwnPages s.map.memoryAllocations r ↔ r.size ≤ 2 ^ 19 := by
  refine ⟨fun page p hfind => ?_, deinitRegions_eq_freeAll _ _ _, fun r hr => ?_⟩
  · refine ⟨(isLastAt_of_findRegion hfind).mem, ?_⟩
    unfold freeAddress
    rw [hfind]
    dsimp only
    rw [freeRange_eq_freeAll]
    rfl
  · exact ownPages_iff (run_partition h) hr

/-- Regions of three, two and four pages, of which the first is given back: when the second is, its
two pages are passed and none of its neighbours. -/
theorem freed_pages_exact_iff_of_three_regions :
    ∃ es s r, Run plainEnv (fun _ _ _ => True) (initState emptyKern 1) es s ∧
      s.map.memoryAllocations = [⟨1, FREE, 3, petmemRegionStart⟩, r,
        ⟨3, ALLOCATED, 4, petmemRegionStart + 20480⟩,
        ⟨4, FREE, 2 ^ 25 - 9, petmemRegionStart + 36864⟩] ∧
      passed r = [petmemRegionStart + 12288, petmemRegionStart + 16384] ∧
      OwnPages s.map.memoryAllocations r ∧
      ∃ s', petmemFreeVspace plainEnv r.pageAddr s = .ok s' := by
  have hres : ((replay plainEnv [.alloc 2 3, .alloc 3 2, .alloc 4 4, .free petmemRegionStart]
      ([], initState emptyKern 1)).bind fun r =>
      (petmemFreeVspace plainEnv (petmemRegionStart + 12288) r.2).toOption.map
        fun _ => r.2.map.memoryAllocations) = some [⟨1, FREE, 3, petmemRegionStart⟩,
          ⟨2, ALLOCATED, 2, petmemRegionStart + 12288⟩,
          ⟨3, ALLOCATED, 4, petmemRegionStart + 20480⟩,
          ⟨4, FREE, 2 ^ 25 - 9, petmemRegionStart + 36864⟩] := by
    decide +kernel
  obtain ⟨⟨es, s⟩, hreplay, hres⟩ := Option.bind_eq_some_iff.1 hres
  obtain ⟨s', hfree, hlist⟩ := Option.map_eq_some_iff.1 hres
  have hrun := run_of_replay _ .start hreplay
  refine ⟨es, s, ⟨2, ALLOCATED, 2, petmemRegionStart + 12288⟩, hrun, hlist, by decide +kernel, ?_,
    s', ok_of_toOption hfree⟩
  have hlist : s.map.memoryAllocations = _ := hlist
  exact ((freed_pages_exact_iff hrun).2.2 _ (by rw [hlist]; decide)).2 (by norm_num)

/-- Two requests for 4 GB each: when the second region is freed, a page of the first is passed. -/
theorem frees_page_of_another_region :
    ∃ es s r r', Run plainEnv (fun _ _ ev => ∃ addr, ev = .alloc addr (2 ^ 20))
        (initState emptyKern 1) es s ∧
      r ∈ s.map.memoryAllocations ∧ r' ∈ s.map.memoryAllocations ∧ r' ≠ r ∧
      (∃ a ∈ passed r, r'.pageAddr ≤ a ∧ a < r'.pageAddr + 4096 * r'.size) ∧
      ¬ OwnPages s.map.memoryAllocations r := by
  have hrun : Run plainEnv (fun _ _ ev => ∃ addr, ev = .alloc addr (2 ^ 20))
      (initState emptyKern 1) _ _ :=
    .step (.step .start ⟨_, rfl⟩ (@Step.alloc _ _ 2 _ (by decide))) ⟨_, rfl⟩
      (@Step.alloc _ _ 3 _ (by decide))
  refine ⟨_, _, ⟨2, ALLOCATED, 2 ^ 20, petmemRegionStart + 2 ^ 32⟩,
    ⟨1, ALLOCATED, 2 ^ 20, petmemRegionStart⟩, hrun, by decide, by decide, by decide, ?_, ?_⟩
  · refine ⟨petmemRegionStart + 2 ^ 31, List.mem_map.2 ⟨2 ^ 19, by simp, ?_⟩, ?_⟩
    · rw [pageOf_wraps] <;> unfold petmemRegionStart <;> norm_num
    · unfold petmemRegionStart
      norm_num
  · rw [ownPages_iff (run_partition hrun) (by decide)]
    norm_num

end OnDemand

end Petmem
