import Petmem.Neighbours

/-!
# Frames that are not given back

`attempt_free_physical_address` hands `petmem_free_pages` kernel addresses, where physical ones are
asked for. No pool has such an address, so that the call does nothing: a free, and the end of a
process, clear entries of the page tables and leave the pools as they are.
-/

namespace Petmem
namespace OnDemand

open ByteMemory Dyadic RadixTree Buddy Pools Swap Regions Pte64

variable {env : Env} {s s' : State} {roots : Set ℕ} {Q : State → Prop} {r a f vaddr : ℕ}
  {k k' : Kern} {node : ℕ} {es : List Event} {p : Position}

/-! ## Free frames -/

/-- The frame lies in a free block of a pool. -/
def FreeFrame (k : Kern) (f : ℕ) : Prop :=
  ∃ mp ∈ k.pools, Covers mp (f * 4096) ∧
    ∃ b ∈ freeBlocks mp, b.Covers (f * 4096 + pageOffset - mp.baseAddr)

/-- An outstanding frame is not free. -/
theorem not_freeFrame_of_held (h : PoolsInv k) (hf : Held k f) : ¬ FreeFrame k f := by
  rintro ⟨mp, hmp, hc, b, hb, hcov⟩
  have htil := (h.inv mp hmp).tiling
  have hused := mem_usedBlocks hf hc
  obtain ⟨U, hU⟩ := Multiset.exists_cons_of_mem hused
  rw [zero_add, hU, Multiset.cons_add] at htil
  refine htil.not_covers_of_cons (Multiset.mem_add.2 (.inr hb)) ?_ hcov
  exact Block.covers_off (pageBlock mp (f * 4096))

theorem FreeFrame.congr (h : FreeFrame k f) (hp : k'.pools = k.pools) : FreeFrame k' f := by
  unfold FreeFrame at *
  rwa [hp]

/-- A frame that is handed out was free. -/
theorem hasFree_of_allocated {g : ℕ} (h : PoolsInv k) (ha : Allocated k g k') : HasFree k := by
  have hpool : ∃ mp ∈ k.pools, Covers mp (g * 4096) := by
    by_contra hno
    push Not at hno
    exact ha.fresh (.inr ⟨ha.lt, hno⟩)
  obtain ⟨mp, hmp, hc⟩ := hpool
  exact h.hasFree_of_not_held hmp (Nat.dvd_mul_left _ _) hc fun hin => ha.fresh (.inl hin)

/-- Whether the pools are exhausted depends on the pools alone. -/
theorem outOfFrames_of_pools (h : PoolsInv k) (h' : PoolsInv k') (hp : k'.pools = k.pools)
    (hout : isOut k = true) : OutOfFrames k' := by
  have hnone : ¬ HasFree k := by
    rcases petmemAllocPages_spec h with ⟨-, hno⟩ | ⟨g, k₁, hrun, ha⟩
    · exact hno
    · simp [isOut, hrun, ha.pos] at hout
  rcases petmemAllocPages_spec h' with ⟨hrun, -⟩ | ⟨g, k₁, -, ha⟩
  · exact ⟨k', hrun⟩
  · exact absurd ((hasFree_of_allocated h' ha).congr hp.symm) hnone

/-! ## Frees -/

/-- The free of the region gave back the frames of its pages in memory, and those of the tables it
unlinked. -/
structure GivesBack (env : Env) (s s' : State) (reg : VaddrReg) : Prop where
  pages : ∀ a, Within reg a → ∀ g, translation s.mem env.cr3 a = some g → FreeFrame s'.toKern g
  tables : ∀ a ∈ Region, ∀ ℓ, 1 ≤ ℓ → ℓ ≤ 3 → ∀ f,
    tableNode s.mem (rootFrame env.cr3) a ℓ = some f →
    tableNode s'.mem (rootFrame env.cr3) a ℓ ≠ some f → FreeFrame s'.toKern f

/-- Nothing happens to a page that is not in memory. -/
theorem freeRange_of_absent {cr3 A : ℕ} (h : Owned k roots) (hr : rootFrame cr3 ∈ roots)
    (hA : A ∈ Region) (is : List ℕ)
    (hnone : ∀ i ∈ is, tableNode k.mem (rootFrame cr3) (pageOf A i) 4 = none) :
    freeRange cr3 A is k = .ok k := by
  induction is with
  | nil => rfl
  | cons i rest ih =>
    have hrest := ih fun j hj => hnone j (List.mem_cons_of_mem _ hj)
    rcases attemptFree_cases h hr (pageOf_mem hA i) with ⟨-, hrun⟩ | ⟨-, -, -, g, -, -, -, h4, -⟩
    · rw [freeRange]
      exact bind_eq_ok.2 ⟨k, hrun, hrest⟩
    · rw [hnone i List.mem_cons_self] at h4
      cases h4

/-- A region that has no page in memory is given up without a change to the shared state. -/
theorem petmemFreeVspace_of_absent (hr : Ready env roots Q s)
    (hp : IsLastAt vaddr s.map.memoryAllocations p) (hsize : p.found.size ≤ 2 ^ 19)
    (hnone : ∀ a, Within p.found a → walk s.mem env.cr3 a = none)
    (hrun : petmemFreeVspace env vaddr s = .ok s') : s'.toKern = s.toKern := by
  rcases petmemFreeVspace_cases hrun with ⟨rfl, -⟩ | ⟨q, k, l', hq, hfree, -, rfl⟩
  · rfl
  · rw [hp.found_eq hq hr.list] at hfree
    have hstart : p.found.pageAddr ∈ Region := starts_subset hr.list ⟨p.found, hp.mem, rfl⟩
    have hsame := freeRange_of_absent hr.owned hr.root hstart (List.range p.found.size)
      fun i hi => ?_
    · exact Except.ok.inj (hfree.symm.trans hsame)
    · have hin : Within p.found (pageOf p.found.pageAddr i) :=
        (visited_iff hr.list hp.mem hsize).1 ⟨_, List.mem_map_of_mem hi, rfl⟩
      have hR := within_region hr.list hp.mem hin
      refine not_resident_iff.1 fun hres => ?_
      exact (resident_iff_walk hR).1 hres (hnone _ hin)

/-- The frames are given back if and only if there are none. -/
theorem givesBack_iff (hr : Ready env roots Q s) (hp : IsLastAt vaddr s.map.memoryAllocations p)
    (hsize : p.found.size ≤ 2 ^ 19) (hrun : petmemFreeVspace env vaddr s = .ok s') :
    GivesBack env s s' p.found ↔ ∀ a, Within p.found a → walk s.mem env.cr3 a = none := by
  constructor
  · intro hback a ha
    by_contra hw
    have hR := within_region hr.list hp.mem ha
    obtain ⟨g, hg⟩ := resident_iff.1 ((resident_iff_walk hR).2 hw)
    have hfree := hback.pages a ha g (by rw [translation_eq hR, hg])
    have hheld := hr.owned.held _ hr.root a hR 4 (by omega) (le_refl _) g hg
    -- the free leaves the pools and the list of outstanding frames alone
    have hkern : s'.toKern = { s.toKern with mem := s'.mem } := by
      rcases petmemFreeVspace_released hr hrun with ⟨rfl, -⟩ | ⟨q, hrel⟩
      · rfl
      · exact hrel.kern
    refine not_freeFrame_of_held hr.owned.pools hheld (hfree.congr ?_)
    rw [hkern]
  · intro hnone
    have hkern := petmemFreeVspace_of_absent hr hp hsize hnone hrun
    refine ⟨fun a ha g hg => ?_, fun a _ ℓ _ _ f hf hne => absurd ?_ hne⟩
    · unfold translation at hg
      rw [hnone a ha] at hg
      cases hg
    · rw [hkern]
      exact hf

/-! ## The end of a process -/

/-- The frame was handed out by the pools and is in the page tables of the process. -/
def FrameOf (env : Env) (s : State) (f : ℕ) : Prop :=
  Held s.toKern f ∧
    ∃ a ∈ Region, ∃ ℓ ≤ 4, tableNode s.mem (rootFrame env.cr3) a ℓ = some f

/-- The end of a process returns, and the pools are as they were. -/
theorem petmemDeinitProcess_spec (hr : Ready env roots Q s) :
    ∃ m', petmemDeinitProcess env.cr3 s = .ok { s.toKern with mem := m' } ∧
      Owned { s.toKern with mem := m' } roots := by
  obtain ⟨m', hrun, ho, -⟩ := deinitRegions_spec (P := fun _ => True) hr.root
    (fun _ _ _ _ => trivial) s.map.memoryAllocations
    (fun reg hreg => starts_subset hr.list ⟨reg, hreg, rfl⟩) hr.owned trivial
  exact ⟨m', hrun, ho⟩

/-- **A free gives memory back** if and only if it has none to give: no page of the region is in
memory. At the end of a process its frames are free if and only if it has none. -/
theorem memory_given_back_iff (hs : Start env roots k)
    (h : Run env (AtEvictions env fun s => HeadAbsent env s.mem) (initState k node) es s) :
    (∀ vaddr p s', IsLastAt vaddr s.map.memoryAllocations p → p.found.status = ALLOCATED →
      p.found.size ≤ 2 ^ 19 → petmemFreeVspace env vaddr s = .ok s' →
      (GivesBack env s s' p.found ↔ ∀ a, Within p.found a → walk s.mem env.cr3 a = none)) ∧
    ∃ k', petmemDeinitProcess env.cr3 s = .ok k' ∧
      ((∀ f, FrameOf env s f → FreeFrame k' f) ↔ ∀ f, ¬ FrameOf env s f) := by
  have hr : Ready env roots (fun s => HeadAbsent env s.mem) s :=
    run_ready hs (fun _ h => h) (fun _ _ _ h => h) h
  refine ⟨fun vaddr p s' hp _ hsize hrun => givesBack_iff hr hp hsize hrun, ?_⟩
  obtain ⟨m', hrun, ho⟩ := petmemDeinitProcess_spec hr
  refine ⟨_, hrun, fun hfree f hf => ?_, fun hno f hf => absurd hf (hno f)⟩
  exact not_freeFrame_of_held ho.pools (held_with_mem.2 hf.1) (hfree f hf)

/-- A region that was never touched is freed. -/
theorem memory_given_back_iff_of_untouched_page :
    ∃ es s s' p, Run smallEnv (AtEvictions smallEnv fun s => HeadAbsent smallEnv s.mem)
        (initState (smallKern (eightSlots 0)) 1) es s ∧
      IsLastAt 0x1000000000 s.map.memoryAllocations p ∧ p.found.status = ALLOCATED ∧
      petmemFreeVspace smallEnv 0x1000000000 s = .ok s' ∧ GivesBack smallEnv s s' p.found := by
  have hres : (replayCalm smallEnv [.alloc 2 1] ([], initState (smallKern (eightSlots 0)) 1)).bind
      (fun r => (petmemFreeVspace smallEnv 0x1000000000 r.2).toOption.map fun _ =>
        ((findRegion 0x1000000000 [] r.2.map.memoryAllocations none).map Position.found,
          (walk r.2.mem smallEnv.cr3 0x1000000000).isNone))
      = some (some ⟨1, ALLOCATED, 1, 0x1000000000⟩, true) := by
    decide +kernel
  obtain ⟨⟨es, s⟩, hreplay, hres⟩ := Option.bind_eq_some_iff.1 hres
  obtain ⟨s', hfree, heq⟩ := Option.map_eq_some_iff.1 hres
  obtain ⟨hfind, hwalk⟩ := Prod.mk.inj heq
  obtain ⟨p, hfind, hfound⟩ := Option.map_eq_some_iff.1 hfind
  have hp := isLastAt_of_findRegion hfind
  have hrun := run_of_replayCalm (Q := fun s => HeadAbsent smallEnv s.mem) _ .start hreplay
  have hstat : p.found.status = ALLOCATED := by rw [hfound]
  refine ⟨es, s, s', p, hrun, hp, hstat, ok_of_toOption hfree, ?_⟩
  refine ((memory_given_back_iff (smallKern_unmapped _).1 hrun).1 _ p s' hp hstat
    (by rw [hfound]; norm_num) (ok_of_toOption hfree)).2 fun a ha => ?_
  rw [hfound] at ha
  unfold Within at ha
  refine walk_none_of_page ?_ (Option.isNone_iff_eq_none.1 hwalk) ?_
  · rw [mem_region]
    unfold petmemRegionStart petmemRegionEnd
    norm_num
  · simp only at ha
    omega

/-- A region is allocated, touched and freed on a machine with three frames. The frame of its page
is not free again, and although no region is left in use, `petmem_alloc_pages` fails. -/
theorem freed_frames_lost :
    ∃ es s s' p g, Run smallEnv (AtEvictions smallEnv fun s => HeadAbsent smallEnv s.mem)
        (initState (smallKern (eightSlots 0)) 1) es s ∧
      IsLastAt 0x1000000000 s.map.memoryAllocations p ∧
      p.found = ⟨1, ALLOCATED, 1, 0x1000000000⟩ ∧
      petmemFreeVspace smallEnv 0x1000000000 s = .ok s' ∧
      translation s.mem smallEnv.cr3 0x1000000000 = some g ∧ ¬ FreeFrame s'.toKern g ∧
      (∀ reg ∈ s'.map.memoryAllocations, reg.status = FREE) ∧ OutOfFrames s'.toKern := by
  have hres : (replayCalm smallEnv [.alloc 2 1, .read 0x1000000000]
      ([], initState (smallKern (eightSlots 0)) 1)).map (fun r =>
        ((findRegion 0x1000000000 [] r.2.map.memoryAllocations none).map (fun p =>
          (p.found, (coalesce smallEnv.head 0x1000000000 p).toOption.map fun l =>
            l.all fun reg => reg.status = FREE)),
          (translation r.2.mem smallEnv.cr3 0x1000000000).isSome && isOut r.2.toKern))
      = some (some (⟨1, ALLOCATED, 1, 0x1000000000⟩, some true), true) := by
    decide +kernel
  obtain ⟨⟨es, s⟩, hreplay, heq⟩ := Option.map_eq_some_iff.1 hres
  obtain ⟨hfind, heq⟩ := Prod.mk.inj heq
  rw [Bool.and_eq_true] at heq
  obtain ⟨p, hfind, heq'⟩ := Option.map_eq_some_iff.1 hfind
  obtain ⟨hfound, hco⟩ := Prod.mk.inj heq'
  obtain ⟨l, hco, hall⟩ := Option.map_eq_some_iff.1 hco
  obtain ⟨g, hg⟩ := Option.isSome_iff_exists.1 heq.1
  have hp := isLastAt_of_findRegion hfind
  have hrun := run_of_replayCalm (Q := fun s => HeadAbsent smallEnv s.mem) _ .start hreplay
  have hr := run_ready (smallKern_unmapped _).1 (fun _ h => h) (fun _ _ _ h => h) hrun
  have hR : 0x1000000000 ∈ Region := by
    rw [mem_region]
    unfold petmemRegionStart petmemRegionEnd
    norm_num
  -- the loop over the pages leaves the pools as they are
  obtain ⟨m', hloop, hpr, -⟩ := freeRange_spec hr.root
    (starts_subset hr.list ⟨p.found, hp.mem, rfl⟩) (List.range p.found.size) hr.owned
  have hheld := hr.owned.held _ hr.root _ hR 4 (by omega) (le_refl _) g
    (by rwa [← translation_eq hR])
  refine ⟨es, s, ⟨{ s.toKern with mem := m' }, { s.map with memoryAllocations := l }⟩, p, g, hrun,
    hp, hfound, ?_, hg, not_freeFrame_of_held hpr.owned.pools (held_with_mem.2 hheld), ?_, ?_⟩
  · unfold petmemFreeVspace freeAddress
    rw [hfind]
    exact bind_eq_ok.2 ⟨_, hloop, bind_eq_ok.2 ⟨l, ok_of_toOption hco, rfl⟩⟩
  · intro reg hreg
    exact of_decide_eq_true (List.all_eq_true.1 hall reg hreg)
  · exact outOfFrames_of_pools hr.owned.pools hpr.owned.pools rfl heq.2

end OnDemand

end Petmem
