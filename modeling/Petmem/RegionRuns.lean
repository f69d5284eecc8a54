import Petmem.Process

/-!
# The region list over whole runs

Every operation of a process keeps the region list a partition of the petmem region
(`step_partition`). When every request is for at least one page, the list is a faithful picture
of the allocations that are outstanding (`Tracks`): the request returns the lowest address where
the pages fit, freeing an address ends the allocation there and nothing else, and the list is
determined by the outstanding allocations.
-/

namespace Petmem
namespace OnDemand

open ByteMemory Regions

/-! ## The list part of the requests -/

/-- Whether the merges find the list head free decides only whether they go wrong. -/
theorem mergeNext_head {head head' : VaddrReg} {page : ℕ} {p p' : Position}
    (h : mergeNext head page p = .ok p') (hhead : head'.status ≠ FREE) :
    mergeNext head' page p = .ok p' := by
  unfold mergeNext at *
  cases hafter : p.after with
  | cons next after =>
    rw [hafter] at h
    exact h
  | nil =>
    rw [hafter] at h
    have hm : mergeable page head' = false := by simp [mergeable, hhead]
    dsimp only at h ⊢
    split at h
    · cases h
    · rw [hm]
      exact h

theorem mergePrev_head {head head' : VaddrReg} {page : ℕ} {p p' : Position}
    (h : mergePrev head page p = .ok p') (hhead : head'.status ≠ FREE) :
    mergePrev head' page p = .ok p' := by
  unfold mergePrev at *
  cases hbefore : p.before with
  | cons prev before =>
    rw [hbefore] at h
    exact h
  | nil =>
    rw [hbefore] at h
    have hm : mergeable page head' = false := by simp [mergeable, hhead]
    dsimp only at h ⊢
    split at h
    · cases h
    · rw [hm]
      exact h

/-- The list that `free_address` leaves when it returns. -/
theorem coalesce_cases {head : VaddrReg} {page : ℕ} {l l' : List VaddrReg} {p : Position}
    (hl : Partition l) (hp : IsLastAt page l p) (h : coalesce head page p = .ok l') :
    ∃ pre x r y post, l' = pre ++ r :: post ∧ Coalesced p pre x r y post := by
  have hhead : ({ head with status := ALLOCATED } : VaddrReg).status ≠ FREE :=
    show ALLOCATED ≠ FREE by decide
  have h' : coalesce { head with status := ALLOCATED } page p = .ok l' := by
    unfold coalesce at *
    obtain ⟨p₁, h1, h⟩ := bind_eq_ok.1 h
    obtain ⟨p₂, h2, h⟩ := bind_eq_ok.1 h
    exact bind_eq_ok.2 ⟨p₁, mergeNext_head h1 hhead, bind_eq_ok.2 ⟨p₂, mergePrev_head h2 hhead, h⟩⟩
  obtain ⟨pre, x, r, y, post, hrun, hc⟩ := coalesce_spec hhead hl hp
  refine ⟨pre, x, r, y, post, ?_, hc⟩
  exact Except.ok.inj (h'.symm.trans hrun)

variable {env : Env} {s s' : State}

/-- What `petmem_free_vspace` can do: no region starts at the address and nothing changes, or
the last one that does is given up. -/
theorem petmemFreeVspace_cases {a : ℕ} (h : petmemFreeVspace env a s = .ok s') :
    (s' = s ∧ ∀ r ∈ s.map.memoryAllocations, r.pageAddr ≠ a) ∨
    ∃ p k l', IsLastAt a s.map.memoryAllocations p ∧
      freeRange env.cr3 p.found.pageAddr (List.range p.found.size) s.toKern = .ok k ∧
      coalesce env.head a p = .ok l' ∧
      s' = { toKern := k, map := { s.map with memoryAllocations := l' } } := by
  unfold petmemFreeVspace freeAddress at h
  cases hfind : findRegion a [] s.map.memoryAllocations none with
  | none =>
    rw [hfind] at h
    exact .inl ⟨(Except.ok.inj h).symm, fun r hr => findRegion_eq_none hfind hr⟩
  | some p =>
    rw [hfind] at h
    obtain ⟨k, h1, h⟩ := bind_eq_ok.1 h
    obtain ⟨l', h2, h⟩ := bind_eq_ok.1 h
    exact .inr ⟨p, k, l', isLastAt_of_findRegion hfind, h1, h2, (Except.ok.inj h).symm⟩

/-- Where the list head does not read as a free region, a free returns when the loop over the pages
of the region does. -/
theorem petmemFreeVspace_of_loop {a : ℕ} (hhead : env.head.status ≠ FREE)
    (hl : Partition s.map.memoryAllocations)
    (hloop : ∀ p, findRegion a [] s.map.memoryAllocations none = some p →
      ∃ k', freeRange env.cr3 p.found.pageAddr (List.range p.found.size) s.toKern = .ok k') :
    ∃ s', petmemFreeVspace env a s = .ok s' := by
  unfold petmemFreeVspace freeAddress
  cases hfind : findRegion a [] s.map.memoryAllocations none with
  | none => exact ⟨s, rfl⟩
  | some p =>
    obtain ⟨k', hloop⟩ := hloop p hfind
    obtain ⟨pre, x, r, y, post, hco, -⟩ := coalesce_spec hhead hl (isLastAt_of_findRegion hfind)
    exact ⟨_, bind_eq_ok.2 ⟨k', hloop, bind_eq_ok.2 ⟨_, hco, rfl⟩⟩⟩

/-- Every operation of the process keeps the list a partition. -/
theorem step_partition {ev : Event} (h : Step env s ev s')
    (hl : Partition s.map.memoryAllocations) : Partition s'.map.memoryAllocations := by
  cases h with
  | alloc hnew => exact hl.allocate hnew
  | free hrun =>
    rcases petmemFreeVspace_cases hrun with ⟨rfl, -⟩ | ⟨p, k, l', hp, -, hco, rfl⟩
    · exact hl
    · obtain ⟨pre, x, r, y, post, rfl, hc⟩ := coalesce_cases hl hp hco
      exact hc.partition hp hl
  | fault h => rwa [petmemHandlePagefault_list h]
  | read h => rwa [userRead_list h]
  | write h => rwa [userWrite_list h]

/-- The state in which `petmem_init_process` leaves a process. -/
def initState (k : Kern) (node : ℕ) : State := ⟨k, petmemInitProcess node k.file⟩

variable {ok : List Event → State → Event → Prop} {k : Kern} {node : ℕ} {es : List Event}

theorem run_partition (h : Run env ok (initState k node) es s) :
    Partition s.map.memoryAllocations :=
  h.induct (P := fun _ s => Partition s.map.memoryAllocations) (partition_initRegions node)
    fun _ _ _ _ hl _ hs => step_partition hs hl

/-! ## The partition, along the list -/

/-- In list order each region ends where the next one starts. -/
theorem spans_iff_isChain {a b : ℕ} {l : List VaddrReg} (hne : l ≠ []) :
    Spans a l b ↔ (∀ r ∈ l.head?, r.pageAddr = a) ∧
      l.IsChain (fun r r' => r.pageAddr + 4096 * r.size = r'.pageAddr) ∧
      ∀ r ∈ l.getLast?, r.pageAddr + 4096 * r.size = b := by
  induction l generalizing a with
  | nil => exact absurd rfl hne
  | cons r l ih =>
    cases l with
    | nil =>
      simp only [Spans, List.head?_cons, Option.mem_some_iff, forall_eq', List.isChain_singleton,
        true_and, List.getLast?_singleton]
      exact and_congr_right fun h => by rw [h]
    | cons r' l =>
      rw [Spans, ih (by simp)]
      simp only [List.head?_cons, Option.mem_some_iff, forall_eq', List.isChain_cons_cons,
        List.getLast?_cons_cons]
      constructor
      · rintro ⟨rfl, h1, h2, h3⟩
        exact ⟨rfl, ⟨h1.symm, h2⟩, h3⟩
      · rintro ⟨rfl, ⟨h1, h2⟩, h3⟩
        exact ⟨rfl, h1.symm, h2, h3⟩

/-- In every run the region list starts at `PETMEM_REGION_START`, has no gaps or overlaps, ends
at `PETMEM_REGION_END`, and its free regions have pages and are kept apart. -/
theorem region_list_invariant (h : Run env ok (initState k node) es s) :
    (∃ r, s.map.memoryAllocations.head? = some r ∧ r.pageAddr = petmemRegionStart) ∧
    s.map.memoryAllocations.IsChain (fun r r' => r.pageAddr + 4096 * r.size = r'.pageAddr) ∧
    (∃ r, s.map.memoryAllocations.getLast? = some r ∧
      r.pageAddr + 4096 * r.size = petmemRegionEnd) ∧
    (∀ r ∈ s.map.memoryAllocations, r.status = FREE → 1 ≤ r.size) ∧
    s.map.memoryAllocations.IsChain NotBothFree := by
  have hl := run_partition h
  generalize s.map.memoryAllocations = l at hl
  have hne : l ≠ [] := by
    rintro rfl
    exact absurd hl.spans (by simp [Spans, petmemRegionStart, petmemRegionEnd])
  obtain ⟨hhead, hchain, hlast⟩ := (spans_iff_isChain hne).1 hl.spans
  refine ⟨⟨l.head hne, List.head?_eq_some_head hne, hhead _ (List.head?_eq_some_head hne)⟩, hchain,
    ⟨l.getLast hne, List.getLast?_eq_some_getLast hne, ?_⟩, hl.free_pos, hl.apart⟩
  exact hlast _ (List.getLast?_eq_some_getLast hne)

/-- A state with no memory, for runs that touch none. -/
def emptyKern : Kern := ⟨fun _ => 0, [], ⟨fun _ => 0, 0⟩, []⟩

/-- Surroundings in which the list head does not read as a free region. -/
def plainEnv : Env := ⟨0, ⟨0, ALLOCATED, 0, 0⟩⟩

/-- Three pages are requested and the first two are given back: the regions are merged. -/
theorem region_list_invariant_after_merge :
    ∃ es s, Run plainEnv (fun _ _ _ => True) (initState emptyKern 1) es s ∧
      s.map.memoryAllocations = [⟨2, FREE, 2, petmemRegionStart⟩,
        ⟨3, ALLOCATED, 1, petmemRegionStart + 8192⟩,
        ⟨4, FREE, 2 ^ 25 - 3, petmemRegionStart + 12288⟩] ∧
      s.map.memoryAllocations.IsChain NotBothFree := by
  have hres : (replay plainEnv [.alloc 2 1, .alloc 3 1, .alloc 4 1, .free petmemRegionStart,
      .free (petmemRegionStart + 4096)] ([], initState emptyKern 1)).map
        (fun r => r.2.map.memoryAllocations) = some [⟨2, FREE, 2, petmemRegionStart⟩,
        ⟨3, ALLOCATED, 1, petmemRegionStart + 8192⟩,
        ⟨4, FREE, 2 ^ 25 - 3, petmemRegionStart + 12288⟩] := by
    decide +kernel
  obtain ⟨⟨es, s⟩, hreplay, hlist⟩ := Option.map_eq_some_iff.1 hres
  have hrun := run_of_replay _ .start hreplay
  exact ⟨es, s, hrun, hlist, (region_list_invariant hrun).2.2.2.2⟩

/-! ## Outstanding allocations -/

/-- The allocations that are outstanding after a history: address and number of pages. -/
def outstanding : List Event → List (ℕ × ℕ)
  | [] => []
  | .alloc addr numPages :: es =>
    if addr = noRegion then outstanding es else (addr, numPages) :: outstanding es
  | .free vaddr :: es => (outstanding es).filter fun p => p.1 ≠ vaddr
  | _ :: es => outstanding es

/-- Requests are for at least one page, and only outstanding allocations are freed. -/
def VspaceOk (es : List Event) (_ : State) : Event → Prop
  | .alloc _ numPages => 1 ≤ numPages
  | .free vaddr => ∃ numPages, (vaddr, numPages) ∈ outstanding es
  | _ => True

instance (es : List Event) (s : State) : DecidablePred (VspaceOk es s)
  | .alloc _ numPages => inferInstanceAs (Decidable (1 ≤ numPages))
  | .free vaddr => decidable_of_iff (∃ p ∈ outstanding es, p.1 = vaddr)
    ⟨fun ⟨p, hp, h⟩ => ⟨p.2, h ▸ hp⟩, fun ⟨_, hp⟩ => ⟨_, hp, rfl⟩⟩
  | .fault _ _ | .read _ _ | .write _ _ => inferInstanceAs (Decidable True)

/-- Operations in order, when all of them come back and meet `VspaceOk`. -/
def replayVspace (env : Env) : List Op → List Event × State → Option (List Event × State) :=
  replayIf (fun es s _ ev => decide (VspaceOk es s ev)) env

theorem run_of_replayVspace {ops : List Op} {es es' : List Event} {s₀ s s' : State}
    (hrun : Run env VspaceOk s₀ es s) (h : replayVspace env ops (es, s) = some (es', s')) :
    Run env VspaceOk s₀ es' s' :=
  run_of_replayIf (fun _ _ _ _ _ hok _ => of_decide_eq_true hok) ops hrun h

/-- The `n` pages from `a` lie in the petmem region, clear of the allocations `out`. -/
def Fits (out : List (ℕ × ℕ)) (n a : ℕ) : Prop :=
  4096 ∣ a ∧ petmemRegionStart ≤ a ∧ a + 4096 * n ≤ petmemRegionEnd ∧
    ∀ p ∈ out, a + 4096 * n ≤ p.1 ∨ p.1 + 4096 * p.2 ≤ a

/-- The regions in use are the allocations `out`, and have pages. -/
structure Tracks (out : List (ℕ × ℕ)) (l : List VaddrReg) : Prop where
  mem : ∀ p, p ∈ out ↔ ∃ r ∈ l, r.status = ALLOCATED ∧ (r.pageAddr, r.size) = p
  pos : ∀ r ∈ l, r.status = ALLOCATED → 1 ≤ r.size

/-! ## The list tracks the allocations -/

theorem tracks_init (node : ℕ) : Tracks [] (initRegions node) where
  mem p := by simp [initRegions, ALLOCATED, FREE]
  pos r hr := by
    rw [List.mem_singleton.1 hr]
    simp [ALLOCATED, FREE]

namespace Tracks

variable {out : List (ℕ × ℕ)} {l : List VaddrReg}

theorem size_pos (h : Tracks out l) (hl : Partition l) {r : VaddrReg} (hr : r ∈ l) :
    1 ≤ r.size := by
  rcases hl.status r hr with hs | hs
  · exact h.pos r hr hs
  · exact hl.free_pos r hr hs

/-- A region in the middle of the list becomes one in use. -/
theorem insert {pre post : List VaddrReg} {cur : VaddrReg} (h : Tracks out l)
    (r : VaddrReg) (mid : List VaddrReg) (hl : l = pre ++ cur :: post) (hcur : cur.status = FREE)
    (hr : r.status = ALLOCATED)
    (hpos : 1 ≤ r.size) (hmid : ∀ z ∈ mid, z.status = FREE) :
    Tracks ((r.pageAddr, r.size) :: out) (pre ++ r :: (mid ++ post)) where
  mem p := by
    -- of the regions in use only `r` is new: the one it replaces was free, and so is what is left
    have hmem : ∀ z : VaddrReg, z.status = ALLOCATED →
        (z ∈ pre ++ r :: (mid ++ post) ↔ z = r ∨ z ∈ l) := by
      intro z hz
      have h1 : z ≠ cur := by
        rintro rfl
        rw [hcur] at hz
        exact absurd hz (by decide)
      have h2 : z ∉ mid := fun hm => by
        rw [hmid z hm] at hz
        exact absurd hz (by decide)
      rw [hl]
      simp only [List.mem_append, List.mem_cons, h1, h2, false_or]
      tauto
    rw [List.mem_cons, h.mem]
    constructor
    · rintro (rfl | ⟨z, hz, hs, rfl⟩)
      · exact ⟨r, by simp, hr, rfl⟩
      · exact ⟨z, (hmem z hs).2 (.inr hz), hs, rfl⟩
    · rintro ⟨z, hz, hs, rfl⟩
      rcases (hmem z hs).1 hz with rfl | hz
      · exact .inl rfl
      · exact .inr ⟨z, hz, hs, rfl⟩
  pos z hz hs := by
    rcases List.mem_append.1 hz with hz | hz
    · exact h.pos z (by simp [hl, hz]) hs
    · rcases List.mem_cons.1 hz with rfl | hz
      · exact hpos
      · rcases List.mem_append.1 hz with hz | hz
        · rw [hmid z hz] at hs
          exact absurd hs (by decide)
        · exact h.pos z (by simp [hl, hz]) hs

/-- `allocate` of at least one page. -/
theorem allocate (h : Tracks out l) (newNode : ℕ) {n : ℕ} (hn : 1 ≤ n) :
    ((Regions.allocate newNode n l).2 = noRegion ∧ (Regions.allocate newNode n l).1 = l ∧
      ∀ r ∈ l, r.status = FREE → r.size < n) ∨
    ∃ pre cur post, l = pre ++ cur :: post ∧ cur.status = FREE ∧ n ≤ cur.size ∧
      (∀ r ∈ pre, r.status = FREE → r.size < n) ∧
      (Regions.allocate newNode n l).2 = cur.pageAddr ∧
      Tracks ((cur.pageAddr, n) :: out) (Regions.allocate newNode n l).1 := by
  have hcase := allocate_cases newNode n l
  generalize Regions.allocate newNode n l = res at hcase
  cases hcase with
  | full hfull => exact .inl ⟨rfl, rfl, hfull⟩
  | @exact pre post cur hsplit hpre hs hsz =>
    refine .inr ⟨pre, cur, post, hsplit, hs, by omega, hpre, rfl, ?_⟩
    have := h.insert { cur with status := ALLOCATED } [] hsplit hs rfl
      (show 1 ≤ cur.size by omega) (by simp)
    rw [← hsz]
    exact this
  | @cut pre post cur hsplit hpre hs hsz =>
    refine .inr ⟨pre, cur, post, hsplit, hs, by omega, hpre, rfl, ?_⟩
    exact h.insert { cur with status := ALLOCATED, size := n } [_] hsplit hs rfl hn (by simp)

/-- The region that is freed at an outstanding address is the one that was allocated. -/
theorem found (h : Tracks out l) (hl : Partition l) {a n : ℕ} {p : Position} (ha : (a, n) ∈ out)
    (hp : IsLastAt a l p) : p.found.status = ALLOCATED ∧ p.found.size = n := by
  obtain ⟨r, hr, hs, hrp⟩ := (h.mem _).1 ha
  obtain ⟨rfl, rfl⟩ := Prod.mk.inj hrp
  have hpos := h.pos r hr hs
  have hpos' := h.size_pos hl hp.mem
  have haddr := hp.addr
  -- regions with pages that start at one address are one region
  obtain rfl : r = p.found := hl.spans.eq_of_mem (x := r.pageAddr) hr hp.mem (by omega) (by omega)
  exact ⟨hs, rfl⟩

/-- Freeing an outstanding address. -/
theorem free (h : Tracks out l) (hl : Partition l) {a : ℕ} {p : Position}
    {pre x y post : List VaddrReg} {r : VaddrReg} (hp : IsLastAt a l p)
    (hc : Coalesced p pre x r y post) :
    Tracks (out.filter fun q => q.1 ≠ a) (pre ++ r :: post) where
  mem q := by
    have hsplit := hp.split
    have hspans := hl.spans
    rw [hsplit] at hspans
    obtain ⟨hbelow, -⟩ := hspans.beside
    rw [List.mem_filter, h.mem]
    constructor
    · rintro ⟨⟨z, hz, hs, rfl⟩, hne⟩
      refine ⟨z, (hc.mem_allocated hs).2 ?_, hs, rfl⟩
      rw [hsplit] at hz
      -- the region that is freed starts at `a`
      have hzf : z ≠ p.found := by
        rintro rfl
        simp [hp.addr] at hne
      simpa [hzf] using hz
    · rintro ⟨z, hz, hs, rfl⟩
      have hzl : z ∈ l := by
        rw [hsplit]
        rcases (hc.mem_allocated hs).1 hz with hz | hz <;> simp [hz]
      refine ⟨⟨z, hzl, hs, rfl⟩, ?_⟩
      have hne : z.pageAddr ≠ a := by
        rcases (hc.mem_allocated hs).1 hz with hz | hz
        -- a region in front ends at or before `a`, and has pages
        · have h1 := hbelow z (List.mem_reverse.2 hz)
          have h2 := h.pos z hzl hs
          have h3 := hp.addr
          omega
        · exact hp.last z hz
      simpa using hne
  pos z hz hs := by
    refine h.pos z ?_ hs
    rw [hp.split]
    rcases (hc.mem_allocated hs).1 hz with hz | hz <;> simp [hz]

/-- A free region that is large enough holds the pages. -/
theorem fits_of_free (h : Tracks out l) (hl : Partition l) {r : VaddrReg} {n : ℕ} (hr : r ∈ l)
    (hs : r.status = FREE) (hn : n ≤ r.size) : Fits out n r.pageAddr := by
  have hb := hl.spans.bounds hr
  refine ⟨hl.spans.dvd (by decide) hr, hb.1, by omega, fun p hp => ?_⟩
  obtain ⟨z, hz, hzs, rfl⟩ := (h.mem p).1 hp
  obtain ⟨pre, post, rfl⟩ := List.append_of_mem hr
  obtain ⟨h1, h2⟩ := hl.spans.beside
  dsimp only
  rcases List.mem_append.1 hz with hz | hz
  · exact .inr (h1 z hz)
  · rcases List.mem_cons.1 hz with rfl | hz
    · rw [hs] at hzs
      exact absurd hzs (by decide)
    · have := h2 z hz
      exact .inl (by omega)

/-- Pages that fit lie in one free region: regions in use keep free ones apart. -/
theorem exists_free_of_fits (h : Tracks out l) (hl : Partition l) {n a : ℕ} (hn : 1 ≤ n)
    (hf : Fits out n a) : ∃ r ∈ l, r.status = FREE ∧ n ≤ r.size ∧ r.pageAddr ≤ a := by
  obtain ⟨-, h1, h2, hclear⟩ := hf
  obtain ⟨r, hr, hra, hrb⟩ := hl.spans.exists_mem h1 (show a < petmemRegionEnd by omega)
  have hblocks : ∀ z ∈ l, z.status = ALLOCATED →
      a + 4096 * n ≤ z.pageAddr ∨ z.pageAddr + 4096 * z.size ≤ a := fun z hz hs =>
    hclear (z.pageAddr, z.size) ((h.mem _).2 ⟨z, hz, hs, rfl⟩)
  have hfree : r.status = FREE := by
    refine (hl.status r hr).resolve_left fun hs => ?_
    have := hblocks r hr hs
    omega
  refine ⟨r, hr, hfree, ?_, hra⟩
  by_contra hlt
  obtain ⟨pre, post, rfl⟩ := List.append_of_mem hr
  obtain ⟨c, -, rfl, hpost⟩ := spans_append.1 hl.spans
  cases post with
  | nil =>
    have hend : r.pageAddr + 4096 * r.size = petmemRegionEnd := hpost
    omega
  | cons z post =>
    -- the neighbour is in use and has pages
    have hzs := hl.next_allocated hfree
    have hz : z ∈ pre ++ r :: z :: post := by simp
    have hpos := h.pos z hz hzs
    have haddr := hpost.1
    have := hblocks z hz hzs
    omega

/-- `check_address_range` accepts exactly the addresses of the allocations. -/
theorem checkAddressRange_iff (h : Tracks out l) (hl : Partition l) (x : ℕ) :
    checkAddressRange l x = true ↔ ∃ p ∈ out, p.1 ≤ x ∧ x < p.1 + 4096 * p.2 := by
  rw [Regions.checkAddressRange_iff hl]
  constructor
  · rintro ⟨r, hr, hs, h1, h2⟩
    exact ⟨(r.pageAddr, r.size), (h.mem _).2 ⟨r, hr, hs, rfl⟩, h1, h2⟩
  · rintro ⟨p, hp, h1, h2⟩
    obtain ⟨r, hr, hs, rfl⟩ := (h.mem p).1 hp
    exact ⟨r, hr, hs, h1, h2⟩

/-- Freeing an outstanding address ends the allocation there and no other. -/
theorem free_vspace {a n : ℕ} (ht : Tracks out s.map.memoryAllocations)
    (hl : Partition s.map.memoryAllocations) (ha : (a, n) ∈ out)
    (hrun : petmemFreeVspace env a s = .ok s') :
    Partition s'.map.memoryAllocations ∧
      Tracks (out.filter fun q => q.1 ≠ a) s'.map.memoryAllocations := by
  rcases petmemFreeVspace_cases hrun with ⟨-, hnone⟩ | ⟨p, k, l', hp, -, hco, rfl⟩
  · obtain ⟨r, hr, -, hrp⟩ := (ht.mem _).1 ha
    exact absurd (Prod.mk.inj hrp).1 (hnone r hr)
  · obtain ⟨pre, x, r, y, post, rfl, hc⟩ := coalesce_cases hl hp hco
    exact ⟨hc.partition hp hl, ht.free hl hp hc⟩

end Tracks

/-- Along a run of the two requests the list tracks the outstanding allocations. -/
theorem run_tracks (h : Run env VspaceOk (initState k node) es s) :
    Partition s.map.memoryAllocations ∧ Tracks (outstanding es) s.map.memoryAllocations := by
  have hinit : Partition (initState k node).map.memoryAllocations ∧
      Tracks (outstanding []) (initState k node).map.memoryAllocations :=
    ⟨partition_initRegions node, tracks_init node⟩
  refine h.induct (P := fun es s =>
    Partition s.map.memoryAllocations ∧ Tracks (outstanding es) s.map.memoryAllocations)
    hinit fun es s ev s' ⟨hl, ht⟩ hok hs => ?_
  refine ⟨step_partition hs hl, ?_⟩
  cases hs with
  | alloc hnew =>
    rename_i newNode n
    rcases ht.allocate newNode (show 1 ≤ n from hok) with
      ⟨hno, hsame, -⟩ | ⟨pre, cur, post, hsplit, -, -, -, haddr, ht'⟩
    · have hres : (petmemAllocVspace newNode n s).1 = noRegion := hno
      rw [outstanding, if_pos hres]
      show Tracks _ (Regions.allocate newNode n s.map.memoryAllocations).1
      rwa [hsame]
    · -- an address of the petmem region is not -1
      have hlt : cur.pageAddr ≠ noRegion := by
        have := hl.starts cur (by simp [hsplit])
        unfold petmemRegionEnd at this
        unfold noRegion
        omega
      have hres : (petmemAllocVspace newNode n s).1 = cur.pageAddr := haddr
      rw [outstanding, hres, if_neg hlt]
      exact ht'
  | free hrun =>
    obtain ⟨n, ha⟩ := hok
    exact (ht.free_vspace hl ha hrun).2
  -- the other operations leave the list as it is
  | fault hrun =>
    rw [petmemHandlePagefault_list hrun]
    exact ht
  | read hrun =>
    rw [userRead_list hrun]
    exact ht
  | write hrun =>
    rw [userWrite_list hrun]
    exact ht

/-! ## The list is determined by the allocations -/

/-- A region without the address of its node. -/
def shape (r : VaddrReg) : ℕ × ℕ × ℕ := (r.status, r.size, r.pageAddr)

/-- A list from `a` to `b` of regions with pages in which free regions are kept apart. -/
structure Canonical (a : ℕ) (l : List VaddrReg) (b : ℕ) : Prop where
  spans : Spans a l b
  status : ∀ r ∈ l, r.status = ALLOCATED ∨ r.status = FREE
  pos : ∀ r ∈ l, 1 ≤ r.size
  apart : l.IsChain NotBothFree

/-- The allocation `p` is a region in use. -/
def InUse (l : List VaddrReg) (p : ℕ × ℕ) : Prop :=
  ∃ r ∈ l, r.status = ALLOCATED ∧ (r.pageAddr, r.size) = p

namespace Canonical

variable {a b : ℕ} {r r' : VaddrReg} {l l' : List VaddrReg}

theorem tail (h : Canonical a (r :: l) b) : Canonical (a + 4096 * r.size) l b :=
  ⟨h.spans.2, fun z hz => h.status z (by simp [hz]), fun z hz => h.pos z (by simp [hz]),
    h.apart.tail⟩

/-- An allocation at the start of the list is its first region. -/
theorem inUse_head (h : Canonical a (r :: l) b) {n : ℕ} (hu : InUse (r :: l) (a, n)) :
    r.status = ALLOCATED ∧ r.size = n := by
  obtain ⟨z, hz, hs, hp⟩ := hu
  obtain ⟨h1, h2⟩ := Prod.mk.inj hp
  rcases List.mem_cons.1 hz with rfl | hz
  · exact ⟨hs, h2⟩
  · have h3 := (h.spans.2.bounds hz).1
    have h4 := h.pos r (by simp)
    omega

/-- After the first region, only the regions after it count. -/
theorem inUse_tail (h : Canonical a (r :: l) b) {p : ℕ × ℕ} :
    InUse l p ↔ InUse (r :: l) p ∧ p.1 ≠ a := by
  have hpos := h.pos r (by simp)
  constructor
  · rintro ⟨z, hz, hs, rfl⟩
    have := (h.spans.2.bounds hz).1
    exact ⟨⟨z, by simp [hz], hs, rfl⟩, show z.pageAddr ≠ a by omega⟩
  · rintro ⟨⟨z, hz, hs, rfl⟩, hne⟩
    rcases List.mem_cons.1 hz with rfl | hz
    · exact absurd h.spans.1 hne
    · exact ⟨z, hz, hs, rfl⟩

/-- A free first region ends no later than the other list's: what follows it is in use. -/
theorem size_le (h : Canonical a (r :: l) b) (h' : Canonical a (r' :: l') b)
    (hs : r.status = FREE) (hs' : r'.status = FREE)
    (hu : ∀ p, InUse (r :: l) p → InUse (r' :: l') p) : r'.size ≤ r.size := by
  by_contra hlt
  have hend := h'.spans.2.le
  cases l with
  | nil =>
    have : a + 4096 * r.size = b := h.spans.2
    omega
  | cons z l =>
    have hz : z.status = ALLOCATED := by
      refine (h.status z (by simp)).resolve_right fun hf => ?_
      exact (List.isChain_cons_cons.1 h.apart).1 ⟨hs, hf⟩
    have haddr : z.pageAddr = a + 4096 * r.size := h.spans.2.1
    have hpos := h.pos r (by simp)
    obtain ⟨w, hw, hws, hp⟩ := hu _ ⟨z, by simp, hz, rfl⟩
    have hwa := (Prod.mk.inj hp).1
    rcases List.mem_cons.1 hw with rfl | hw
    · have := h'.spans.1
      omega
    · have := (h'.spans.2.bounds hw).1
      omega

/-- Lists with the same allocations are the same, up to the addresses of their nodes. -/
theorem map_shape_eq (h : Canonical a l b) (h' : Canonical a l' b)
    (hu : ∀ p, InUse l p ↔ InUse l' p) : l.map shape = l'.map shape := by
  induction l generalizing a l' with
  | nil =>
    have hab : a = b := h.spans
    cases l' with
    | nil => rfl
    | cons r' l' =>
      have h1 := h'.spans.2.le
      have h2 := h'.pos r' (by simp)
      omega
  | cons r l ih =>
    cases l' with
    | nil =>
      have hab : a = b := h'.spans
      have h1 := h.spans.2.le
      have h2 := h.pos r (by simp)
      omega
    | cons r' l' =>
      have haddr : r.pageAddr = a := h.spans.1
      have haddr' : r'.pageAddr = a := h'.spans.1
      -- an allocation fixes the size of its region, the allocations around it that of a free one
      have hfirst : r.status = r'.status ∧ r.size = r'.size := by
        rcases h.status r (by simp) with hs | hs
        · have := h'.inUse_head ((hu _).1 ⟨r, by simp, hs, by rw [haddr]⟩)
          exact ⟨hs.trans this.1.symm, this.2.symm⟩
        · have hs' : r'.status = FREE := by
            refine (h'.status r' (by simp)).resolve_left fun hs' => ?_
            have := (h.inUse_head ((hu _).2 ⟨r', by simp, hs', by rw [haddr']⟩)).1
            rw [hs] at this
            exact absurd this (by decide)
          exact ⟨hs.trans hs'.symm, Nat.le_antisymm (h'.size_le h hs' hs fun p => (hu p).2)
            (h.size_le h' hs hs' fun p => (hu p).1)⟩
      have htail := h'.tail
      rw [← hfirst.2] at htail
      rw [List.map_cons, List.map_cons, ih h.tail htail fun p => by
        rw [h.inUse_tail, h'.inUse_tail, hu]]
      unfold shape
      rw [hfirst.1, hfirst.2, haddr, haddr']

end Canonical

theorem Tracks.canonical {out : List (ℕ × ℕ)} {l : List VaddrReg} (h : Tracks out l)
    (hl : Partition l) : Canonical petmemRegionStart l petmemRegionEnd :=
  ⟨hl.spans, hl.status, fun _ hr => h.size_pos hl hr, hl.apart⟩

/-! ## The requests meet their specification -/

section Spec

variable {out : List (ℕ × ℕ)} (ht : Tracks out s.map.memoryAllocations)
  (hl : Partition s.map.memoryAllocations)

include ht hl

/-- A request is answered with the lowest address where its pages fit, or refused when there is
none. -/
theorem petmemAllocVspace_spec (newNode : ℕ) {n : ℕ} (hn : 1 ≤ n) :
    ((petmemAllocVspace newNode n s).1 = noRegion ↔ ∀ a, ¬ Fits out n a) ∧
    ((petmemAllocVspace newNode n s).1 = noRegion → (petmemAllocVspace newNode n s).2 = s) ∧
    ((petmemAllocVspace newNode n s).1 ≠ noRegion →
      IsLeast { a | Fits out n a } (petmemAllocVspace newNode n s).1) := by
  have hres : petmemAllocVspace newNode n s = ((Regions.allocate newNode n
      s.map.memoryAllocations).2, { s with map := { s.map with
        memoryAllocations := (Regions.allocate newNode n s.map.memoryAllocations).1 } }) := rfl
  rw [hres]
  rcases ht.allocate newNode hn with
    ⟨hno, hsame, hfull⟩ | ⟨pre, cur, post, hsplit, hs, hsz, hpre, haddr, -⟩
  · have hnone : ∀ a, ¬ Fits out n a := by
      intro a hf
      obtain ⟨r, hr, hs, hsz, -⟩ := ht.exists_free_of_fits hl hn hf
      have := hfull r hr hs
      omega
    refine ⟨⟨fun _ => hnone, fun _ => hno⟩, fun _ => ?_, fun hne => absurd hno hne⟩
    dsimp only
    rw [hsame]
  · have hcur : cur ∈ s.map.memoryAllocations := by simp [hsplit]
    have hfits := ht.fits_of_free hl hcur hs hsz
    have hne : cur.pageAddr ≠ noRegion := by
      have := hl.starts cur hcur
      unfold petmemRegionEnd at this
      unfold noRegion
      omega
    dsimp only
    rw [haddr]
    refine ⟨⟨fun h => absurd h hne, fun h => absurd hfits (h _)⟩, fun h => absurd h hne,
      fun _ => ⟨hfits, fun a ha => ?_⟩⟩
    -- the free region that holds any other place is not before the first that is large enough
    obtain ⟨r, hr, hrs, hrn, hra⟩ := ht.exists_free_of_fits hl hn ha
    have hspans := hl.spans
    rw [hsplit] at hr hspans
    obtain ⟨-, hafter⟩ := hspans.beside
    rcases List.mem_append.1 hr with hr | hr
    · have := hpre r hr hrs
      omega
    · rcases List.mem_cons.1 hr with rfl | hr
      · exact hra
      · have := hafter r hr
        omega

/-- The request to free an outstanding address returns when its loop over the pages does. -/
theorem petmemFreeVspace_returns {a n : ℕ} (hhead : env.head.status ≠ FREE) (ha : (a, n) ∈ out)
    {k' : Kern} (hloop : freeRange env.cr3 a (List.range n) s.toKern = .ok k') :
    ∃ s', petmemFreeVspace env a s = .ok s' := by
  refine petmemFreeVspace_of_loop hhead hl fun p hfind => ⟨k', ?_⟩
  have hp := isLastAt_of_findRegion hfind
  rwa [← (ht.found hl ha hp).2, ← hp.addr] at hloop

end Spec

/-- In every run of requests of at least one page and frees of outstanding allocations, the two
requests and the address check implement a set of disjoint ranges, first fit, and runs that end
with the same allocations end with the same list. -/
theorem vspace_refines_ranges (hhead : env.head.status ≠ FREE)
    (h : Run env VspaceOk (initState k node) es s) :
    (∀ newNode n, 1 ≤ n →
      ((petmemAllocVspace newNode n s).1 = noRegion ↔ ∀ a, ¬ Fits (outstanding es) n a) ∧
      ((petmemAllocVspace newNode n s).1 = noRegion → (petmemAllocVspace newNode n s).2 = s) ∧
      ((petmemAllocVspace newNode n s).1 ≠ noRegion →
        IsLeast { a | Fits (outstanding es) n a } (petmemAllocVspace newNode n s).1)) ∧
    (∀ a n, (a, n) ∈ outstanding es →
      (∀ k', freeRange env.cr3 a (List.range n) s.toKern = .ok k' →
        ∃ s', petmemFreeVspace env a s = .ok s') ∧
      ∀ s', petmemFreeVspace env a s = .ok s' →
        ∀ p, InUse s'.map.memoryAllocations p ↔ p ∈ outstanding es ∧ p ≠ (a, n)) ∧
    (∀ x, checkAddressRange s.map.memoryAllocations x = true ↔
      ∃ p ∈ outstanding es, p.1 ≤ x ∧ x < p.1 + 4096 * p.2) ∧
    ∀ (env' : Env) (k' : Kern) (node' : ℕ) (es' : List Event) (s' : State),
      Run env' VspaceOk (initState k' node') es' s' →
      (∀ p, p ∈ outstanding es ↔ p ∈ outstanding es') →
      s.map.memoryAllocations.map shape = s'.map.memoryAllocations.map shape := by
  obtain ⟨hl, ht⟩ := run_tracks h
  refine ⟨fun newNode n hn => petmemAllocVspace_spec ht hl newNode hn, fun a n ha => ⟨fun k' hk =>
    petmemFreeVspace_returns ht hl hhead ha hk, fun s' hrun p => ?_⟩,
    ht.checkAddressRange_iff hl, fun env' k' node' es' s' h' hout => ?_⟩
  · obtain ⟨hl', ht'⟩ := ht.free_vspace hl ha hrun
    rw [show InUse s'.map.memoryAllocations p ↔ _ from (ht'.mem p).symm, List.mem_filter]
    refine and_congr_right fun hp => ?_
    -- only one allocation starts at `a`
    rw [decide_eq_true_eq]
    refine not_congr ⟨fun hpa => ?_, fun hpa => by rw [hpa]⟩
    obtain ⟨r, hr, hrs, rfl⟩ := (ht.mem p).1 hp
    obtain ⟨z, hz, hzs, hzp⟩ := (ht.mem _).1 ha
    obtain ⟨hza, hzn⟩ := Prod.mk.inj hzp
    have h1 := ht.pos r hr hrs
    have h2 := ht.pos z hz hzs
    simp only at hpa
    obtain rfl : r = z := hl.spans.eq_of_mem (x := a) hr hz (by omega) (by omega)
    exact hzp
  · obtain ⟨hl', ht'⟩ := run_tracks h'
    refine (ht.canonical hl).map_shape_eq (ht'.canonical hl') fun p => ?_
    exact ((ht.mem p).symm.trans (hout p)).trans (ht'.mem p)

/-- Three pages are requested and the first is given back; or the one in the middle is given back
first, and requested again. -/
theorem one_of_three_freed :
    ∃ es es' s s', Run plainEnv VspaceOk (initState emptyKern 1) es s ∧
      Run plainEnv VspaceOk (initState emptyKern 1) es' s' ∧
      outstanding es = [(petmemRegionStart + 8192, 1), (petmemRegionStart + 4096, 1)] ∧
      outstanding es' = [(petmemRegionStart + 4096, 1), (petmemRegionStart + 8192, 1)] ∧
      (petmemAllocVspace 5 1 s).1 = petmemRegionStart ∧
      ∃ k, freeRange plainEnv.cr3 (petmemRegionStart + 4096) (List.range 1) s.toKern = .ok k := by
  have hres : ((replayVspace plainEnv [.alloc 2 1, .alloc 3 1, .alloc 4 1,
      .free petmemRegionStart] ([], initState emptyKern 1)).bind fun r =>
      (replayVspace plainEnv [.alloc 2 1, .alloc 3 1, .alloc 4 1,
        .free (petmemRegionStart + 4096), .alloc 5 1, .free petmemRegionStart]
        ([], initState emptyKern 1)).bind fun r' =>
      (freeRange plainEnv.cr3 (petmemRegionStart + 4096) (List.range 1) r.2.toKern).toOption.map
        fun _ => (outstanding r.1, outstanding r'.1, (petmemAllocVspace 5 1 r.2).1))
      = some ([(petmemRegionStart + 8192, 1), (petmemRegionStart + 4096, 1)],
        [(petmemRegionStart + 4096, 1), (petmemRegionStart + 8192, 1)], petmemRegionStart) := by
    decide +kernel
  obtain ⟨⟨es, s⟩, hreplay, hres⟩ := Option.bind_eq_some_iff.1 hres
  obtain ⟨⟨es', s'⟩, hreplay', hres⟩ := Option.bind_eq_some_iff.1 hres
  obtain ⟨k, hloop, heq⟩ := Option.map_eq_some_iff.1 hres
  simp only [Prod.mk.injEq] at heq
  obtain ⟨hout, hout', haddr⟩ := heq
  exact ⟨es, es', s, s', run_of_replayVspace .start hreplay, run_of_replayVspace .start hreplay',
    hout, hout', haddr, k, ok_of_toOption hloop⟩

/-- After the first of three pages was given back, the lowest place for a page is its own, the
second can be given back and no longer is in use, and the list is the one of the other run. -/
theorem vspace_refines_ranges_after_free :
    ∃ s s' s₁ : State,
      IsLeast { a | Fits [(petmemRegionStart + 8192, 1), (petmemRegionStart + 4096, 1)] 1 a }
        petmemRegionStart ∧
      checkAddressRange s.map.memoryAllocations petmemRegionStart = false ∧
      checkAddressRange s.map.memoryAllocations (petmemRegionStart + 4096) = true ∧
      petmemFreeVspace plainEnv (petmemRegionStart + 4096) s = .ok s₁ ∧
      ¬ InUse s₁.map.memoryAllocations (petmemRegionStart + 4096, 1) ∧
      InUse s₁.map.memoryAllocations (petmemRegionStart + 8192, 1) ∧
      s.map.memoryAllocations.map shape = s'.map.memoryAllocations.map shape := by
  obtain ⟨es, es', s, s', hrun, hrun', hout, hout', haddr, k, hloop⟩ := one_of_three_freed
  obtain ⟨halloc, hfree, hcheck, hcanon⟩ :=
    vspace_refines_ranges (show plainEnv.head.status ≠ FREE by decide) hrun
  rw [hout] at halloc hfree hcheck
  obtain ⟨hreturns, hfrees⟩ := hfree (petmemRegionStart + 4096) 1 (by simp)
  obtain ⟨s₁, hs₁⟩ := hreturns k hloop
  have hiff := hfrees s₁ hs₁
  have hleast := (halloc 5 1 (le_refl _)).2.2 (by
    rw [haddr]
    decide)
  rw [haddr] at hleast
  refine ⟨s, s', s₁, hleast, ?_, (hcheck _).2 ⟨(petmemRegionStart + 4096, 1), by simp, le_refl _,
    by decide⟩, hs₁, fun h => ((hiff _).1 h).2 rfl, (hiff _).2 ⟨by simp, by decide⟩, ?_⟩
  · rw [Bool.eq_false_iff]
    intro h
    obtain ⟨p, hp, h1, -⟩ := (hcheck _).1 h
    simp only [List.mem_cons, List.not_mem_nil, or_false] at hp
    rcases hp with rfl | rfl
    · exact absurd h1 (by decide)
    · exact absurd h1 (by decide)
  · exact hcanon plainEnv emptyKern 1 es' s' hrun' fun p => by
      rw [hout, hout']
      simp only [List.mem_cons, List.not_mem_nil, or_false]
      exact or_comm

/-! ## `LAZY_ALLOC` and `LAZY_FREE` -/

/-- When every request is for at least one page and the list head does not read as a free region,
each allocation is owned by itself: its address is that of no other, and freeing it returns when
the loop over its pages does and leaves the others accepted. -/
theorem allocations_individually_owned (hhead : env.head.status ≠ FREE)
    (h : Run env VspaceOk (initState k node) es s) :
    (∀ newNode size addr s', 1 ≤ requestPages size →
      lazyAlloc newNode size s = (some addr, s') → addr ≠ noRegion →
      ∀ p ∈ outstanding es, p.1 ≠ addr) ∧
    ∀ p ∈ outstanding es,
      (∀ k', freeRange env.cr3 p.1 (List.range p.2) s.toKern = .ok k' →
        ∃ s', petmemFreeVspace env p.1 s = .ok s') ∧
      ∀ s', petmemFreeVspace env p.1 s = .ok s' →
        (∀ q, InUse s'.map.memoryAllocations q ↔ q ∈ outstanding es ∧ q ≠ p) ∧
        ∀ x, checkAddressRange s'.map.memoryAllocations x = true ↔
          ∃ q ∈ outstanding es, q ≠ p ∧ q.1 ≤ x ∧ x < q.1 + 4096 * q.2 := by
  obtain ⟨hl, ht⟩ := run_tracks h
  -- no two allocations start at one address
  have huse : ∀ p ∈ outstanding es, ∀ q ∈ outstanding es, q.1 = p.1 → q = p := by
    intro p hp q hq hpq
    obtain ⟨r, hr, hrs, rfl⟩ := (ht.mem p).1 hp
    obtain ⟨z, hz, hzs, rfl⟩ := (ht.mem q).1 hq
    have h1 := ht.pos r hr hrs
    have h2 := ht.pos z hz hzs
    simp only at hpq
    rw [hl.spans.eq_of_mem (x := r.pageAddr) hr hz (by omega) (by omega)]
  refine ⟨fun newNode size addr s' hn hrun hne p hp heq => ?_, fun p hp =>
    ⟨fun k' hloop => petmemFreeVspace_returns ht hl hhead (a := p.1) (n := p.2) hp hloop,
      fun s' hrun => ?_⟩⟩
  · -- the new range is clear of every allocation, and the two share their first byte
    have hres : (petmemAllocVspace newNode (requestPages size) s).1 = addr := by
      unfold lazyAlloc at hrun
      dsimp only at hrun
      split at hrun
      · cases (Prod.mk.inj hrun).1
      · exact Option.some.inj (Prod.mk.inj hrun).1
    obtain ⟨-, -, hleast⟩ := petmemAllocVspace_spec ht hl newNode hn
    rw [hres] at hleast
    obtain ⟨-, -, -, hclear⟩ := (hleast hne).1
    obtain ⟨r, hr, hrs, rfl⟩ := (ht.mem p).1 hp
    have h1 := ht.pos r hr hrs
    have h2 := hclear _ hp
    simp only at h2 heq
    omega
  · obtain ⟨hl', ht'⟩ := ht.free_vspace hl (a := p.1) (n := p.2) hp hrun
    have hmem : ∀ q, q ∈ (outstanding es).filter (fun q => q.1 ≠ p.1) ↔
        q ∈ outstanding es ∧ q ≠ p := by
      intro q
      rw [List.mem_filter, decide_eq_true_eq]
      refine and_congr_right fun hq => not_congr ⟨huse p hp q hq, fun hqp => by rw [hqp]⟩
    refine ⟨fun q => (ht'.mem q).symm.trans (hmem q), fun x => ?_⟩
    rw [ht'.checkAddressRange_iff hl']
    simp only [hmem, and_assoc]

/-- After the first of three pages was given back, a request for ten bytes is answered with no
address of the others, and giving back the second leaves the third accepted. -/
theorem allocations_individually_owned_after_free :
    ∃ es s s₁ s₂, Run plainEnv VspaceOk (initState emptyKern 1) es s ∧
      outstanding es = [(petmemRegionStart + 8192, 1), (petmemRegionStart + 4096, 1)] ∧
      lazyAlloc 5 10 s = (some petmemRegionStart, s₁) ∧
      (∀ p ∈ outstanding es, p.1 ≠ petmemRegionStart) ∧
      petmemFreeVspace plainEnv (petmemRegionStart + 4096) s = .ok s₂ ∧
      ¬ InUse s₂.map.memoryAllocations (petmemRegionStart + 4096, 1) ∧
      checkAddressRange s₂.map.memoryAllocations (petmemRegionStart + 8192) = true := by
  obtain ⟨es, -, s, -, hrun, -, hout, -, haddr, k, hloop⟩ := one_of_three_freed
  obtain ⟨hfresh, hfree⟩ :=
    allocations_individually_owned (show plainEnv.head.status ≠ FREE by decide) hrun
  have hmem : (petmemRegionStart + 4096, 1) ∈ outstanding es := by simp [hout]
  have hmem' : (petmemRegionStart + 8192, 1) ∈ outstanding es := by simp [hout]
  obtain ⟨hreturns, hends⟩ := hfree _ hmem
  obtain ⟨s₂, hs₂⟩ := hreturns k hloop
  obtain ⟨huse, hcheck⟩ := hends s₂ hs₂
  have hlazy : lazyAlloc 5 10 s = (some petmemRegionStart, (petmemAllocVspace 5 1 s).2) := by
    have hpages : requestPages 10 = 1 := by decide
    unfold lazyAlloc
    dsimp only
    rw [hpages, haddr, if_neg (by decide)]
  exact ⟨es, s, _, s₂, hrun, hout, hlazy, hfresh 5 10 _ _ (by decide) hlazy (by decide), hs₂,
    fun h => ((huse _).1 h).2 rfl,
    (hcheck _).2 ⟨(petmemRegionStart + 8192, 1), hmem', by decide, le_refl _, by decide⟩⟩

/-- Two requests of no bytes are answered with one address, and freeing that address ends
neither of them. -/
theorem two_empty_allocations_share_an_address :
    (lazyAlloc 2 0 (initState emptyKern 1)).1 = some petmemRegionStart ∧
    (lazyAlloc 3 0 (lazyAlloc 2 0 (initState emptyKern 1)).2).1 = some petmemRegionStart := by
  decide

/-- What the caller of `LAZY_ALLOC` may rely on: the failure branch leaves the list alone, and
an address that is reported starts a range inside a region that was free and is in use now. -/
def Honest (size : ℕ) (s : State) (res : Option ℕ × State) : Prop :=
  (res.1 = none ∧ res.2.map.memoryAllocations = s.map.memoryAllocations) ∨
  ∃ addr, res.1 = some addr ∧
    ∃ r ∈ res.2.map.memoryAllocations, r.status = ALLOCATED ∧ r.pageAddr ≤ addr ∧
      addr + size ≤ r.pageAddr + 4096 * r.size ∧ petmemRegionStart ≤ r.pageAddr ∧
      r.pageAddr + 4096 * r.size ≤ petmemRegionEnd ∧
      ∃ r₀ ∈ s.map.memoryAllocations, r₀.status = FREE ∧ r₀.pageAddr ≤ r.pageAddr ∧
        r.pageAddr + 4096 * r.size ≤ r₀.pageAddr + 4096 * r₀.size

/-- What `LAZY_ALLOC` reports: -1 when no free region is large enough, or the start of the
first that is. -/
theorem lazyAlloc_cases (hl : Partition s.map.memoryAllocations) (newNode size : ℕ) :
    (lazyAlloc newNode size s = (some noRegion, s) ∧
      ∀ r ∈ s.map.memoryAllocations, r.status = FREE → r.size < requestPages size) ∨
    ∃ cur ∈ s.map.memoryAllocations, cur.status = FREE ∧ requestPages size ≤ cur.size ∧
      ∃ s', lazyAlloc newNode size s = (some cur.pageAddr, s') ∧
        ∃ r ∈ s'.map.memoryAllocations, r.status = ALLOCATED ∧ r.pageAddr = cur.pageAddr ∧
          r.size = requestPages size := by
  have hrun : lazyAlloc newNode size s =
      if (petmemAllocVspace newNode (requestPages size) s).1 = 0
      then (none, (petmemAllocVspace newNode (requestPages size) s).2)
      else (some (petmemAllocVspace newNode (requestPages size) s).1,
        (petmemAllocVspace newNode (requestPages size) s).2) := rfl
  -- no region starts at 0, so the failure branch is not taken
  have hpos : ∀ cur ∈ s.map.memoryAllocations, cur.pageAddr ≠ 0 := by
    intro cur hcur
    have := (hl.spans.bounds hcur).1
    unfold petmemRegionStart at this
    omega
  unfold petmemAllocVspace at hrun
  have hcase := allocate_cases newNode (requestPages size) s.map.memoryAllocations
  generalize Regions.allocate newNode (requestPages size) s.map.memoryAllocations = res
    at hcase hrun
  rw [hrun]
  cases hcase with
  | full hfull => exact .inl ⟨if_neg (show noRegion ≠ 0 by decide), hfull⟩
  | @exact pre post cur hsplit _ hs hsz =>
    have hcur : cur ∈ s.map.memoryAllocations := by simp [hsplit]
    refine .inr ⟨cur, hcur, hs, hsz.ge, _, if_neg (hpos cur hcur), ?_⟩
    exact ⟨{ cur with status := ALLOCATED }, by simp, rfl, rfl, hsz⟩
  | @cut pre post cur hsplit _ hs hsz =>
    have hcur : cur ∈ s.map.memoryAllocations := by simp [hsplit]
    refine .inr ⟨cur, hcur, hs, hsz.le, _, if_neg (hpos cur hcur), ?_⟩
    exact ⟨{ cur with status := ALLOCATED, size := requestPages size }, by simp, rfl, rfl, rfl⟩

/-- `LAZY_ALLOC` is honest about its result exactly when the size can be rounded to pages and a
free region can hold them. -/
theorem lazyAlloc_honest_iff (h : Run env ok (initState k node) es s) (newNode size : ℕ) :
    Honest size s (lazyAlloc newNode size s) ↔
      size ≤ 2 ^ 64 - 4096 ∧
        ∃ r ∈ s.map.memoryAllocations, r.status = FREE ∧ (size + 4095) / 4096 ≤ r.size := by
  have hl := run_partition h
  -- a size up to 2^64 - 4096 is rounded up without wrapping
  have hpages : size ≤ 2 ^ 64 - 4096 → requestPages size = (size + 4095) / 4096 := by
    intro hle
    rw [requestPages_eq, Nat.mod_eq_of_lt (by omega)]
  constructor
  · rintro (⟨hnone, -⟩ | ⟨addr, haddr, r, -, -, -, hin, -, hend, -⟩)
    · rcases lazyAlloc_cases hl newNode size with ⟨hrun, -⟩ | ⟨cur, -, -, -, s', hrun, -⟩
      · rw [hrun] at hnone
        cases hnone
      · rw [hrun] at hnone
        cases hnone
    · have hle : addr + size ≤ petmemRegionEnd := hin.trans hend
      unfold petmemRegionEnd at hle
      rcases lazyAlloc_cases hl newNode size with ⟨hrun, -⟩ | ⟨cur, hcur, hs, hsz, s', hrun, -⟩
      · rw [hrun] at haddr
        rw [← Option.some.inj haddr] at hle
        -- -1 is an address outside the petmem region
        unfold noRegion at hle
        omega
      · have hsmall : size ≤ 2 ^ 64 - 4096 := by omega
        exact ⟨hsmall, cur, hcur, hs, hpages hsmall ▸ hsz⟩
  · rintro ⟨hsmall, r₀, hr₀, hs₀, hfit⟩
    rcases lazyAlloc_cases hl newNode size with
      ⟨-, hfull⟩ | ⟨cur, hcur, hs, hsz, s', hrun, r, hr, hrs,
        hra, hrn⟩
    -- the request does not fail, since `r₀` is large enough
    · have := hfull r₀ hr₀ hs₀
      rw [hpages hsmall] at this
      omega
    · have hb := hl.spans.bounds hcur
      have hn := hpages hsmall
      rw [hrun]
      refine .inr ⟨cur.pageAddr, rfl, r, hr, hrs, hra.le, ?_, ?_, ?_, cur, hcur, hs, hra.ge, ?_⟩
      all_goals omega

theorem lazyAlloc_honest_iff_one_page :
    Honest 10 (initState emptyKern 1) (lazyAlloc 2 10 (initState emptyKern 1)) :=
  (lazyAlloc_honest_iff (@Run.start plainEnv (fun _ _ _ => True) _) 2 10).2
    ⟨by decide, _, List.mem_singleton.2 rfl, rfl, by decide⟩

/-- A size that does not survive the rounding is answered with a region of no pages. -/
theorem lazyAlloc_dishonest :
    ¬ Honest (2 ^ 64 - 1) (initState emptyKern 1)
      (lazyAlloc 2 (2 ^ 64 - 1) (initState emptyKern 1)) := by
  rintro (⟨hnone, -⟩ | ⟨addr, -, r, -, -, -, hin, -, hend, -⟩)
  · exact absurd hnone (by decide)
  · unfold petmemRegionEnd at hend
    omega

end OnDemand

end Petmem
