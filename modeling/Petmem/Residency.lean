import Petmem.ClockHand
import Petmem.Accesses

/-!
# Which pages are in memory

The region list and the page table are kept by different functions. When no request is for more
than 2^19 pages, every page in memory lies in a region in use (`Backed`): a page only comes into
memory by a fault, which the list has to allow, and a region that is given up loses all its pages.
-/

namespace Petmem
namespace OnDemand

open ByteMemory RadixTree Pools Swap Regions Pte64

variable {env : Env} {s s' : State} {roots : Set ℕ} {Q : State → Prop} {r a b : ℕ}

/-! ## Faults -/

/-- Evictions and new tables bring no page into memory. -/
theorem Pages.resident (h : Pages env roots Q a s s') (hr : rootFrame env.cr3 ∈ roots)
    (hb : b ∈ Region) (hres : Resident s'.mem (rootFrame env.cr3) b) :
    Resident s.mem (rootFrame env.cr3) b := by
  revert hres
  refine h.induct (P := fun s' => Resident s'.mem (rootFrame env.cr3) b →
    Resident s.mem (rootFrame env.cr3) b) id (fun s₁ s₂ v f g slot ih _ hev hres => ih ?_)
    fun s₁ s₂ ℓ f g e ih hℓ hg _ hres => ih ?_
  -- the page that is evicted is gone, the others stay as they were
  · by_cases hv : b / 4096 = v / 4096
    · obtain ⟨e, he, hp⟩ := hres
      rw [hev.leaf_victim hb hv] at he
      rw [← Option.some.inj he] at hp
      cases hp
    · unfold Resident at hres ⊢
      rwa [hev.leaf_other hr hb fun hc => hv hc.2] at hres
  -- a new last table has no page in it
  · by_cases htab : ℓ = 2 ∧ b / 2 ^ 21 = a / 2 ^ 21
    · obtain ⟨rfl, htab⟩ := htab
      obtain ⟨e', he, hp⟩ := hres
      rw [(hg.leaf_table hb htab).2] at he
      rw [← Option.some.inj he] at hp
      cases hp
    · unfold Resident at hres ⊢
      rwa [hg.leaf_other hr hb (by rintro ⟨-, hc | hc⟩ <;> omega)] at hres

/-- A fault brings the page it is for into memory, and no other. -/
theorem Faulted.resident_cases (h : Faulted env roots Q a s s') (hr : rootFrame env.cr3 ∈ roots)
    (hb : b ∈ Region) (hres : Resident s'.mem (rootFrame env.cr3) b) :
    Resident s.mem (rootFrame env.cr3) b ∨ b / 4096 = a / 4096 := by
  by_cases hpage : b / 4096 = a / 4096
  · exact .inr hpage
  · left
    cases h with
    | resident hp _ => exact hp.resident hr hb hres
    | fresh hp _ hg =>
      unfold Resident at hres
      rw [hg.leaf_other hr hb (by rintro ⟨-, hc | hc⟩ <;> omega)] at hres
      exact hp.resident hr hb hres
    | @swapIn s₁ s₂ _ f g page swap hp _ _ _ _ he _ hg =>
      unfold Resident at hres
      rw [hg.leaf_other hr hb (by rintro ⟨-, hc | hc⟩ <;> omega)] at hres
      exact hp.resident hr hb ((Pages.of_eased (a := a) he).resident hr hb hres)

/-! ## Regions in use -/

/-- The address lies in a region in use. -/
def Covered (l : List VaddrReg) (a : ℕ) : Prop :=
  ∃ reg ∈ l, reg.status = ALLOCATED ∧ reg.pageAddr ≤ a ∧ a < reg.pageAddr + 4096 * reg.size

/-- Regions consist of whole pages. -/
theorem Covered.page {l : List VaddrReg} (h : Covered l a) (hl : Partition l)
    (hp : b / 4096 = a / 4096) : Covered l b := by
  obtain ⟨reg, hreg, hs, h1, h2⟩ := h
  obtain ⟨q, hq⟩ := hl.spans.dvd (by decide) hreg
  exact ⟨reg, hreg, hs, by omega, by omega⟩

/-- `allocate` keeps the regions in use. -/
theorem mem_allocate {l : List VaddrReg} {reg : VaddrReg} (newNode n : ℕ) (hreg : reg ∈ l)
    (hs : reg.status = ALLOCATED) : reg ∈ (allocate newNode n l).1 := by
  have hcase := allocate_cases newNode n l
  generalize allocate newNode n l = res at hcase
  -- `allocate` changes one region, and that was free
  have hmiddle : ∀ {pre post : List VaddrReg} {cur : VaddrReg}, l = pre ++ cur :: post →
      cur.status = FREE → reg ∈ pre ∨ reg ∈ post := by
    intro pre post cur hl hcur
    rw [hl] at hreg
    rcases List.mem_append.1 hreg with hm | hm
    · exact .inl hm
    · rcases List.mem_cons.1 hm with rfl | hm
      · rw [hcur] at hs
        exact absurd hs (by decide)
      · exact .inr hm
  cases hcase with
  | full => exact hreg
  | exact hl _ hcur _ =>
    rcases hmiddle hl hcur with hm | hm
    · simp [hm]
    · simp [hm]
  | cut hl _ hcur _ =>
    rcases hmiddle hl hcur with hm | hm
    · simp [hm]
    · simp [hm]

/-- The regions in use after `allocate` were in use, or are the new one. -/
theorem new_of_mem_allocate {l : List VaddrReg} {reg : VaddrReg} {newNode n : ℕ}
    (hreg : reg ∈ (allocate newNode n l).1) (hs : reg.status = ALLOCATED) :
    reg ∈ l ∨ (reg.size = n ∧ reg.pageAddr = (allocate newNode n l).2) := by
  have hcase := allocate_cases newNode n l
  generalize allocate newNode n l = res at hcase hreg
  cases hcase with
  | full => exact .inl hreg
  | exact hl _ _ hsz =>
    rcases List.mem_append.1 hreg with hm | hm
    · exact .inl (by rw [hl]; simp [hm])
    · rcases List.mem_cons.1 hm with rfl | hm
      · exact .inr ⟨hsz, rfl⟩
      · exact .inl (by rw [hl]; simp [hm])
  | cut hl _ _ _ =>
    rcases List.mem_append.1 hreg with hm | hm
    · exact .inl (by rw [hl]; simp [hm])
    · rcases List.mem_cons.1 hm with rfl | hm
      · exact .inr ⟨rfl, rfl⟩
      · rcases List.mem_cons.1 hm with rfl | hm
        · exact absurd hs (show FREE ≠ ALLOCATED by decide)
        · exact .inl (by rw [hl]; simp [hm])

/-- Every page in memory lies in a region in use, and none of these is larger than 2^19
pages. -/
structure Backed (env : Env) (s : State) : Prop where
  covered : ∀ a ∈ Region, Resident s.mem (rootFrame env.cr3) a → Covered s.map.memoryAllocations a
  small : ∀ reg ∈ s.map.memoryAllocations, reg.status = ALLOCATED → reg.size ≤ 2 ^ 19

/-- Requests are for at most 2^19 pages. -/
def SmallRequests : Event → Prop
  | .alloc _ numPages => numPages ≤ 2 ^ 19
  | _ => True

instance : DecidablePred SmallRequests
  | .alloc _ numPages => inferInstanceAs (Decidable (numPages ≤ 2 ^ 19))
  | .free _ | .fault _ _ | .read _ _ | .write _ _ => inferInstanceAs (Decidable True)

/-- The pages of a region of at most 2^19 pages are visited when it is freed. -/
theorem mem_pagesFrom {A n : ℕ} (hA : A ∈ Region) (hdvd : 4096 ∣ A) (hn : n ≤ 2 ^ 19) (h1 : A ≤ a)
    (h2 : a < A + 4096 * n) : ∃ v ∈ pagesFrom A n, v / 4096 = a / 4096 := by
  obtain ⟨q, rfl⟩ := hdvd
  refine ⟨pageOf (4096 * q) (a / 4096 - q), ?_, ?_⟩
  · exact List.mem_map_of_mem (List.mem_range.2 (by omega))
  · rw [pageOf_of_lt hA (by omega)]
    omega

/-- A free makes no region that is in use. -/
theorem Released.mem_of_allocated {p : Position} {z : VaddrReg} (h : Released env roots a s s' p)
    (hz : z.status = ALLOCATED) (hm : z ∈ s'.map.memoryAllocations) :
    z ∈ p.before ∨ z ∈ p.after := by
  obtain ⟨pre, x, reg, y, post, hlist, hc⟩ := h.list
  rw [hlist] at hm
  exact (hc.mem_allocated hz).1 hm

theorem Released.backed {p : Position} (h : Released env roots a s s' p)
    (hl : Partition s.map.memoryAllocations) (hb : Backed env s) : Backed env s' := by
  obtain ⟨pre, x, reg, y, post, hlist, hc⟩ := h.list
  have hmem : ∀ {z : VaddrReg}, z.status = ALLOCATED → z ∈ s'.map.memoryAllocations →
      z ∈ s.map.memoryAllocations := fun hz hm => by
    rw [h.found.split]
    rcases h.mem_of_allocated hz hm with hm | hm <;> simp [hm]
  refine ⟨fun b hbR hres => ?_, fun z hz hs => hb.small z (hmem hs hz) hs⟩
  have hold : Resident s.mem (rootFrame env.cr3) b := by
    unfold Resident at hres ⊢
    rwa [h.dropped.eq_of_inMemory hbR hres] at hres
  obtain ⟨z, hz, hs, h1, h2⟩ := hb.covered b hbR hold
  by_cases hzf : z = p.found
  · -- the region's own pages are gone
    subst hzf
    exact absurd hres (h.dropped.not_inMemory (pageWise_leaf _ _) hbR
      (mem_pagesFrom h.start (hl.spans.dvd (by decide) hz) (hb.small _ hz hs) h1 h2))
  · refine ⟨z, ?_, hs, h1, h2⟩
    rw [h.found.split] at hz
    rw [hlist]
    refine (hc.mem_allocated hs).2 ?_
    simpa [hzf] using hz

/-- No region in use holds an address of the region that was freed. -/
theorem Released.not_covered {p : Position} (h : Released env roots a s s' p)
    (hl : Partition s.map.memoryAllocations) (h1 : p.found.pageAddr ≤ b)
    (h2 : b < p.found.pageAddr + 4096 * p.found.size) : ¬ Covered s'.map.memoryAllocations b := by
  rintro ⟨z, hz, hs, hz1, hz2⟩
  have hspans := hl.spans
  rw [h.found.split] at hspans
  obtain ⟨hbelow, habove⟩ := hspans.beside
  rcases h.mem_of_allocated hs hz with hm | hm
  · have := hbelow z (List.mem_reverse.2 hm)
    omega
  · have := habove z hm
    omega

/-- A region with pages that starts at the address that is freed is the one that is found. -/
theorem Released.found_eq {p : Position} {reg : VaddrReg} (h : Released env roots a s s' p)
    (hl : Partition s.map.memoryAllocations) (hreg : reg ∈ s.map.memoryAllocations)
    (haddr : reg.pageAddr = a) (hpos : 1 ≤ reg.size) : reg = p.found := by
  have hfound := h.found.addr
  have hpages := h.found.size_pos hl
  exact hl.spans.eq_of_mem (x := a) hreg h.found.mem (by omega) (by omega)

/-- Only the entries and the list matter. -/
theorem Backed.congr (h : Backed env s) (hl : s'.map.memoryAllocations = s.map.memoryAllocations)
    (hres : ∀ a ∈ Region, Resident s'.mem (rootFrame env.cr3) a →
      Resident s.mem (rootFrame env.cr3) a) : Backed env s' :=
  ⟨fun a ha hr => by rw [hl]; exact h.covered a ha (hres a ha hr), by rw [hl]; exact h.small⟩

theorem Accessed.resident {w : Bool} {f g : ℕ} (h : Accessed roots r a w s s' f g)
    (hb : b ∈ Region) :
    Resident s'.mem r b ↔ Resident s.mem r b := by
  rw [resident_iff, resident_iff, h.owned_nodes.2 r h.root b (.inl hb) 4 (le_refl _)]

theorem Written.resident {byte : Byte} {g : ℕ} (h : Written roots r a byte s s' g)
    (hb : b ∈ Region) : Resident s'.mem r b ↔ Resident s.mem r b := by
  unfold Resident
  rw [h.leaf_eq h.root hb]

/-- One step keeps the pages in memory within the regions in use. -/
theorem StepCase.backed {ev : Event} (h : StepCase env roots Q s ev s') (hr : Ready env roots Q s)
    (hsmall : SmallRequests ev) (hb : Backed env s) : Backed env s' := by
  -- the page that a fault brings in is in the region that was checked
  have hfault : ∀ {a : ℕ} {s₁ : State}, (s₁ = s ∨
      (checkAddressRange s.map.memoryAllocations a = true ∧ Faulted env roots Q a s s₁)) →
      Backed env s₁ := by
    rintro a s₁ (rfl | ⟨hrange, hf⟩)
    · exact hb
    · refine ⟨fun b hbR hres => ?_, by rw [hf.list]; exact hb.small⟩
      rw [hf.list]
      rcases hf.resident_cases hr.root hbR hres with hold | hpage
      · exact hb.covered b hbR hold
      · exact Covered.page ((checkAddressRange_iff hr.list a).1 hrange) hr.list hpage
  cases h with
  | alloc =>
    refine ⟨fun b hbR hres => ?_, fun reg hreg hs => ?_⟩
    · obtain ⟨reg, hreg, hs, h12⟩ := hb.covered b hbR hres
      exact ⟨reg, mem_allocate _ _ hreg hs, hs, h12⟩
    · rcases new_of_mem_allocate hreg hs with hm | ⟨hsz, -⟩
      · exact hb.small reg hm hs
      · rw [hsz]
        exact hsmall
  | freeNone => exact hb
  | free hrel => exact hrel.backed hr.list hb
  | refused => exact hb
  | fault hrange _ hf => exact hfault (.inr ⟨hrange, hf⟩)
  | read _ hcase hacc _ =>
    exact (hfault hcase).congr (by rw [hacc.map]) fun b hbR hres => (hacc.resident hbR).1 hres
  | write _ hcase hacc hw =>
    refine (hfault hcase).congr (by rw [hw.map, hacc.map]) fun b hbR hres => ?_
    exact (hacc.resident hbR).1 ((hw.resident hbR).1 hres)

/-- The event is a request that was answered with a range that holds the address. -/
def Grants (a : ℕ) : Event → Prop
  | .alloc addr numPages => addr ≤ a ∧ a < addr + 4096 * numPages
  | _ => False

/-- An address comes into use by a request only. -/
theorem StepCase.covered {ev : Event} (h : StepCase env roots Q s ev s') (hno : ¬ Grants a ev)
    (hc : Covered s'.map.memoryAllocations a) : Covered s.map.memoryAllocations a := by
  have hfault : ∀ {b : ℕ} {s₁ : State}, (s₁ = s ∨
      (checkAddressRange s.map.memoryAllocations b = true ∧ Faulted env roots Q b s s₁)) →
      s₁.map.memoryAllocations = s.map.memoryAllocations := by
    rintro b s₁ (rfl | ⟨-, hf⟩)
    · rfl
    · exact hf.list
  cases h with
  | alloc =>
    obtain ⟨reg, hreg, hs, h1, h2⟩ := hc
    rcases new_of_mem_allocate hreg hs with hm | ⟨hsz, haddr⟩
    · exact ⟨reg, hm, hs, h1, h2⟩
    · rw [hsz, haddr] at h2
      rw [haddr] at h1
      exact absurd ⟨h1, h2⟩ hno
  | freeNone => exact hc
  | @free _ _ p hrel =>
    obtain ⟨reg, hreg, hs, h12⟩ := hc
    refine ⟨reg, ?_, hs, h12⟩
    rw [hrel.found.split]
    rcases hrel.mem_of_allocated hs hreg with hm | hm <;> simp [hm]
  | refused => exact hc
  | fault _ _ hf => rwa [hf.list] at hc
  | read _ hcase hacc _ => rwa [hacc.map, hfault hcase] at hc
  | write _ hcase hacc hw => rwa [hw.map, hacc.map, hfault hcase] at hc

variable {k : Kern} {node : ℕ} {es : List Event}

/-- Requests are for at most 2^19 pages, and where a step runs out of frames the list head does
not resolve to a present page. -/
def SmallOk (env : Env) (es : List Event) (s : State) (ev : Event) : Prop :=
  SmallRequests ev ∧ AtEvictions env (fun s => HeadAbsent env s.mem) es s ev

/-- What the pages in memory are is kept along a run from any state. -/
theorem run_backed_from {s₀ : State} (hr : Ready env roots (fun s => HeadAbsent env s.mem) s₀)
    (hb : Backed env s₀) (h : Run env (SmallOk env) s₀ es s) :
    Ready env roots (fun s => HeadAbsent env s.mem) s ∧ Backed env s := by
  refine h.induct (P := fun _ s => Ready env roots (fun s => HeadAbsent env s.mem) s ∧ Backed env s)
    ⟨hr, hb⟩ ?_
  rintro es s ev s' ⟨hr, hb⟩ ⟨hsmall, hok⟩ hstep
  have hcase := step_cases hr hok hstep
  exact ⟨hcase.ready hr, hcase.backed hr hsmall hb⟩

theorem run_backed (hs : Start env roots k)
    (hnone : ∀ a ∈ Region, ¬ Resident k.mem (rootFrame env.cr3) a)
    (h : Run env (SmallOk env) (initState k node) es s) :
    Ready env roots (fun s => HeadAbsent env s.mem) s ∧ Backed env s := by
  -- nothing is allocated and no page is in memory
  have hinit : Backed env (initState k node) := by
    refine ⟨fun a ha hres => absurd hres (hnone a ha), fun reg hreg hst => ?_⟩
    rw [List.mem_singleton.1 (show reg ∈ initRegions node from hreg)] at hst
    exact absurd hst (show FREE ≠ ALLOCATED by decide)
  exact run_backed_from ⟨hs.owned, hs.root, partition_initRegions node, fun _ h => h⟩ hinit h

/-- An address that is in no region in use stays out of use until a request grants it. -/
theorem run_not_covered {s₀ : State} (hr : Ready env roots (fun s => HeadAbsent env s.mem) s₀)
    (hc : ¬ Covered s₀.map.memoryAllocations a) (h : Run env (SmallOk env) s₀ es s)
    (hno : ∀ ev ∈ es, ¬ Grants a ev) : ¬ Covered s.map.memoryAllocations a := by
  have hrun := h.induct (P := fun es s => Ready env roots (fun s => HeadAbsent env s.mem) s ∧
    ((∀ ev ∈ es, ¬ Grants a ev) → ¬ Covered s.map.memoryAllocations a)) ⟨hr, fun _ => hc⟩ ?_
  · exact hrun.2 hno
  · rintro es s ev s' ⟨hr, ih⟩ ⟨-, hok⟩ hstep
    have hcase := step_cases hr hok hstep
    refine ⟨hcase.ready hr, fun hno hc' => ih (fun ev hev => hno ev (by simp [hev])) ?_⟩
    exact hcase.covered (hno ev (by simp)) hc'

/-- In every run with requests of at most 2^19 pages, each page of the petmem region whose walk
is present lies in a region in use. Where the list head does not read as free, a free returns; the
addresses of the region that was freed have no translation then, in any run from there on, until
a request grants them again. -/
theorem only_allocated_reachable (hs : Start env roots k)
    (hnone : ∀ a ∈ Region, walk k.mem env.cr3 a = none)
    (h : Run env (SmallOk env) (initState k node) es s) :
    (∀ a ∈ Region, walk s.mem env.cr3 a ≠ none →
      ∃ reg ∈ s.map.memoryAllocations, reg.status = ALLOCATED ∧ reg.pageAddr ≤ a ∧
        a < reg.pageAddr + 4096 * reg.size) ∧
    (∀ vaddr, env.head.status ≠ FREE → ∃ s₁, petmemFreeVspace env vaddr s = .ok s₁) ∧
    ∀ vaddr s₁, petmemFreeVspace env vaddr s = .ok s₁ →
      ∀ reg ∈ s.map.memoryAllocations, reg.pageAddr = vaddr →
      ∀ a, reg.pageAddr ≤ a → a < reg.pageAddr + 4096 * reg.size →
      ∀ es' s₂, Run env (SmallOk env) s₁ es' s₂ → (∀ ev ∈ es', ¬ Grants a ev) →
        walk s₂.mem env.cr3 a = none := by
  obtain ⟨hr, hb⟩ := run_backed hs (fun a ha hr => (resident_iff_walk ha).1 hr (hnone a ha)) h
  refine ⟨fun a ha hw => hb.covered a ha ((resident_iff_walk ha).2 hw),
    fun vaddr hhead => hr.free_returns hhead vaddr,
    fun vaddr s₁ hrun reg hreg haddr a h1 h2 es' s₂ hrun' hno => ?_⟩
  have ha : a ∈ Region := by
    have hbound := hr.list.spans.bounds hreg
    rw [mem_region]
    omega
  rcases petmemFreeVspace_released hr hrun with ⟨-, hnone⟩ | ⟨p, hrel⟩
  · exact absurd haddr (hnone reg hreg)
  · obtain rfl := hrel.found_eq hr.list hreg haddr (by omega)
    have hr₁ := hrel.ready hr
    -- the freed region is out of use, so no page of it comes into memory
    have hc := run_not_covered hr₁ (hrel.not_covered hr.list h1 h2) hrun' hno
    obtain ⟨-, hb₂⟩ := run_backed_from hr₁ (hrel.backed hr.list hb) hrun'
    by_contra hw
    exact hc (hb₂.covered a ha ((resident_iff_walk ha).2 hw))

/-- The process of `smallMem` starts with no page in memory. -/
theorem wideKern_start {n : ℕ} (hn : n < 2 ^ 19) (file : SwapFile) :
    Start smallEnv {1} (wideKern n file) ∧
      ∀ a ∈ Region, walk (wideKern n file).mem smallEnv.cr3 a = none := by
  refine ⟨(wideKern_unmapped hn file).1, fun a ha => walk_of_node_none (region_index_zero ha) ?_⟩
  exact node_eq_none_of_le (wideKern_none hn file a ha) (by omega)

theorem smallKern_start (file : SwapFile) :
    Start smallEnv {1} (smallKern file) ∧
      ∀ a ∈ Region, walk (smallKern file).mem smallEnv.cr3 a = none :=
  wideKern_start (by norm_num) file

/-- After two pages were requested and the first was touched, it is mapped and lies in a region in
use; once it was freed it is not mapped, and a fault at it does not map it. -/
theorem only_allocated_reachable_after_free :
    ∃ es s s₁ s₂, Run smallEnv (SmallOk smallEnv) (initState (smallKern (eightSlots 0)) 1) es s ∧
      walk s.mem smallEnv.cr3 0x1000000000 ≠ none ∧
      (∃ reg ∈ s.map.memoryAllocations, reg.status = ALLOCATED ∧ reg.pageAddr ≤ 0x1000000000 ∧
        0x1000000000 < reg.pageAddr + 4096 * reg.size) ∧
      petmemFreeVspace smallEnv 0x1000000000 s = .ok s₁ ∧
      Run smallEnv (SmallOk smallEnv) s₁ [.fault 0x1000000000 1] s₂ ∧
      walk s₂.mem smallEnv.cr3 0x1000000000 = none := by
  have hres : (replayCalm smallEnv [.alloc 2 1, .alloc 3 1, .fault 0x1000000000 1]
      ([], initState (smallKern (eightSlots 0)) 1)).map (fun r =>
        (decide (∀ ev ∈ r.1, SmallRequests ev), (walk r.2.mem smallEnv.cr3 0x1000000000).isSome,
          r.2.map.memoryAllocations.head?))
      = some (true, true, some ⟨1, ALLOCATED, 1, 0x1000000000⟩) := by
    decide +kernel
  obtain ⟨⟨es, s⟩, hreplay, heq⟩ := Option.map_eq_some_iff.1 hres
  simp only [Prod.mk.injEq, decide_eq_true_eq] at heq
  obtain ⟨hsmall, hwalk, hhead⟩ := heq
  have hreg := List.mem_of_mem_head? hhead
  have hrun : Run smallEnv (SmallOk smallEnv) _ es s :=
    (run_of_replayCalm _ .start hreplay).restrict hsmall
  have hne := Option.isSome_iff_ne_none.1 hwalk
  obtain ⟨hstart, hnone⟩ := smallKern_start (eightSlots 0)
  obtain ⟨hcov, hreturns, hfreed⟩ := only_allocated_reachable hstart hnone hrun
  obtain ⟨s₁, hfree⟩ := hreturns 0x1000000000 (by decide)
  -- the fault is refused: the page is in no region in use
  have hr : Ready smallEnv {1} (fun s => HeadAbsent smallEnv s.mem) s :=
    (run_backed hstart (fun a ha hr => (resident_iff_walk ha).1 hr (hnone a ha)) hrun).1
  have hrange : checkAddressRange s₁.map.memoryAllocations 0x1000000000 = false := by
    rcases petmemFreeVspace_released hr hfree with ⟨-, hno⟩ | ⟨p, hrel⟩
    · exact absurd rfl (hno _ hreg)
    · have hfound := hrel.found_eq hr.list hreg rfl (le_refl _)
      rw [Bool.eq_false_iff, ne_eq, checkAddressRange_iff (hrel.ready hr).list]
      refine hrel.not_covered hr.list ?_ ?_
      · rw [← hfound]
      · rw [← hfound]
        norm_num
  have hrefused : petmemHandlePagefault smallEnv 0x1000000000 1 s₁ = .ok (-1, s₁) := by
    unfold petmemHandlePagefault
    rw [hrange]
    rfl
  have hrun₂ : Run smallEnv (SmallOk smallEnv) s₁ [.fault 0x1000000000 1] s₁ := by
    refine .step .start ⟨trivial, fun _ t ht => ?_⟩ (.fault hrefused)
    rw [ht.range] at hrange
    cases hrange
  refine ⟨es, s, s₁, s₁, hrun, hne, hcov _ ?_ hne, hfree, hrun₂,
    hfreed _ s₁ hfree _ hreg rfl _ (le_refl _) (by norm_num) _ s₁ hrun₂ fun ev hev => ?_⟩
  · unfold Region petmemRegionStart petmemRegionEnd
    simp
  · obtain rfl := List.mem_singleton.1 hev
    exact id

end OnDemand

end Petmem
