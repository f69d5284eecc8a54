import Petmem.Isolation

/-!
# Whose pages are mapped

A page of the petmem region is mapped in a page table only while the process of this page table has
the device open, and only in a region that it has in use: `petmem_release` goes through all regions
of the map, and each of its pages that is in memory is met on the way. This needs what the module
takes for granted: a process opens the device once, and a region in use has at most 2^19 pages.
-/

namespace Petmem
namespace OnDemand

open ByteMemory RadixTree Pools Swap Regions

variable {env : Env} {s s' : State} {roots : Set ℕ} {Q : State → Prop} {r a b : ℕ} {k k' : Kern}

/-! ## The end of a process -/

/-- Every page in memory lies in one of the regions, which are in use and of at most 2^19 pages. -/
structure WithinRegions (m : Mem) (r : ℕ) (l : List VaddrReg) : Prop where
  covered : ∀ a ∈ Region, Resident m r a → Covered l a
  small : ∀ reg ∈ l, reg.status = ALLOCATED → reg.size ≤ 2 ^ 19

/-- When the pages of a region were visited, those in memory lie in the other regions. -/
theorem WithinRegions.freeRange {cr3 : ℕ} {reg : VaddrReg} {rest : List VaddrReg}
    (h : WithinRegions k.mem (rootFrame cr3) (reg :: rest)) (hr : rootFrame cr3 ∈ roots)
    (hreg : reg.pageAddr ∈ Region) (hdvd : 4096 ∣ reg.pageAddr) (ho : Owned k roots)
    (hrun : freeRange cr3 reg.pageAddr (List.range reg.size) k = .ok k') :
    WithinRegions k'.mem (rootFrame cr3) rest := by
  obtain ⟨m', hrun', -, hd⟩ := freeRange_spec hr hreg (List.range reg.size) ho
  obtain rfl := Except.ok.inj (hrun.symm.trans hrun')
  refine ⟨fun b hb hres => ?_, fun z hz => h.small z (List.mem_cons_of_mem _ hz)⟩
  have hold : Resident k.mem (rootFrame cr3) b := by
    unfold Resident at hres ⊢
    rwa [hd.eq_of_inMemory hb hres] at hres
  obtain ⟨z, hz, hs, h1, h2⟩ := h.covered b hb hold
  rcases List.mem_cons.1 hz with rfl | hz
  · -- the region's own pages are gone
    refine absurd hres (hd.not_inMemory (pageWise_leaf _ _) hb ?_)
    exact mem_pagesFrom hreg hdvd (h.small z List.mem_cons_self hs) h1 h2
  · exact ⟨z, hz, hs, h1, h2⟩

theorem deinitRegions_unmaps {cr3 : ℕ} (hr : rootFrame cr3 ∈ roots) (l : List VaddrReg)
    (hstart : ∀ reg ∈ l, reg.pageAddr ∈ Region) (hdvd : ∀ reg ∈ l, 4096 ∣ reg.pageAddr) :
    ∀ {k k' : Kern}, Owned k roots → WithinRegions k.mem (rootFrame cr3) l →
      deinitRegions cr3 l k = .ok k' → ∀ a ∈ Region, ¬ Resident k'.mem (rootFrame cr3) a := by
  induction l with
  | nil =>
    intro k k' _ h hrun a ha hres
    rw [← Except.ok.inj hrun] at hres
    obtain ⟨z, hz, -⟩ := h.covered a ha hres
    cases hz
  | cons reg rest ih =>
    intro k k' ho h hrun
    rw [deinitRegions] at hrun
    obtain ⟨k₁, h1, hrun⟩ := bind_eq_ok.1 hrun
    have hreg := hstart reg List.mem_cons_self
    have hrest := h.freeRange hr hreg (hdvd reg List.mem_cons_self) ho h1
    obtain ⟨m₁, hrun₁, hp₁, -⟩ := freeRange_spec hr hreg (List.range reg.size) ho
    obtain rfl := Except.ok.inj (h1.symm.trans hrun₁)
    exact ih (fun z hz => hstart z (List.mem_cons_of_mem _ hz))
      (fun z hz => hdvd z (List.mem_cons_of_mem _ hz)) hp₁.owned hrest hrun

/-- `petmem_deinit_process` leaves no petmem page mapped. -/
theorem petmemDeinitProcess_unmaps {cr3 : ℕ} (hr : rootFrame cr3 ∈ roots)
    (hl : Partition s.map.memoryAllocations) (ho : Owned s.toKern roots)
    (h : WithinRegions s.mem (rootFrame cr3) s.map.memoryAllocations)
    (hrun : petmemDeinitProcess cr3 s = .ok k') :
    ∀ a ∈ Region, ¬ Resident k'.mem (rootFrame cr3) a :=
  deinitRegions_unmaps hr _ (fun reg hreg => starts_subset hl ⟨reg, hreg, rfl⟩)
    (fun _ hreg => hl.spans.dvd (by decide) hreg) ho h hrun

/-! ## The machine -/

/-- No two clients have the same page table, and their regions in use have at most 2^19 pages. -/
structure Orderly (w : Machine) : Prop where
  apart : ∀ pid pid' c c', w.clients pid = some c → w.clients pid' = some c' →
    rootFrame c.cr3 = rootFrame c'.cr3 → pid = pid'
  small : ∀ pid c, w.clients pid = some c → ∀ reg ∈ c.map.memoryAllocations,
    reg.status = ALLOCATED → reg.size ≤ 2 ^ 19

/-- Operations of any parties, in any order, from one orderly state to another. -/
def OrderlyRun (m : Mem) (file : SwapFile) : Machine → Prop :=
  Relation.ReflTransGen (fun w w' => MachineStep w w' ∧ Orderly w') (boot m file)

/-- A page is mapped only in a region in use of a client with this page table. -/
def Accounted (w : Machine) : Prop :=
  ∀ r ∈ w.roots, ∀ a ∈ Region, Resident w.kern.mem r a →
    ∃ pid c, w.clients pid = some c ∧ rootFrame c.cr3 = r ∧ Covered c.map.memoryAllocations a

variable {w w' : Machine} {who : Party}

theorem OrderlyRun.run {m : Mem} {file : SwapFile} (h : OrderlyRun m file w) :
    MachineRun m file w ∧ Orderly w := by
  induction h with
  | refl =>
    refine ⟨.refl, ⟨fun pid pid' c c' hc => ?_, fun pid c hc => ?_⟩⟩
    · cases hc
    · cases hc
  | tail _ hstep ih => exact ⟨ih.1.tail hstep.1, hstep.2⟩

/-- The pages of a process that takes no part stay accounted for. -/
theorem Undisturbed.covered (h : Undisturbed r w w') (hacc : Accounted w) (hr : r ∈ w.roots)
    (ha : a ∈ Region) (hres : Resident w'.kern.mem r a) :
    ∃ pid c, w'.clients pid = some c ∧ rootFrame c.cr3 = r ∧ Covered c.map.memoryAllocations a := by
  unfold Resident at hres
  rw [h.pages.leaf a ha] at hres
  obtain ⟨pid, c, hc, hcr, hcov⟩ := hacc r hr a ha hres
  exact ⟨pid, c, h.maps pid c hc hcr, hcr, hcov⟩

/-- The pages of a client lie in its regions. -/
theorem Accounted.within (hacc : Accounted w) (ho : Orderly w) (hinv : MachineInv w) {pid : ℕ}
    {c : Client} (hc : w.clients pid = some c) :
    WithinRegions w.kern.mem (rootFrame c.cr3) c.map.memoryAllocations := by
  refine ⟨fun a ha hres => ?_, ho.small pid c hc⟩
  obtain ⟨pid', c', hc', hcr, hcov⟩ := hacc _ (hinv.root pid c hc) a ha hres
  obtain rfl := ho.apart pid' pid c' c hc' hc hcr
  obtain rfl := Option.some.inj (hc'.symm.trans hc)
  exact hcov

/-- One step of a client keeps its pages within its regions. -/
theorem Step.covered {es : List Event} {ev : Event} (hr : Ready env roots Q s)
    (hok : AtEvictions env Q es s ev) (hstep : Step env s ev s')
    (h : WithinRegions s.mem (rootFrame env.cr3) s.map.memoryAllocations) :
    ∀ a ∈ Region, Resident s'.mem (rootFrame env.cr3) a → Covered s'.map.memoryAllocations a := by
  have hb : Backed env s := ⟨h.covered, h.small⟩
  have hcase := step_cases hr hok hstep
  cases hstep with
  | alloc =>
    intro b hb hres
    obtain ⟨reg, hreg, hs, h12⟩ := h.covered b hb hres
    exact ⟨reg, mem_allocate _ _ hreg hs, hs, h12⟩
  | free _ => exact (hcase.backed hr trivial hb).covered
  | fault _ => exact (hcase.backed hr trivial hb).covered
  | read _ => exact (hcase.backed hr trivial hb).covered
  | write _ => exact (hcase.backed hr trivial hb).covered

/-- One operation keeps all pages accounted for. -/
theorem StepBy.accounted (hinv : MachineInv w) (ho : Orderly w) (hacc : Accounted w)
    (hstep : StepBy w who w') : Accounted w' := by
  intro r hr a ha hres
  by_cases hold : r ∈ w.roots ∧ who ≠ .process r
  · exact (hstep.undisturbed hinv hold.2 hold.1).covered hacc hold.1 ha hres
  cases hstep with
  | addMemory _ _ _ => exact absurd ⟨hr, by simp⟩ hold
  | kernel _ => exact absurd ⟨hr, by simp⟩ hold
  | @arrive r' hj =>
    -- the page table that comes has nothing mapped
    have hrr : r = r' := by
      by_contra hne
      exact hold ⟨hr.resolve_left hne, fun heq => hne (Party.process.inj heq).symm⟩
    subst hrr
    obtain ⟨g, hg⟩ := resident_iff.1 hres
    cases (node_eq_none_of_le (hj.unmapped a ha) (show 2 ≤ 4 by omega)).symm.trans hg
  | @leave r' _ =>
    exact absurd ⟨hr.1, fun heq => hr.2 (Party.process.inj heq).symm⟩ hold
  | @petmemOpen pid cr3 node hpid _ =>
    obtain ⟨pid', c, hc, hcr, hcov⟩ := hacc r hr a ha hres
    have hne : pid' ≠ pid := by
      rintro rfl
      cases hc.symm.trans hpid
    exact ⟨pid', c, (Function.update_of_ne hne _ _).trans hc, hcr, hcov⟩
  | @perform pid c env ev s' hc henv hok hrun =>
    have hrr : rootFrame c.cr3 = r := by
      by_contra hne
      exact hold ⟨hr, fun heq => hne (Party.process.inj heq)⟩
    subst hrr
    have hready := hinv.ready hc henv (Q := fun s => HeadAbsent env s.mem) fun _ hq => hq
    have hwithin := hacc.within ho hinv hc
    rw [← henv] at hwithin hres
    exact ⟨pid, _, Function.update_self _ _ _, rfl, Step.covered hready hok hrun hwithin a ha hres⟩
  | @petmemRelease pid c k' hc hrun =>
    have hrr : rootFrame c.cr3 = r := by
      by_contra hne
      exact hold ⟨hr, fun heq => hne (Party.process.inj heq)⟩
    subst hrr
    exact absurd hres (petmemDeinitProcess_unmaps (hinv.root pid c hc) (hinv.list pid c hc)
      hinv.owned (hacc.within ho hinv hc) hrun a ha)

theorem Accounted.of_run {m : Mem} {file : SwapFile} (h : OrderlyRun m file w) : Accounted w := by
  induction h with
  | refl => exact fun r hr => hr.elim
  | tail hrun hstep ih =>
    obtain ⟨hreach, hord⟩ := OrderlyRun.run hrun
    obtain ⟨who, hby⟩ := hstep.1.exists_party
    exact hby.accounted (.of_run hreach) hord ih

end OnDemand

end Petmem
