import Petmem.Translations
import Mathlib.Logic.Relation

/-!
# The whole machine

Any number of processes share the pools. A process brings a page table of its own (`arrive`), opens
and releases the device, sends its requests and touches its memory; meanwhile ranges are added with
`ADD_MEMORY`, and the rest of the kernel writes to memory that is in no pool. `MachineStep` is one
whole operation, and `MachineInv` what holds between operations.

What petmem has entered into the page tables refers to frames that are outstanding, each of them
in one entry only. The entries are those on the walks of petmem addresses, except that a process
may come with a level-3 table of its own: `own` says, for each top-level table, which frame that
is, as long as the entry has not been cleared.
-/

namespace Petmem
namespace OnDemand

open ByteMemory RadixTree Pools Swap Regions

variable {env : Env} {s s' : State} {roots : Set ℕ} {Q : State → Prop} {r a f g : ℕ}

/-! ## Top-level entries -/

/-- What an operation does to the pools and the top-level tables: the pools keep their shape, and
an entry that refers to memory outside the pools was there before. -/
structure Steady (roots : Set ℕ) (k k' : Kern) : Prop where
  pools : SamePools k k'
  tops : ∀ r ∈ roots, ∀ f, child k'.mem r 0 = some f → Foreign k' f → child k.mem r 0 = some f

theorem child_eq_node {m : Mem} : child m r 0 = tableNode m r petmemRegionStart 1 :=
  (node_one_eq_child start_mem_region).symm

namespace Steady

variable {k k' k'' : Kern}

theorem refl (roots : Set ℕ) (k : Kern) : Steady roots k k := ⟨.refl k, fun _ _ _ h _ => h⟩

theorem trans (h : Steady roots k k') (h' : Steady roots k' k'') : Steady roots k k'' where
  pools := h.pools.trans h'.pools
  tops r hr f hf hfor := h.tops r hr f (h'.tops r hr f hf hfor) (h'.pools.foreign_iff.1 hfor)

theorem of_nodes (hpools : SamePools k k')
    (hnode : ∀ r ∈ roots, tableNode k'.mem r petmemRegionStart 1
      = tableNode k.mem r petmemRegionStart 1) : Steady roots k k' := by
  refine ⟨hpools, fun r hr f hf _ => ?_⟩
  rw [child_eq_node] at hf ⊢
  rwa [← hnode r hr]

/-- Entries that are present were not touched. -/
theorem of_entries (h : Owned k roots) (hpools : SamePools k k')
    (hent : ∀ c < frameLimit, ∀ i < 512, (pteAt k'.mem c i).present = true →
      pteAt k'.mem c i = pteAt k.mem c i) : Steady roots k k' := by
  refine ⟨hpools, fun r hr f hf _ => ?_⟩
  obtain ⟨hp, hb⟩ := child_eq_some.1 hf
  have hsame := hent r (h.root r hr).1 0 (by omega) hp
  rw [hsame] at hp hb
  exact child_eq_some.2 ⟨hp, hb⟩

end Steady

theorem Evicted.steady {v slot : ℕ} (h : Evicted roots r s s' v f g slot) :
    Steady roots s.toKern s'.toKern :=
  .of_nodes h.pools fun _ hr => h.node_table hr start_mem_region (by omega)

theorem Grown.steady {ℓ : ℕ} {src : ℕ → Byte} {e : Pte64}
    (h : Grown roots r a ℓ src s s' f g e) : Steady roots s.toKern s'.toKern := by
  refine ⟨h.pools, fun r' hr' c hc hfor => ?_⟩
  rw [child_eq_node] at hc ⊢
  rcases h.node_cases hr' start_mem_region (show 1 ≤ 4 by omega) with ⟨heq, -⟩ | ⟨hnew, -⟩
  · rwa [← heq]
  · -- the new table is a frame of the pools
    obtain rfl := Option.some.inj (hnew.symm.trans hc)
    exact absurd hfor (h.owned.pools.not_foreign_of_held h.held)

theorem Eased.steady (h : Eased env roots Q s s') : Steady roots s.toKern s'.toKern := by
  rcases h with rfl | ⟨-, -, v, f, g, slot, hev⟩
  · exact .refl _ _
  · exact hev.steady

theorem Pages.steady (h : Pages env roots Q a s s') : Steady roots s.toKern s'.toKern :=
  h.induct (P := fun s' => Steady roots s.toKern s'.toKern) (.refl _ _)
    (fun _ _ _ _ _ _ h1 _ he => h1.trans he.steady)
    fun _ _ _ _ _ _ h1 _ hg _ => h1.trans hg.steady

theorem Faulted.steady (h : Faulted env roots Q a s s') : Steady roots s.toKern s'.toKern := by
  cases h with
  | resident hp _ => exact hp.steady
  | fresh hp _ hg => exact hp.steady.trans hg.steady
  | swapIn hp _ _ _ _ he _ hg => exact (hp.steady.trans he.steady).trans hg.steady

theorem Accessed.steady {w : Bool} (h : Accessed roots r a w s s' f g) :
    Steady roots s.toKern s'.toKern :=
  .of_nodes (.of_eq h.pools) fun r' hr' =>
    h.owned_nodes.2 r' hr' _ (.inl start_mem_region) 1 (by omega)

theorem Written.steady {byte : Byte} (h : Written roots r a byte s s' g) :
    Steady roots s.toKern s'.toKern :=
  .of_nodes (.of_eq h.pools) fun r' hr' =>
    h.owned_nodes.2 r' hr' _ (.inl start_mem_region) 1 (by omega)

theorem freeRange_steady {cr3 A : ℕ} {is : List ℕ} {k k' : Kern} (hr : rootFrame cr3 ∈ roots)
    (hA : A ∈ Region) (h : Owned k roots) (hrun : freeRange cr3 A is k = .ok k') :
    Steady roots k k' := by
  obtain ⟨m', hrun', -, -⟩ := freeRange_spec hr hA is h
  have hent := freeRange_entries hr hA is h hrun
  obtain rfl := Except.ok.inj (hrun.symm.trans hrun')
  exact .of_entries h (.of_eq rfl) hent

theorem petmemFreeVspace_steady {vaddr : ℕ} (h : Ready env roots Q s)
    (hrun : petmemFreeVspace env vaddr s = .ok s') : Steady roots s.toKern s'.toKern := by
  rcases petmemFreeVspace_cases hrun with ⟨rfl, -⟩ | ⟨p, k, l', hp, hfree, -, rfl⟩
  · exact .refl _ _
  · exact freeRange_steady h.root (starts_subset h.list ⟨p.found, hp.mem, rfl⟩) h.owned hfree

/-- One operation of a process. -/
theorem step_steady {es : List Event} {ev : Event} (h : Ready env roots Q s)
    (hok : AtEvictions env Q es s ev) (hstep : Step env s ev s') :
    Steady roots s.toKern s'.toKern := by
  have hfault : ∀ {a : ℕ} {s₁ : State}, (s₁ = s ∨
      (checkAddressRange s.map.memoryAllocations a = true ∧ Faulted env roots Q a s s₁)) →
      Steady roots s.toKern s₁.toKern := by
    rintro a s₁ (rfl | ⟨-, hft⟩)
    · exact .refl _ _
    · exact hft.steady
  cases step_cases h hok hstep with
  | alloc _ => exact .refl _ _
  | freeNone _ => exact .refl _ _
  | free _ =>
    cases hstep with
    | free hrun => exact petmemFreeVspace_steady h hrun
  | refused => exact .refl _ _
  | fault _ _ hft => exact hft.steady
  | read _ hcase hacc _ => exact (hfault hcase).trans hacc.steady
  | write _ hcase hacc hw => exact ((hfault hcase).trans hacc.steady).trans hw.steady

/-- The end of a process. -/
theorem petmemDeinitProcess_steady {cr3 : ℕ} {k' : Kern} (hr : rootFrame cr3 ∈ roots)
    (hl : Partition s.map.memoryAllocations) (h : Owned s.toKern roots)
    (hrun : petmemDeinitProcess cr3 s = .ok k') :
    Owned k' roots ∧ Steady roots s.toKern k' := by
  obtain ⟨m', hrun', ho, hst⟩ := deinitRegions_spec (P := Steady roots s.toKern) hr
    (fun hA ho hst hfree => hst.trans (freeRange_steady hr hA ho hfree)) s.map.memoryAllocations
    (fun reg hreg => starts_subset hl ⟨reg, hreg, rfl⟩) h (.refl _ _)
  obtain rfl := Except.ok.inj (hrun.symm.trans hrun')
  exact ⟨ho, hst⟩

/-! ## The machine -/

/-- A process that has the device open: its page table and its map. -/
structure Client where
  cr3 : ℕ
  map : MemMap

/-- The shared state, the ranges that were added, the processes that have the device open, and the
top-level tables of all processes, each with the level-3 table it came with. -/
structure Machine where
  kern : Kern
  ranges : List (ℕ × ℕ)
  clients : ℕ → Option Client
  roots : Set ℕ
  own : ℕ → Option ℕ

/-- The shared state is now `k`. A level-3 table that the process came with is still its own where
the entry was not changed. -/
def Machine.update (w : Machine) (k : Kern) : Machine :=
  { w with
    kern := k
    own := fun r => if child k.mem r 0 = w.own r then w.own r else none }

/-- What the rest of the kernel leaves alone: the pools, and where the entries on the walks of
petmem addresses, and of addresses beside the region, lead. -/
structure Untouched (roots : Set ℕ) (k : Kern) (m' : Mem) : Prop where
  pools : ∀ x, m' x ≠ k.mem x → ∃ f, Foreign k f ∧ ∃ i < 4096, x = frameVa f i
  tables : ∀ r ∈ roots, ∀ a ∈ Region ∪ Side, ∀ ℓ < 4, ∀ f, tableNode k.mem r a ℓ = some f →
    child m' f (tableIndex a ℓ) = child k.mem f (tableIndex a ℓ)

/-- One operation. Memory that is added holds no page tables, and evictions are only made where the
list head does not resolve to a present page. -/
inductive MachineStep (w : Machine) : Machine → Prop
  | addMemory {base n : ℕ} {k' : Kern} : NewRange w.ranges base n →
      (∀ f, InTables w.kern w.roots f → ¬ InRange base n (f * 4096)) →
      addMemory base n w.kern = .ok k' →
      MachineStep w { w.update k' with ranges := (base, n) :: w.ranges }
  | kernel {m' : Mem} : Untouched w.roots w.kern m' →
      MachineStep w (w.update { w.kern with mem := m' })
  | arrive {r : ℕ} : Joins w.kern w.roots r →
      MachineStep w { w with
        roots := insert r w.roots
        own := Function.update w.own r (child w.kern.mem r 0) }
  | leave {r : ℕ} : (∀ pid c, w.clients pid = some c → rootFrame c.cr3 ≠ r) →
      MachineStep w { w with roots := w.roots \ {r} }
  | petmemOpen {pid cr3 node : ℕ} : w.clients pid = none → rootFrame cr3 ∈ w.roots →
      MachineStep w { w with
        clients := Function.update w.clients pid (some ⟨cr3, petmemInitProcess node w.kern.file⟩) }
  | perform {pid : ℕ} {c : Client} {env : Env} {ev : Event} {s' : State} :
      w.clients pid = some c → env.cr3 = c.cr3 →
      AtEvictions env (fun s => HeadAbsent env s.mem) [] ⟨w.kern, c.map⟩ ev →
      Step env ⟨w.kern, c.map⟩ ev s' →
      MachineStep w { w.update s'.toKern with
        clients := Function.update w.clients pid (some ⟨c.cr3, s'.map⟩) }
  | petmemRelease {pid : ℕ} {c : Client} {k' : Kern} : w.clients pid = some c →
      petmemDeinitProcess c.cr3 ⟨w.kern, c.map⟩ = .ok k' →
      MachineStep w { w.update k' with clients := Function.update w.clients pid none }

/-- The machine before the first range is added. -/
def boot (m : Mem) (file : SwapFile) : Machine :=
  ⟨⟨m, [], file, []⟩, [], fun _ => none, ∅, fun _ => none⟩

/-- Operations of any parties, in any order. -/
def MachineRun (m : Mem) (file : SwapFile) : Machine → Prop :=
  Relation.ReflTransGen MachineStep (boot m file)

/-- Entry `i` of the table in frame `f` is one that petmem has installed, and refers to frame
`g`. -/
def Installed (w : Machine) (f i g : ℕ) : Prop :=
  ∃ r ∈ w.roots, ∃ a ∈ Region, ∃ ℓ < 4, tableNode w.kern.mem r a ℓ = some f ∧
    i = tableIndex a ℓ ∧ child w.kern.mem f i = some g ∧ ¬ (ℓ = 0 ∧ w.own r = some g)

/-! ## The invariant -/

/-- What holds between operations. -/
structure MachineInv (w : Machine) : Prop where
  owned : Owned w.kern w.roots
  within : ∀ x, (∃ mp ∈ w.kern.pools, Covers mp x) → ∃ rg ∈ w.ranges, InRange rg.1 rg.2 x
  root : ∀ pid c, w.clients pid = some c → rootFrame c.cr3 ∈ w.roots
  list : ∀ pid c, w.clients pid = some c → Partition c.map.memoryAllocations
  tops : ∀ r ∈ w.roots, ∀ f, child w.kern.mem r 0 = some f → Foreign w.kern f → w.own r = some f

namespace MachineInv

variable {w w' : Machine} {pid : ℕ} {c : Client}

theorem boot (m : Mem) (file : SwapFile) : MachineInv (boot m file) where
  owned := owned_empty ⟨by simp [OnDemand.boot], by simp [OnDemand.boot], by simp [OnDemand.boot],
    by simp [OnDemand.boot]⟩
  within x hx := by simp [OnDemand.boot] at hx
  root pid c hc := by simp [OnDemand.boot] at hc
  list pid c hc := by simp [OnDemand.boot] at hc
  tops r hr := hr.elim

/-- A process that has the device open can call the handler. -/
theorem ready (h : MachineInv w) (hc : w.clients pid = some c) {env : Env} (henv : env.cr3 = c.cr3)
    {Q : State → Prop} (hQ : ∀ s, Q s → HeadAbsent env s.mem) :
    Ready env w.roots Q ⟨w.kern, c.map⟩ where
  owned := h.owned
  root := henv ▸ h.root pid c hc
  list := h.list pid c hc
  head := hQ

/-- The tops after an operation that leaves the pools' shape. -/
theorem tops_update (h : MachineInv w) {k' : Kern} (hst : Steady w.roots w.kern k') :
    ∀ r ∈ w.roots, ∀ f, child k'.mem r 0 = some f → Foreign k' f →
      (w.update k').own r = some f := by
  intro r hr f hf hfor
  have hown := h.tops r hr f (hst.tops r hr f hf hfor) (hst.pools.foreign_iff.1 hfor)
  unfold Machine.update
  simp only
  rw [hown, if_pos hf]

/-- After an operation that leaves the pools' shape, and changes the processes' maps. -/
theorem of_steady (h : MachineInv w) {k' : Kern} (ho : Owned k' w.roots)
    (hst : Steady w.roots w.kern k') (clients : ℕ → Option Client)
    (hclients : ∀ pid c, clients pid = some c →
      rootFrame c.cr3 ∈ w.roots ∧ Partition c.map.memoryAllocations) :
    MachineInv { w.update k' with clients := clients } where
  owned := ho
  within x hx := h.within x (hst.pools.covers_iff.1 hx)
  root pid c hc := (hclients pid c hc).1
  list pid c hc := (hclients pid c hc).2
  tops := h.tops_update hst

/-- The maps of the others do not matter. -/
theorem clients_update (h : MachineInv w) (pid : ℕ) (new : Option Client)
    (hnew : ∀ c, new = some c → rootFrame c.cr3 ∈ w.roots ∧ Partition c.map.memoryAllocations) :
    ∀ p c, Function.update w.clients pid new p = some c →
      rootFrame c.cr3 ∈ w.roots ∧ Partition c.map.memoryAllocations := by
  intro p c hc
  by_cases hp : p = pid
  · subst hp
    rw [Function.update_self] at hc
    exact hnew c hc
  · rw [Function.update_of_ne hp] at hc
    exact ⟨h.root p c hc, h.list p c hc⟩

/-- A range is added that holds no page tables. -/
theorem addMemory {base n : ℕ} {k' : Kern} (h : MachineInv w) (hnew : NewRange w.ranges base n)
    (htables : ∀ f, InTables w.kern w.roots f → ¬ InRange base n (f * 4096))
    (hrun : addMemory base n w.kern = .ok k') :
    MachineInv { w.update k' with ranges := (base, n) :: w.ranges } := by
  obtain ⟨k₁, hrun₁, hadd⟩ := addMemory_added h.owned.pools h.within hnew
  obtain rfl := Except.ok.inj (hrun.symm.trans hrun₁)
  -- a frame outside the range keeps its bytes, and stays outside the pools
  have hframe : ∀ f < frameLimit, ¬ InRange base n (f * 4096) → SameFrame w.kern.mem k'.mem f := by
    intro f hf hout i hi
    refine hadd.mem _ fun hin => hout ?_
    rw [frameVa_eq hf hi] at hin
    unfold InRange at hin ⊢
    have := hnew.dvd
    omega
  have hforeign : ∀ f, Foreign w.kern f → ¬ InRange base n (f * 4096) → Foreign k' f :=
    fun f hf hout => ⟨hf.1, fun mp hmp hc => by
      rcases (hadd.covers _).1 ⟨mp, hmp, hc⟩ with ⟨mp', hmp', hc'⟩ | hin
      · exact hf.2 mp' hmp' hc'
      · exact hout hin⟩
  have hback : ∀ f, Foreign k' f → Foreign w.kern f := fun f hf => ⟨hf.1, fun mp hmp hc => by
    obtain ⟨mp', hmp', hc'⟩ := (hadd.covers _).2 (.inl ⟨mp, hmp, hc⟩)
    exact hf.2 mp' hmp' hc'⟩
  have hchild : ∀ r ∈ w.roots, ∀ a ∈ Region ∪ Side, ∀ ℓ < 4, ∀ f,
      tableNode w.kern.mem r a ℓ = some f →
      child k'.mem f (tableIndex a ℓ) = child w.kern.mem f (tableIndex a ℓ) := by
    intro r hr a ha ℓ hℓ f hf
    have hlt := h.owned.pools.kept_lt (h.owned.table_kept hr ha (by omega) hf)
    exact Owned.child_of_sameFrame (hframe f hlt (htables f ⟨r, hr, a, ha, ℓ, by omega, hf⟩)) hlt
      (tableIndex_lt _ _)
  refine ⟨?_, fun x hx => ?_, h.root, h.list, fun r hr f hf hfor => ?_⟩
  · refine h.owned.of_le_foreign hadd.inv (fun r hr a ha ℓ hℓ f hf hfor =>
      hforeign f hfor (htables f ⟨r, hr, a, ha, ℓ, hℓ, hf⟩))
      (fun r hr a ha ℓ hℓ f g hf hg => ?_) fun r hr a ha ℓ h1 h4 f hf hh => ?_
    · have hg : child k'.mem f (tableIndex a ℓ) = some g := hg
      rwa [hchild r hr a ha ℓ hℓ f hf] at hg
    · exact hh.congr hadd.out
  · rcases (hadd.covers x).1 hx with hold | hin
    · obtain ⟨rg, hrg, hin⟩ := h.within x hold
      exact ⟨rg, List.mem_cons_of_mem _ hrg, hin⟩
    · exact ⟨(base, n), List.mem_cons_self, hin⟩
  · have hsame := hchild r hr _ (.inl start_mem_region) 0 (by omega) r rfl
    rw [region_index_zero start_mem_region] at hsame
    have hf : child k'.mem r 0 = some f := hf
    have hown := h.tops r hr f (hsame ▸ hf) (hback f hfor)
    change (if child k'.mem r 0 = w.own r then w.own r else none) = some f
    rw [hown, if_pos hf]

/-- The rest of the kernel writes to memory outside the pools. -/
theorem kernel {m' : Mem} (h : MachineInv w) (hm : Untouched w.roots w.kern m') :
    MachineInv (w.update { w.kern with mem := m' }) := by
  have hpools : PoolsInv { w.kern with mem := m' } := h.owned.pools.of_mem fun x hx => by
    by_contra hne
    obtain ⟨f, hf, i, hi, rfl⟩ := hm.pools x hne
    exact hx f i (.inr hf) hi rfl
  obtain ⟨ho, hnodes⟩ := h.owned.of_eq hpools (.of_eq rfl) hm.tables
    fun _ _ _ _ _ _ _ _ _ => held_with_mem.2
  exact h.of_steady ho (.of_nodes (.of_eq rfl) fun r hr =>
    hnodes r hr _ (.inl start_mem_region) 1 (by omega)) w.clients
    fun pid c hc => ⟨h.root pid c hc, h.list pid c hc⟩

/-- A process comes with a page table. -/
theorem arrive (h : MachineInv w) (hj : Joins w.kern w.roots r) :
    MachineInv { w with
      roots := insert r w.roots
      own := Function.update w.own r (child w.kern.mem r 0) } := by
  refine ⟨h.owned.insert hj, h.within, fun pid c hc => .inr (h.root pid c hc), h.list, ?_⟩
  rintro r' hr' f hf hfor
  by_cases heq : r' = r
  · subst heq
    exact (Function.update_self _ _ _).trans hf
  · refine (Function.update_of_ne heq _ _).trans ?_
    exact h.tops r' (hr'.resolve_left heq) f hf hfor

/-- A process is gone, with its page table. -/
theorem leave (h : MachineInv w)
    (hnone : ∀ pid c, w.clients pid = some c → rootFrame c.cr3 ≠ r) :
    MachineInv { w with roots := w.roots \ {r} } :=
  ⟨h.owned.subset Set.sdiff_subset, h.within,
    fun pid c hc => ⟨h.root pid c hc, hnone pid c hc⟩, h.list,
    fun r' hr' => h.tops r' hr'.1⟩

/-- **One operation keeps the invariant.** -/
theorem step (h : MachineInv w) (hstep : MachineStep w w') : MachineInv w' := by
  cases hstep with
  | addMemory hnew htables hrun => exact h.addMemory hnew htables hrun
  | kernel hm => exact h.kernel hm
  | arrive hj => exact h.arrive hj
  | leave hnone => exact h.leave hnone
  | @petmemOpen pid cr3 node hpid hroot =>
    have hclients := h.clients_update pid (some ⟨cr3, petmemInitProcess node w.kern.file⟩)
      fun c hc => by
        rw [← Option.some.inj hc]
        exact ⟨hroot, partition_initRegions node⟩
    exact ⟨h.owned, h.within, fun p c hc => (hclients p c hc).1, fun p c hc => (hclients p c hc).2,
      h.tops⟩
  | @perform pid c env ev s' hc henv hok hrun =>
    have hr := h.ready hc henv (Q := fun s => HeadAbsent env s.mem) fun _ hq => hq
    have hr' := (step_cases hr hok hrun).ready hr
    refine h.of_steady hr'.owned (step_steady hr hok hrun) _
      (h.clients_update pid _ fun c' hc' => ?_)
    rw [← Option.some.inj hc']
    exact ⟨h.root pid c hc, hr'.list⟩
  | @petmemRelease pid c k' hc hrun =>
    obtain ⟨ho, hst⟩ := petmemDeinitProcess_steady (h.root pid c hc) (h.list pid c hc) h.owned hrun
    exact h.of_steady ho hst _ (h.clients_update pid none fun c' hc' => by cases hc')

theorem of_run {m : Mem} {file : SwapFile} (h : MachineRun m file w) : MachineInv w := by
  induction h with
  | refl => exact boot m file
  | tail _ hstep ih => exact ih.step hstep

/-! ## Frames have one entry -/

/-- What petmem installed is outstanding. -/
theorem installed_held {i : ℕ} (h : MachineInv w) (hin : Installed w f i g) : Held w.kern g := by
  obtain ⟨r, hr, a, ha, ℓ, hℓ, hf, rfl, hchild, hown⟩ := hin
  have hnode : tableNode w.kern.mem r a (ℓ + 1) = some g := (node_succ_of_eq hf).trans hchild
  cases ℓ with
  | zero =>
    rcases h.owned.pdp r hr a ha g hnode with hk | hfor
    · exact hk
    · -- only the table that the process came with is not from the pools
      refine absurd ⟨rfl, h.tops r hr g ?_ hfor⟩ hown
      rwa [← node_one_eq_child ha]
  | succ n => exact h.owned.held r hr a ha (n + 2) (by omega) (by omega) g hnode

/-- Two entries that refer to one frame are the same entry. -/
theorem installed_unique {f' i i' : ℕ} (h : MachineInv w) (hin : Installed w f i g)
    (hin' : Installed w f' i' g) : f = f' ∧ i = i' := by
  obtain ⟨r, hr, a, ha, ℓ, hℓ, hf, rfl, hchild, -⟩ := hin
  obtain ⟨r', hr', a', ha', ℓ', hℓ', hf', rfl, hchild', -⟩ := hin'
  obtain ⟨rfl, hℓℓ, hpath⟩ := h.owned.separated r hr r' hr' a ha a' ha' (ℓ + 1) (by omega)
    (ℓ' + 1) (by omega) g ((node_succ_of_eq hf).trans hchild) ((node_succ_of_eq hf').trans hchild')
  obtain rfl : ℓ = ℓ' := by omega
  have hnode : tableNode w.kern.mem r a ℓ = tableNode w.kern.mem r a' ℓ :=
    node_congr fun n hn => hpath n (by omega)
  exact ⟨Option.some.inj (hf.symm.trans (hnode.trans hf')), hpath ℓ (by omega)⟩

/-- After an eviction there is a frame. -/
theorem retry_succeeds (h : MachineInv w) (hc : w.clients pid = some c) {env : Env}
    (henv : env.cr3 = c.cr3)
    (hhead : ∀ t, RunsOut env a ⟨w.kern, c.map⟩ t → HeadAbsent env t.mem)
    (hout : RunsOut env a ⟨w.kern, c.map⟩ s) (hclear : clearUpMemory env s = .ok s') :
    ∃ p k', petmemAllocPages 1 s'.toKern = .ok (p, k') ∧ p ≠ 0 := by
  have hr := h.ready hc henv (Q := fun s => HeadAbsent env s.mem) fun _ hq => hq
  have hs := hout.asks.ready hr (mem_region_of_range hr.list hout.range) fun t hasks ho =>
    hhead t ⟨hout.range, hasks, ho⟩
  obtain ⟨v, f, g, slot, hev⟩ :=
    clearUpMemory_spec hs.owned hs.root hs.list (hhead s hout) hclear
  rcases petmemAllocPages_spec hev.owned.pools with ⟨-, hno⟩ | ⟨g', k', hsome, hal⟩
  · exact absurd hev.free hno
  · have := hal.pos
    exact ⟨g' * 4096, k', hsome, by omega⟩

end MachineInv

/-- **Frames are exclusive.** In every state that the machine reaches, what petmem has installed in
a page table refers to a frame that is outstanding, no two entries refer to the same frame, and
where the handler has run out of frames and the eviction returns, it gets one. -/
theorem frames_exclusive {m : Mem} {file : SwapFile} {w : Machine} (h : MachineRun m file w) :
    (∀ f i g, Installed w f i g → Held w.kern g ∧ g ≠ 0) ∧
    (∀ f i f' i' g, Installed w f i g → Installed w f' i' g → f = f' ∧ i = i') ∧
    ∀ pid c env a s s', w.clients pid = some c → env.cr3 = c.cr3 →
      (∀ t, RunsOut env a ⟨w.kern, c.map⟩ t → HeadAbsent env t.mem) →
      RunsOut env a ⟨w.kern, c.map⟩ s → clearUpMemory env s = .ok s' →
      ∃ p k', petmemAllocPages 1 s'.toKern = .ok (p, k') ∧ p ≠ 0 := by
  have hinv := MachineInv.of_run h
  refine ⟨fun f i g hin => ?_, fun f i f' i' g hin hin' => hinv.installed_unique hin hin',
    fun pid c env a s s' hc henv hhead hout hclear =>
      hinv.retry_succeeds hc henv hhead hout hclear⟩
  have hheld := hinv.installed_held hin
  exact ⟨hheld, hinv.owned.pools.held_pos hheld⟩

/-! ## A process by itself -/

/-- What one process does by itself is a run of the machine. -/
theorem machineRun_client {m : Mem} {file : SwapFile} {w : Machine} {pid : ℕ} {c : Client}
    {es : List Event} (h : MachineRun m file w) (hc : w.clients pid = some c)
    (henv : env.cr3 = c.cr3)
    (hrun : Run env (AtEvictions env fun s => HeadAbsent env s.mem) ⟨w.kern, c.map⟩ es s) :
    ∃ w', MachineRun m file w' ∧ w'.kern = s.toKern ∧ w'.roots = w.roots ∧
      w'.clients pid = some ⟨c.cr3, s.map⟩ := by
  refine hrun.induct (P := fun _ s => ∃ w', MachineRun m file w' ∧ w'.kern = s.toKern ∧
    w'.roots = w.roots ∧ w'.clients pid = some ⟨c.cr3, s.map⟩) ⟨w, h, rfl, rfl, hc⟩ ?_
  rintro es ⟨k, map⟩ ev s' ⟨w', h', rfl, hroots, hc'⟩ hok hstep
  exact ⟨_, h'.tail (.perform hc' henv hok hstep), rfl, hroots, Function.update_self _ _ _⟩

/-- The process of the small machine opens the device. -/
theorem machineRun_small (file : SwapFile) :
    ∃ w, MachineRun smallMem file w ∧ w.kern = smallKern file ∧ w.roots = {1} ∧
      w.clients 1 = some ⟨0x1000, petmemInitProcess 1 w.kern.file⟩ := by
  obtain ⟨hadd, -, hlow⟩ := wideKern_added (show 3 < 2 ^ 19 by norm_num) file
  unfold smallKern
  generalize wideKern 3 file = k at hadd hlow ⊢
  have hnew : NewRange [] 0x10000 3 :=
    ⟨by norm_num, by norm_num, by norm_num, by unfold physLimit; norm_num, by simp⟩
  have hboot : MachineRun smallMem file (boot smallMem file) := .refl
  have hadded := hboot.tail (.addMemory hnew (fun _ ⟨_, hr, _⟩ => hr.elim) hadd)
  obtain ⟨w, h, rfl, hroots, hc⟩ : ∃ w, MachineRun smallMem file w ∧ w.kern = k ∧
      w.roots = {1} ∧ w.clients 1 = none :=
    ⟨_, hadded.tail (.arrive (smallMem_joins hlow)), rfl, insert_empty_eq 1, rfl⟩
  have hroot : rootFrame 0x1000 ∈ w.roots := by
    rw [hroots]
    decide
  refine ⟨_, h.tail (@MachineStep.petmemOpen w 1 0x1000 1 hc hroot), rfl, hroots, ?_⟩
  exact Function.update_self 1 _ w.clients

/-- With all tables present the handler asks for a page at once. -/
theorem asks_of_present (h4 : (readPte s.mem (pml4Entry env a)).present = true)
    (h3 : (readPte s.mem (pdpEntry env a s.mem)).present = true)
    (h2 : (readPte s.mem (pdEntry env a s.mem)).present = true)
    (h1 : (readPte s.mem (ptEntry env a s.mem)).present = false)
    (hd : (readPte s.mem (ptEntry env a s.mem)).dirty = false) : Asks env a s s := by
  have hpml4 : pml4Stage env a s = .ok s := by simp [pml4Stage, h4]
  have hpdp : tableStage env (pdpEntry env a s.mem) s = .ok s := by simp [tableStage, h3]
  have hpd : tableStage env (pdEntry env a s.mem) s = .ok s := by simp [tableStage, h2]
  exact .page hpml4 hpdp hpd h1 hd

/-- A process touches one of its two pages, which takes all three frames. For the other page that
page is evicted. -/
theorem frames_exclusive_of_three_frames :
    ∃ w c s s', MachineRun smallMem (eightSlots 0) w ∧ w.clients 1 = some c ∧
      RunsOut smallEnv 0x1000001000 ⟨w.kern, c.map⟩ s ∧ clearUpMemory smallEnv s = .ok s' ∧
      (∃ f i g, Installed w f i g ∧ Held w.kern g ∧ g ≠ 0 ∧
        ∀ f' i', Installed w f' i' g → f = f' ∧ i = i') ∧
      ∃ p k', petmemAllocPages 1 s'.toKern = .ok (p, k') ∧ p ≠ 0 := by
  obtain ⟨w₀, h₀, hk₀, hroots₀, hc₀⟩ := machineRun_small (eightSlots 0)
  have hres : (replayCalm smallEnv [.alloc 2 2, .fault 0x1000000000 1]
      ([], initState (smallKern (eightSlots 0)) 1)).map (fun r =>
        ((tableNode r.2.mem 1 0x1000000000 3).isSome,
          [(readPte r.2.mem (pml4Entry smallEnv 0x1000001000)).present,
            (readPte r.2.mem (pdpEntry smallEnv 0x1000001000 r.2.mem)).present,
            (readPte r.2.mem (pdEntry smallEnv 0x1000001000 r.2.mem)).present,
            (readPte r.2.mem (ptEntry smallEnv 0x1000001000 r.2.mem)).present,
            (readPte r.2.mem (ptEntry smallEnv 0x1000001000 r.2.mem)).dirty],
          checkAddressRange r.2.map.memoryAllocations 0x1000001000,
          (petmemAllocPages 1 r.2.toKern).toOption.map Prod.fst,
          (asked smallEnv 0x1000001000 r.2).all (headAbsent smallEnv),
          (clearUpMemory smallEnv r.2).toOption.isSome)) =
      some (true, [true, true, true, false, false], true, some 0, true, true) := by
    decide +kernel
  obtain ⟨⟨es, s⟩, hreplay, heq⟩ := Option.map_eq_some_iff.1 hres
  obtain ⟨hnode, heq⟩ := Prod.mk.inj heq
  obtain ⟨hflags, heq⟩ := Prod.mk.inj heq
  obtain ⟨hrange, heq⟩ := Prod.mk.inj heq
  obtain ⟨hout, heq⟩ := Prod.mk.inj heq
  obtain ⟨hhead, hclear⟩ := Prod.mk.inj heq
  simp only [List.cons.injEq, and_true] at hflags
  obtain ⟨h4, h3, h2, h1, hd⟩ := hflags
  obtain ⟨⟨p, k'⟩, halloc, rfl⟩ := Option.map_eq_some_iff.1 hout
  obtain ⟨s', hclear⟩ := Option.isSome_iff_exists.1 hclear
  -- the run of the process, as one of the machine
  have hrun := run_of_replayCalm (Q := fun s => HeadAbsent smallEnv s.mem) _ .start hreplay
  rw [← hk₀] at hrun
  obtain ⟨w, hw, hk, hroots, hc⟩ := machineRun_client h₀ hc₀ rfl hrun
  have hs : (⟨w.kern, s.map⟩ : State) = s := by rw [hk]
  have houts : RunsOut smallEnv 0x1000001000 s s :=
    ⟨hrange, asks_of_present h4 h3 h2 h1 hd, k', ok_of_toOption halloc⟩
  obtain ⟨hheld, hunique, hretry⟩ := frames_exclusive hw
  obtain ⟨g, hg⟩ := Option.isSome_iff_exists.1 hnode
  obtain ⟨f, hf, hchild⟩ := node_succ_eq_some.1 hg
  have hin : Installed w f (tableIndex 0x1000000000 2) g := by
    refine ⟨1, by rw [hroots, hroots₀]; rfl, 0x1000000000, start_mem_region, 2, by omega, ?_, rfl,
      ?_, fun h => absurd h.1 (by omega)⟩
    · rwa [hk]
    · rwa [hk]
  refine ⟨w, _, s, s', hw, hc, ?_, ok_of_toOption hclear,
    ⟨f, _, g, hin, (hheld f _ g hin).1, (hheld f _ g hin).2,
      fun f' i' hin' => hunique _ _ _ _ g hin hin'⟩, ?_⟩
  · rw [hs]
    exact houts
  · refine hretry 1 _ smallEnv 0x1000001000 s s' hc rfl ?_ ?_ (ok_of_toOption hclear)
    · rw [hs]
      exact fun t ht => (headAbsent_iff t).1 (List.all_eq_true.1 hhead _ (mem_asked ht.asks))
    · rw [hs]
      exact houts

end OnDemand

end Petmem
