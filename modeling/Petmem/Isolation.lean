import Petmem.Machine

/-!
# What one process does to the others

The pools, and the pages that are evicted to make room, are shared by all processes. `StepBy` is
`MachineStep` with the party that makes the operation, and `Unseen` says that a process has its
pages as it had them: their entries, the frames they are in and the bytes of these. Every operation
in which a process takes no part is unseen by it. Among the operations of the machine is no
`ADD_MEMORY` of a range that was added before; for that see `Handover`.
-/

namespace Petmem

open ByteMemory RadixTree Pools Swap Regions

/-- The frames on the walks of two processes are different ones. -/
theorem Owned.node_ne {k : Kern} {roots : Set ℕ} {r r' a b ℓ ℓ' f c : ℕ} (h : Owned k roots)
    (hr : r ∈ roots) (hr' : r' ∈ roots) (hne : r' ≠ r) (ha : a ∈ Region) (hb : b ∈ Region)
    (hℓ : ℓ ≤ 4) (hℓ' : ℓ' ≤ 4) (hf : tableNode k.mem r a ℓ = some f)
    (hc : tableNode k.mem r' b ℓ' = some c) : c ≠ f := by
  rintro rfl
  exact hne (h.separated r' hr' r hr b hb a ha ℓ' hℓ' ℓ hℓ c hc hf).1

namespace OnDemand

variable {env : Env} {s s' : State} {roots : Set ℕ} {Q : State → Prop} {r r' a b f g : ℕ}

/-! ## Pages that stay -/

/-- The process with the top-level table `r` has its pages in `m'` as it has them in `m`. -/
structure Unseen (r : ℕ) (m m' : Mem) : Prop where
  leaf : ∀ a ∈ Region, leaf m' r a = leaf m r a
  frames : ∀ a ∈ Region, ∀ g, tableNode m r a 4 = some g → SameFrame m m' g

namespace Unseen

variable {m m' m'' : Mem}

theorem refl (r : ℕ) (m : Mem) : Unseen r m m := ⟨fun _ _ => rfl, fun _ _ _ _ => .refl _ _⟩

/-- Where its pages are. -/
theorem node (h : Unseen r m m') (ha : a ∈ Region) :
    tableNode m' r a 4 = some g ↔ tableNode m r a 4 = some g := by
  rw [node_iff_leaf, node_iff_leaf, h.leaf a ha]

theorem trans (h : Unseen r m m') (h' : Unseen r m' m'') : Unseen r m m'' where
  leaf a ha := (h'.leaf a ha).trans (h.leaf a ha)
  frames a ha g hg := (h.frames a ha g hg).trans (h'.frames a ha g ((h.node ha).2 hg))

/-- The entries are the same where the tables are, and entries in them have not changed. -/
theorem of_sameFrames {k : Kern} (ho : Owned k roots) (hr : r ∈ roots)
    (h : ∀ a ∈ Region, ∀ ℓ ≤ 4, ∀ f, tableNode k.mem r a ℓ = some f → SameFrame k.mem m' f) :
    Unseen r k.mem m' := by
  refine ⟨fun a ha => ?_, fun a ha g hg => h a ha 4 (le_refl _) g hg⟩
  have hnode : tableNode m' r a 3 = tableNode k.mem r a 3 :=
    node_eq_of_eq (d := 3) (fun ℓ hℓ f hf =>
      Owned.child_of_sameFrame (h a ha ℓ (by omega) f hf) (ho.lt_limit hr ha (by omega) hf)
        (tableIndex_lt _ _)) (le_refl _)
  refine leaf_eq_of_pteAt hnode fun f hf => ?_
  rw [(h a ha 3 (by omega) f hf).pteAt (ho.lt_limit hr ha (by omega) hf) (tableIndex_lt _ _)]

end Unseen

/-! ## What the others' operations do -/

theorem Evicted.unseen {v slot : ℕ} (h : Evicted roots r s s' v f g slot) (hr' : r' ∈ roots)
    (hne : r' ≠ r) : Unseen r' s.mem s'.mem := by
  refine ⟨fun a ha => h.leaf_other hr' ha fun hc => hne hc.1, fun a ha c hc => ?_⟩
  have hcg := h.before.node_ne h.root hr' hne h.region ha (le_refl _) (le_refl _) h.page hc
  refine h.frames c (h.kept (h.before.kept hr' ha (le_refl _) hc) hcg) ?_
  rintro ⟨b, hb, hleaf⟩
  exact h.before.node_ne h.root hr' hne hb ha (show 3 ≤ 4 by omega) (le_refl _) hleaf hc rfl

theorem Grown.unseen {ℓ : ℕ} {src : ℕ → Byte} {e : Pte64} (h : Grown roots r a ℓ src s s' f g e)
    (hr' : r' ∈ roots) (hne : r' ≠ r) : Unseen r' s.mem s'.mem := by
  refine ⟨fun b hb => h.leaf_other hr' hb fun hc => hne hc.1, fun b hb c hc => ?_⟩
  have hd := h.depth
  exact h.frames c (h.before.kept hr' hb (le_refl _) hc)
    (h.before.node_ne h.root hr' hne h.region hb (show ℓ ≤ 4 by omega) (le_refl _) h.table hc)

theorem Eased.unseen (h : Eased env roots Q s s') (hr' : r' ∈ roots)
    (hne : r' ≠ rootFrame env.cr3) : Unseen r' s.mem s'.mem := by
  rcases h with rfl | ⟨-, -, v, f, g, slot, hev⟩
  · exact .refl _ _
  · exact hev.unseen hr' hne

theorem Pages.unseen (h : Pages env roots Q a s s') (hr' : r' ∈ roots)
    (hne : r' ≠ rootFrame env.cr3) : Unseen r' s.mem s'.mem :=
  h.induct (P := fun s' => Unseen r' s.mem s'.mem) (.refl _ _)
    (fun _ _ _ _ _ _ h1 _ he => h1.trans (he.unseen hr' hne))
    fun _ _ _ _ _ _ h1 _ hg _ => h1.trans (hg.unseen hr' hne)

theorem Faulted.unseen (h : Faulted env roots Q a s s') (hr' : r' ∈ roots)
    (hne : r' ≠ rootFrame env.cr3) : Unseen r' s.mem s'.mem := by
  cases h with
  | resident hp _ => exact hp.unseen hr' hne
  | fresh hp _ hg => exact (hp.unseen hr' hne).trans (hg.unseen hr' hne)
  | swapIn hp _ _ _ _ he _ hg =>
    have h1 := (hp.unseen hr' hne).trans (he.unseen hr' hne)
    exact h1.trans (hg.unseen hr' hne)

theorem Accessed.unseen {w : Bool} (h : Accessed roots r a w s s' f g) (hr' : r' ∈ roots)
    (hne : r' ≠ r) : Unseen r' s.mem s'.mem :=
  ⟨fun _ hb => h.leaf_other hr' hb fun hc => hne hc.1, fun _ hb _ hc => h.frames hr' hb hc⟩

theorem Written.unseen {byte : Byte} (h : Written roots r a byte s s' g) (hr' : r' ∈ roots)
    (hne : r' ≠ r) : Unseen r' s.mem s'.mem := by
  refine ⟨fun b hb => h.leaf_eq hr' hb, fun b hb c hc => ?_⟩
  refine h.set.frames c (h.before.lt_limit hr' hb (le_refl _) hc) ?_
  exact h.before.node_ne h.root hr' hne h.region hb (le_refl _) (le_refl _) h.page hc

theorem Pruned.unseen {k : Kern} {m' : Mem} (h : Pruned roots r k m') (hr' : r' ∈ roots)
    (hne : r' ≠ r) : Unseen r' k.mem m' := by
  refine ⟨h.others r' hr' hne, fun b hb c hc => ?_⟩
  have hc' : tableNode m' r' b 4 = some c := by
    rwa [node_iff_leaf, h.others r' hr' hne b hb, ← node_iff_leaf]
  exact (h.frames r' hr' b hb c hc').2

/-- One operation of another process. -/
theorem StepCase.unseen {ev : Event} (h : StepCase env roots Q s ev s') (hr' : r' ∈ roots)
    (hne : r' ≠ rootFrame env.cr3) : Unseen r' s.mem s'.mem := by
  have hfault : ∀ {a : ℕ} {s₁ : State}, (s₁ = s ∨
      (checkAddressRange s.map.memoryAllocations a = true ∧ Faulted env roots Q a s s₁)) →
      Unseen r' s.mem s₁.mem := by
    rintro a s₁ (rfl | ⟨-, hft⟩)
    · exact .refl _ _
    · exact hft.unseen hr' hne
  cases h with
  | alloc _ => exact .refl _ _
  | freeNone _ => exact .refl _ _
  | free hrel => exact hrel.pruned.unseen hr' hne
  | refused => exact .refl _ _
  | fault _ _ hft => exact hft.unseen hr' hne
  | read _ hcase hacc _ => exact (hfault hcase).trans (hacc.unseen hr' hne)
  | write _ hcase hacc hw =>
    exact ((hfault hcase).trans (hacc.unseen hr' hne)).trans (hw.unseen hr' hne)

/-- The end of another process. -/
theorem petmemDeinitProcess_unseen {cr3 : ℕ} {k' : Kern} (hr : rootFrame cr3 ∈ roots)
    (hl : Partition s.map.memoryAllocations) (h : Owned s.toKern roots)
    (hrun : petmemDeinitProcess cr3 s = .ok k') (hr' : r' ∈ roots) (hne : r' ≠ rootFrame cr3) :
    Unseen r' s.mem k'.mem := by
  obtain ⟨m', hrun', -, hun⟩ := deinitRegions_spec (P := fun k => Unseen r' s.mem k.mem) hr
    (fun {k k' A is} hA ho hu hfree => by
      obtain ⟨m', hrun', hp, -⟩ := freeRange_spec hr hA is ho
      obtain rfl := Except.ok.inj (hfree.symm.trans hrun')
      exact hu.trans (hp.unseen hr' hne)) s.map.memoryAllocations
    (fun reg hreg => starts_subset hl ⟨reg, hreg, rfl⟩) h (.refl _ _)
  obtain rfl := Except.ok.inj (hrun.symm.trans hrun')
  exact hun

/-! ## Parties -/

/-- Who makes an operation: the administrator, who adds ranges, the rest of the kernel, or the
process with the top-level table `r`. -/
inductive Party
  | admin
  | kernel
  | process (r : ℕ)

/-- One operation, and the party that makes it. -/
inductive StepBy (w : Machine) : Party → Machine → Prop
  | addMemory {base n : ℕ} {k' : Kern} : NewRange w.ranges base n →
      (∀ f, InTables w.kern w.roots f → ¬ InRange base n (f * 4096)) →
      addMemory base n w.kern = .ok k' →
      StepBy w .admin { w.update k' with ranges := (base, n) :: w.ranges }
  | kernel {m' : Mem} : Untouched w.roots w.kern m' →
      StepBy w .kernel (w.update { w.kern with mem := m' })
  | arrive {r : ℕ} : Joins w.kern w.roots r →
      StepBy w (.process r) { w with
        roots := insert r w.roots
        own := Function.update w.own r (child w.kern.mem r 0) }
  | leave {r : ℕ} : (∀ pid c, w.clients pid = some c → rootFrame c.cr3 ≠ r) →
      StepBy w (.process r) { w with roots := w.roots \ {r} }
  | petmemOpen {pid cr3 node : ℕ} : w.clients pid = none → rootFrame cr3 ∈ w.roots →
      StepBy w (.process (rootFrame cr3)) { w with
        clients := Function.update w.clients pid (some ⟨cr3, petmemInitProcess node w.kern.file⟩) }
  | perform {pid : ℕ} {c : Client} {env : Env} {ev : Event} {s' : State} :
      w.clients pid = some c → env.cr3 = c.cr3 →
      AtEvictions env (fun s => HeadAbsent env s.mem) [] ⟨w.kern, c.map⟩ ev →
      Step env ⟨w.kern, c.map⟩ ev s' →
      StepBy w (.process (rootFrame c.cr3)) { w.update s'.toKern with
        clients := Function.update w.clients pid (some ⟨c.cr3, s'.map⟩) }
  | petmemRelease {pid : ℕ} {c : Client} {k' : Kern} : w.clients pid = some c →
      petmemDeinitProcess c.cr3 ⟨w.kern, c.map⟩ = .ok k' →
      StepBy w (.process (rootFrame c.cr3)) { w.update k' with
        clients := Function.update w.clients pid none }

variable {w w' : Machine} {who : Party}

theorem StepBy.step (h : StepBy w who w') : MachineStep w w' := by
  cases h with
  | addMemory hnew htables hrun => exact .addMemory hnew htables hrun
  | kernel hm => exact .kernel hm
  | arrive hj => exact .arrive hj
  | leave hnone => exact .leave hnone
  | petmemOpen hpid hroot => exact .petmemOpen hpid hroot
  | perform hc henv hok hrun => exact .perform hc henv hok hrun
  | petmemRelease hc hrun => exact .petmemRelease hc hrun

theorem MachineStep.exists_party (h : MachineStep w w') : ∃ who, StepBy w who w' := by
  cases h with
  | addMemory hnew htables hrun => exact ⟨_, .addMemory hnew htables hrun⟩
  | kernel hm => exact ⟨_, .kernel hm⟩
  | arrive hj => exact ⟨_, .arrive hj⟩
  | leave hnone => exact ⟨_, .leave hnone⟩
  | petmemOpen hpid hroot => exact ⟨_, .petmemOpen hpid hroot⟩
  | perform hc henv hok hrun => exact ⟨_, .perform hc henv hok hrun⟩
  | petmemRelease hc hrun => exact ⟨_, .petmemRelease hc hrun⟩

/-! ## Operations without the process -/

/-- When a range is added, the tables and pages of all processes keep their bytes. -/
theorem MachineInv.sameFrame_of_addMemory {base n : ℕ} {k' : Kern} (h : MachineInv w)
    (hnew : NewRange w.ranges base n)
    (htables : ∀ f, InTables w.kern w.roots f → ¬ InRange base n (f * 4096))
    (hrun : Pools.addMemory base n w.kern = .ok k') (hr : r ∈ w.roots) (ha : a ∈ Region) {ℓ : ℕ}
    (hℓ : ℓ ≤ 4) (hf : tableNode w.kern.mem r a ℓ = some f) : SameFrame w.kern.mem k'.mem f := by
  obtain ⟨k₁, hrun₁, hadd⟩ := addMemory_added h.owned.pools h.within hnew
  obtain rfl := Except.ok.inj (hrun.symm.trans hrun₁)
  have hlt := h.owned.lt_limit hr ha hℓ hf
  have hout : ¬ InRange base n (f * 4096) := by
    rcases Nat.lt_or_ge 3 ℓ with h4 | h3
    · -- a page lies in the ranges that were added before
      have hheld := h.owned.held r hr a ha ℓ (by omega) hℓ f hf
      obtain ⟨rg, hrg, hin⟩ := h.within _ (h.owned.pools.out _ hheld).2
      have := hnew.disjoint rg hrg
      unfold InRange at hin ⊢
      omega
    · exact htables f ⟨r, hr, a, .inl ha, ℓ, h3, hf⟩
  intro i hi
  refine hadd.mem _ fun hin => hout ?_
  rw [frameVa_eq hlt hi] at hin
  unfold InRange at hin ⊢
  have := hnew.dvd
  omega

/-- What the rest of the kernel writes is unseen. -/
theorem MachineInv.kernel_unseen {m' : Mem} (h : MachineInv w) (hm : Untouched w.roots w.kern m')
    (hr : r ∈ w.roots) : Unseen r w.kern.mem m' := by
  have hheld : ∀ {f : ℕ}, Held w.kern f → SameFrame w.kern.mem m' f := by
    intro f hf i hi
    by_contra hne
    obtain ⟨c, hc, j, hj, heq⟩ := hm.pools _ hne
    obtain ⟨rfl, -⟩ := frameVa_inj (h.owned.pools.held_lt hf) hi hc.1 hj heq
    exact h.owned.pools.not_foreign_of_held hf hc
  refine ⟨fun a ha => leaf_eq_of_pteAt ?_ fun f hf => ?_, fun a ha g hg => ?_⟩
  · exact node_eq_of_eq (d := 4) (hm.tables r hr a (.inl ha)) (by omega)
  · have hf' := h.owned.held r hr a ha 3 (by omega) (by omega) f hf
    rw [(hheld hf').pteAt (h.owned.pools.held_lt hf') (tableIndex_lt _ _)]
  · exact hheld (h.owned.held r hr a ha 4 (by omega) (le_refl _) g hg)

/-- The process with the top-level table `r` is there, with its pages and its maps. -/
structure Undisturbed (r : ℕ) (w w' : Machine) : Prop where
  root : r ∈ w'.roots
  pages : Unseen r w.kern.mem w'.kern.mem
  maps : ∀ pid c, w.clients pid = some c → rootFrame c.cr3 = r → w'.clients pid = some c

/-- One operation of another party. -/
theorem StepBy.undisturbed (h : MachineInv w) (hstep : StepBy w who w') (hne : who ≠ .process r)
    (hr : r ∈ w.roots) : Undisturbed r w w' := by
  -- a client that acts has another top-level table
  have hmaps : ∀ {pid c₀} (new : Option Client), w.clients pid = some c₀ →
      rootFrame c₀.cr3 ≠ r → ∀ p c, w.clients p = some c → rootFrame c.cr3 = r →
      Function.update w.clients pid new p = some c := by
    intro pid c₀ new hc₀ hne p c hc hcr
    have hp : p ≠ pid := by
      rintro rfl
      obtain rfl := Option.some.inj (hc.symm.trans hc₀)
      exact hne hcr
    rw [Function.update_of_ne hp, hc]
  cases hstep with
  | addMemory hnew htables hrun =>
    exact ⟨hr, .of_sameFrames h.owned hr fun a ha ℓ hℓ f hf =>
      h.sameFrame_of_addMemory hnew htables hrun hr ha hℓ hf, fun _ _ hc _ => hc⟩
  | kernel hm => exact ⟨hr, h.kernel_unseen hm hr, fun _ _ hc _ => hc⟩
  | arrive _ => exact ⟨.inr hr, .refl _ _, fun _ _ hc _ => hc⟩
  | @leave r' _ =>
    have hrr : r ≠ r' := by
      rintro rfl
      exact hne rfl
    exact ⟨⟨hr, hrr⟩, .refl _ _, fun _ _ hc _ => hc⟩
  | @petmemOpen pid cr3 node hpid _ =>
    refine ⟨hr, .refl _ _, fun p c hc _ => ?_⟩
    have hp : p ≠ pid := by
      rintro rfl
      cases hc.symm.trans hpid
    exact (Function.update_of_ne hp _ _).trans hc
  | @perform pid c env ev s' hc henv hok hrun =>
    have hcr : rootFrame c.cr3 ≠ r := fun heq => hne (congrArg Party.process heq)
    have hready := h.ready hc henv (Q := fun s => HeadAbsent env s.mem) fun _ hq => hq
    refine ⟨hr, (step_cases hready hok hrun).unseen hr ?_, hmaps _ hc hcr⟩
    rw [henv]
    exact hcr.symm
  | @petmemRelease pid c k' hc hrun =>
    have hcr : rootFrame c.cr3 ≠ r := fun heq => hne (congrArg Party.process heq)
    exact ⟨hr, petmemDeinitProcess_unseen (h.root pid c hc) (h.list pid c hc) h.owned hrun hr
      hcr.symm, hmaps _ hc hcr⟩

end OnDemand

end Petmem
