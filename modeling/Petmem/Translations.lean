import Petmem.Residency

/-!
# What a page fault leaves the hardware with

The hardware follows an entry only when it is present, writable (for a write) and open to the user.
The handler sets these flags on the entries it installs at levels 3, 2 and 1; `Flagged` says that
all present entries on these levels have them, and is kept by evictions, faults, accesses and frees.
At level 4 `handle_table_memory` sets the present bit alone: the flags are what they were, and the
translation is of use to the process exactly when they were set.
-/

namespace Petmem
namespace OnDemand

open ByteMemory RadixTree Pools Swap Regions Pte64

variable {env : Env} {s s' : State} {roots : Set ℕ} {Q : State → Prop} {r a b f g v ℓ slot : ℕ}
  {m m' : Mem} {e : Pte64} {src : ℕ → Byte}

/-! ## Flags -/

/-- The process may read and write through the entry. -/
def Open (e : Pte64) : Prop := e.writable = true ∧ e.userPage = true

instance (e : Pte64) : Decidable (Open e) := inferInstanceAs (Decidable (_ ∧ _))

/-- The present entries below the top level, on the paths of the petmem addresses, are open. -/
def Flagged (m : Mem) (r : ℕ) : Prop :=
  ∀ a ∈ Region, ∀ ℓ, 1 ≤ ℓ → ℓ ≤ 3 → ∀ f, tableNode m r a ℓ = some f →
    (pteAt m f (tableIndex a ℓ)).present = true → Open (pteAt m f (tableIndex a ℓ))

theorem open_of_mask {e e' : Pte64} (h : e.mask = e'.mask) : Open e ↔ Open e' := by
  have hw : e.mask.writable = e'.mask.writable := by rw [h]
  have hu : e.mask.userPage = e'.mask.userPage := by rw [h]
  exact and_congr (iff_of_eq (congrArg (· = true) hw)) (iff_of_eq (congrArg (· = true) hu))

/-- Where nothing is mapped below the level-3 table there is nothing to check. -/
theorem flagged_of_unmapped (h : ∀ a ∈ Region, tableNode m r a 2 = none) : Flagged m r := by
  intro a ha ℓ h1 h3 f hf hp
  by_cases hℓ : ℓ = 1
  · subst hℓ
    have hnone := h a ha
    rw [show tableNode m r a 2 = child m f (tableIndex a 1) from node_succ_of_eq hf,
      child_eq_none, hp] at hnone
    cases hnone
  · rw [show tableNode m r a ℓ = none from node_eq_none_of_le (h a ha) (by omega)] at hf
    cases hf

/-! ## Evictions and new frames -/

/-- The entry of the level-4 table that all petmem addresses share. -/
def topEntry (m : Mem) (r : ℕ) : Pte64 := pteAt m r 0

theorem Evicted.pteAt_table (h : Evicted roots r s s' v f g slot) (ha : a ∈ Region)
    (hℓ : ℓ ≤ 3) {c : ℕ} (hc : tableNode s.mem r a ℓ = some c) {i : ℕ} (hi : i < 512)
    (hne : ¬ (c = f ∧ i = tableIndex v 3)) :
    (pteAt s'.mem c i).mask = (pteAt s.mem c i).mask := by
  have hcg : c ≠ g := by
    rintro rfl
    exact h.before.table_ne_page h.root (.inl ha) hℓ hc h.root h.region h.page
  exact h.others c i (h.kept (h.before.kept h.root ha (by omega) hc) hcg) hi hne

theorem Evicted.flagged (h : Evicted roots r s s' v f g slot) (hf : Flagged s.mem r) :
    Flagged s'.mem r := by
  intro a ha ℓ h1 h3 c hc hp
  rw [h.node_table h.root ha h3] at hc
  by_cases hcase : c = f ∧ tableIndex a ℓ = tableIndex v 3
  · -- the entry of the victim is no longer present
    rw [hcase.1, hcase.2] at hp
    have hgone : (pteAt s'.mem f (tableIndex v 3)).mask.present = false := by
      rw [h.entry]
      rfl
    exact absurd (hgone.symm.trans hp) (by simp)
  · have hmask := h.pteAt_table ha h3 hc (tableIndex_lt a ℓ) hcase
    rw [open_of_mask hmask]
    exact hf a ha ℓ h1 h3 c hc ((present_of_mask hmask).symm.trans hp)

theorem Evicted.top (h : Evicted roots r s s' v f g slot) :
    Open (topEntry s'.mem r) ↔ Open (topEntry s.mem r) := by
  refine open_of_mask (h.pteAt_table start_mem_region (show 0 ≤ 3 by omega) rfl (by omega) ?_)
  -- the entry that changes is one of the last table, and the top level is not that table
  rintro ⟨rfl, -⟩
  have := (h.before.separated r h.root r h.root petmemRegionStart start_mem_region v h.region 0
    (by omega) 3 (by omega) r rfl h.table).2.1
  omega

theorem Grown.flagged (h : Grown roots r a ℓ src s s' f g e) (he : ℓ ≠ 0 → Open e)
    (hf : Flagged s.mem r) : Flagged s'.mem r := by
  intro b hb ℓ' h1 h3 c hc hp
  rcases h.node_cases h.root hb (show ℓ' ≤ 4 by omega) with ⟨hn, -⟩ | ⟨hn, -, hℓ', -⟩
  · rw [hn] at hc
    by_cases hcase : c = f ∧ tableIndex b ℓ' = tableIndex a ℓ
    · -- the new entry itself
      obtain ⟨rfl, hidx⟩ := hcase
      have hd := h.depth
      have hℓ : ℓ' = ℓ := (h.before.separated r h.root r h.root b hb a h.region ℓ' (by omega) ℓ
        (by omega) c hc h.table).2.1
      rw [hidx, h.entry]
      exact he (by omega)
    · rw [h.others c _ (h.before.kept h.root hb (by omega) hc) (tableIndex_lt b ℓ') hcase] at hp ⊢
      exact hf b hb ℓ' h1 h3 c hc hp
  · -- a new table is empty
    obtain rfl := Option.some.inj (hn.symm.trans hc)
    rw [h.pteAt_new (by omega) (tableIndex_lt b ℓ')] at hp
    cases hp

theorem Grown.top (h : Grown roots r a ℓ src s s' f g e)
    (he : ℓ = 0 → e = tableEntry (pteAt s.mem f (tableIndex a ℓ)) g) :
    Open (topEntry s'.mem r) ↔ Open (topEntry s.mem r) := by
  have hroot := h.before.kept h.root h.region (show 0 ≤ 4 by omega) rfl
  by_cases hℓ : ℓ = 0
  -- a new level-3 table: `handle_table_memory` alone leaves the flags of the entry as they are
  · subst hℓ
    have h0 := region_index_zero h.region
    obtain rfl : r = f := Option.some.inj h.table
    have hentry := h.entry
    rw [he rfl, h0] at hentry
    unfold topEntry
    rw [hentry]
    exact Iff.rfl
  · unfold topEntry
    rw [h.others r 0 hroot (by omega)]
    rintro ⟨rfl, -⟩
    have hd := h.depth
    have := (h.before.separated r h.root r h.root a h.region a h.region 0 (by omega) ℓ (by omega) r
      rfl h.table).2.1
    omega

/-! ## Page faults -/

theorem Pages.flagged (h : Pages env roots Q a s s') (hf : Flagged s.mem (rootFrame env.cr3)) :
    Flagged s'.mem (rootFrame env.cr3) := by
  refine h.induct (P := fun s => Flagged s.mem (rootFrame env.cr3)) hf
    (fun s₁ s₂ v f g slot h1 _ he => he.flagged h1) fun s₁ s₂ ℓ f g e h1 _ hg he => ?_
  refine hg.flagged (fun hℓ => ?_) h1
  rw [he, if_neg hℓ]
  exact ⟨rfl, rfl⟩

theorem Pages.top (h : Pages env roots Q a s s') :
    Open (topEntry s'.mem (rootFrame env.cr3)) ↔ Open (topEntry s.mem (rootFrame env.cr3)) := by
  refine h.induct (P := fun s' => Open (topEntry s'.mem (rootFrame env.cr3)) ↔
      Open (topEntry s.mem (rootFrame env.cr3))) Iff.rfl
    (fun s₁ s₂ v f g slot h1 _ he => he.top.trans h1) fun s₁ s₂ ℓ f g e h1 _ hg he => ?_
  refine (hg.top fun hℓ => ?_).trans h1
  rw [he, if_pos hℓ]

theorem Eased.flagged (h : Eased env roots Q s s')
    (hf : Flagged s.mem (rootFrame env.cr3)) : Flagged s'.mem (rootFrame env.cr3) :=
  (Pages.of_eased (a := petmemRegionStart) h).flagged hf

theorem Eased.top (h : Eased env roots Q s s') :
    Open (topEntry s'.mem (rootFrame env.cr3)) ↔ Open (topEntry s.mem (rootFrame env.cr3)) :=
  (Pages.of_eased (a := petmemRegionStart) h).top

/-- An accepted fault keeps the flags, those of the level-4 entry included, and maps the page. -/
theorem Faulted.flagged (h : Faulted env roots Q a s s')
    (hf : Flagged s.mem (rootFrame env.cr3)) :
    Flagged s'.mem (rootFrame env.cr3) ∧
      (Open (topEntry s'.mem (rootFrame env.cr3)) ↔ Open (topEntry s.mem (rootFrame env.cr3))) ∧
      ∃ g, tableNode s'.mem (rootFrame env.cr3) a 4 = some g := by
  cases h with
  | resident hp hn => exact ⟨hp.flagged hf, hp.top, _, hn⟩
  | fresh hp _ hg =>
    exact ⟨hg.flagged (fun _ => ⟨rfl, rfl⟩) (hp.flagged hf),
      (hg.top fun h => absurd h (by omega)).trans hp.top, _, hg.node_slot⟩
  | @swapIn s₁ s₂ _ _ _ page swap hp _ _ _ _ he _ hg =>
    have hf₁ : Flagged ({ s₁ with map := { s₁.map with swap } } : State).mem
      (rootFrame env.cr3) := hp.flagged hf
    exact ⟨hg.flagged (fun _ => ⟨rfl, rfl⟩) (he.flagged hf₁),
      (hg.top fun h => absurd h (by omega)).trans (he.top.trans hp.top), _,
      hg.node_slot⟩

/-! ## Accesses and frees -/

theorem Accessed.flagged {w : Bool} (h : Accessed roots r a w s s' f g) (hf : Flagged s.mem r) :
    Flagged s'.mem r := by
  intro b hb ℓ h1 h3 c hc hp
  rw [h.owned_nodes.2 r h.root b (.inl hb) ℓ (by omega)] at hc
  by_cases hcase : c = f ∧ tableIndex b ℓ = tableIndex a 3
  · obtain ⟨rfl, hidx⟩ := hcase
    rw [hidx, h.set.entry] at hp ⊢
    have hold := hf a h.region 3 (by omega) (le_refl _) c h.table hp
    exact hold
  · rw [h.set.others c _ (h.before.lt_limit h.root hb (by omega) hc) (tableIndex_lt b ℓ) hcase]
      at hp ⊢
    exact hf b hb ℓ h1 h3 c hc hp

theorem Written.flagged {byte : Byte} (h : Written roots r a byte s s' g)
    (hf : Flagged s.mem r) : Flagged s'.mem r := by
  intro b hb ℓ h1 h3 c hc hp
  rw [h.owned_nodes.2 r h.root b (.inl hb) ℓ (by omega)] at hc
  have hlt := h.before.lt_limit h.root hb (show ℓ ≤ 4 by omega) hc
  rw [(h.set.frames c hlt (h.ne_page h.root hb h3 hc)).pteAt hlt (tableIndex_lt b ℓ)] at hp ⊢
  exact hf b hb ℓ h1 h3 c hc hp

/-- An entry that is present after `prune` was not touched. -/
theorem pteAt_prune {l : List (ℕ × ℕ)} (hl : ∀ p ∈ l, p.1 < frameLimit ∧ p.2 < 512) {c i : ℕ}
    (hc : c < frameLimit) (hi : i < 512) : ∀ {m : Mem}, (pteAt (prune l m) c i).present = true →
    pteAt (prune l m) c i = pteAt m c i := by
  induction l with
  | nil => exact fun _ => rfl
  | cons p rest ih =>
    intro m hp
    obtain ⟨f, j⟩ := p
    obtain ⟨hf, hj⟩ := hl (f, j) (by simp)
    obtain ⟨m₁, hset, hcase⟩ := prune_cons m rest hf hj
    -- clearing makes no entry present
    have hfirst : (pteAt m₁ c i).present = true → pteAt m₁ c i = pteAt m c i := by
      intro hp₁
      by_cases heq : c = f ∧ i = j
      · obtain ⟨rfl, rfl⟩ := heq
        rw [hset.entry] at hp₁
        cases hp₁
      · exact hset.others c i hc hi heq
    rcases hcase with ⟨heq, -⟩ | ⟨heq, -⟩
    · rw [heq] at hp ⊢
      exact hfirst hp
    · rw [heq] at hp ⊢
      have hrest := ih (fun q hq => hl q (by simp [hq])) hp
      rw [hrest] at hp ⊢
      exact hfirst hp

theorem mem_eq_of_ok {k : Kern} {x : Except Stop Kern} (h : x = .ok { k with mem := m })
    (h' : x = .ok { k with mem := m' }) : m = m' := by
  have heq := Except.ok.inj (h.symm.trans h')
  injection heq

/-- An entry that is present after a page was freed was not touched. -/
theorem attemptFree_entries {cr3 : ℕ} {k : Kern} (h : Owned k roots) (hr : rootFrame cr3 ∈ roots)
    (ha : a ∈ Region ∪ Side)
    (hrun : attemptFreePhysicalAddress cr3 a k = .ok { k with mem := m' }) {c i : ℕ}
    (hc : c < frameLimit) (hi : i < 512) (hp : (pteAt m' c i).present = true) :
    pteAt m' c i = pteAt k.mem c i := by
  rcases attemptFree_cases h hr ha with ⟨-, hsame⟩ | ⟨f₁, f₂, f₃, g, t1, t2, t3, -, hpr⟩
  · rw [mem_eq_of_ok hrun hsame]
  · rw [mem_eq_of_ok hrun hpr] at hp ⊢
    refine pteAt_prune (fun p hmem => ?_) hc hi hp
    have hlt : ∀ ℓ ≤ 3, ∀ f, tableNode k.mem (rootFrame cr3) a ℓ = some f → f < frameLimit :=
      fun ℓ hℓ f hf => h.pools.kept_lt (h.table_kept hr ha hℓ hf)
    simp only [slotsOf, List.mem_cons, List.not_mem_nil, or_false] at hmem
    rcases hmem with rfl | rfl | rfl | rfl
    · exact ⟨hlt 3 (by omega) _ t3, tableIndex_lt _ _⟩
    · exact ⟨hlt 2 (by omega) _ t2, tableIndex_lt _ _⟩
    · exact ⟨hlt 1 (by omega) _ t1, tableIndex_lt _ _⟩
    · exact ⟨hlt 0 (by omega) _ rfl, tableIndex_lt _ _⟩

/-- Freeing pages leaves entries present only as they were. -/
theorem freeRange_entries {cr3 A : ℕ} (hr : rootFrame cr3 ∈ roots) (hA : A ∈ Region)
    (is : List ℕ) : ∀ {k k' : Kern}, Owned k roots → freeRange cr3 A is k = .ok k' →
      ∀ c < frameLimit, ∀ i < 512, (pteAt k'.mem c i).present = true →
        pteAt k'.mem c i = pteAt k.mem c i := by
  induction is with
  | nil =>
    intro k k' _ hrun c _ i _ _
    exact congrArg (fun k => pteAt k.mem c i) (Except.ok.inj hrun).symm
  | cons j rest ih =>
    intro k k' h hrun c hc i hi hp
    rw [freeRange] at hrun
    obtain ⟨k₁, h1, hrun⟩ := bind_eq_ok.1 hrun
    obtain ⟨m₁, hrun₁, hp₁, -⟩ := attemptFree_spec h hr (pageOf_mem hA j)
    obtain rfl := Except.ok.inj (h1.symm.trans hrun₁)
    have hrest := ih hp₁.owned hrun c hc i hi hp
    rw [hrest] at hp ⊢
    exact attemptFree_entries h hr (pageOf_mem hA j) hrun₁ hc hi hp

/-- A node that is there after pages were freed was there before. -/
theorem tableNode_of_pruned {k k' : Kern} (hk : Owned k' roots) (hr : r ∈ roots) (ha : a ∈ Region)
    (hent : ∀ c < frameLimit, ∀ i < 512, (pteAt k'.mem c i).present = true →
      pteAt k'.mem c i = pteAt k.mem c i) :
    ∀ {ℓ f : ℕ}, ℓ ≤ 4 → tableNode k'.mem r a ℓ = some f → tableNode k.mem r a ℓ = some f := by
  intro ℓ
  induction ℓ with
  | zero => exact fun _ hf => hf
  | succ n ih =>
    intro f hn hf
    -- the walk up to the last step was there before, and so was its last entry
    obtain ⟨c, hc⟩ := exists_node_of_le hf (show n ≤ n + 1 by omega)
    have hchild := (node_succ_of_eq hc).symm.trans hf
    have hold := ih (by omega) hc
    have hsame := hent c (hk.lt_limit hr ha (by omega) hc) _ (tableIndex_lt a n)
      (child_eq_some.1 hchild).1
    refine (node_succ_of_eq hold).trans (child_eq_some.2 ?_)
    rw [← hsame]
    exact child_eq_some.1 hchild

theorem petmemFreeVspace_flagged {vaddr : ℕ} (h : Ready env roots Q s)
    (hrun : petmemFreeVspace env vaddr s = .ok s') (hf : Flagged s.mem (rootFrame env.cr3)) :
    Flagged s'.mem (rootFrame env.cr3) := by
  rcases petmemFreeVspace_cases hrun with ⟨rfl, -⟩ | ⟨p, k, l', hp, hfree, -, rfl⟩
  · exact hf
  · have hstart : p.found.pageAddr ∈ Region := starts_subset h.list ⟨p.found, hp.mem, rfl⟩
    obtain ⟨m', hrun', hpr, -⟩ := freeRange_spec h.root hstart (List.range p.found.size) h.owned
    have hent := freeRange_entries h.root hstart (List.range p.found.size) h.owned hfree
    obtain rfl := Except.ok.inj (hfree.symm.trans hrun')
    intro a ha ℓ h1 h3 f hn hpres
    have hold := tableNode_of_pruned hpr.owned h.root ha hent (show ℓ ≤ 4 by omega) hn
    have hsame := hent f (hpr.owned.lt_limit h.root ha (show ℓ ≤ 4 by omega) hn) _
      (tableIndex_lt a ℓ) hpres
    have hpres' : (pteAt s.mem f (tableIndex a ℓ)).present = true := by
      rw [← hsame]
      exact hpres
    have hopen := hf a ha ℓ h1 h3 f hold hpres'
    rw [← hsame] at hopen
    exact hopen

/-! ## Runs -/

variable {k : Kern} {node : ℕ} {es : List Event}

/-- Along a run all present entries below the top level are open. -/
theorem run_flagged {ok : List Event → State → Event → Prop} (hs : Start env roots k)
    (hflags : Flagged k.mem (rootFrame env.cr3)) (hhead : ∀ s, Q s → HeadAbsent env s.mem)
    (hok : ∀ es s ev, ok es s ev → AtEvictions env Q es s ev)
    (h : Run env ok (initState k node) es s) :
    Ready env roots Q s ∧ Flagged s.mem (rootFrame env.cr3) := by
  refine h.induct (P := fun _ s => Ready env roots Q s ∧ Flagged s.mem (rootFrame env.cr3))
    ⟨⟨hs.owned, hs.root, partition_initRegions node, hhead⟩, hflags⟩
    fun es s ev s' ⟨hr, hf⟩ hk hstep => ?_
  have hcase := step_cases hr (hok es s ev hk) hstep
  refine ⟨hcase.ready hr, ?_⟩
  -- an access may enter the handler first
  have hfault : ∀ {a : ℕ} {s₁ : State}, (s₁ = s ∨
      (checkAddressRange s.map.memoryAllocations a = true ∧ Faulted env roots Q a s s₁)) →
      Flagged s₁.mem (rootFrame env.cr3) := by
    rintro a s₁ (rfl | ⟨-, hft⟩)
    · exact hf
    · exact (hft.flagged hf).1
  cases hcase with
  | alloc => exact hf
  | freeNone => exact hf
  | free =>
    cases hstep with
    | free hrun => exact petmemFreeVspace_flagged hr hrun hf
  | refused => exact hf
  | fault _ _ hft => exact (hft.flagged hf).1
  | read _ hcase hacc _ => exact hacc.flagged (hfault hcase)
  | write _ hcase hacc hw => exact hw.flagged (hacc.flagged (hfault hcase))

/-! ## The translation after a fault -/

/-- The four entries an access to `a` goes through are present, writable and open to the user. -/
def Usable (m : Mem) (cr3 a : ℕ) : Prop :=
  ∃ w, walk m cr3 a = some w ∧ ∀ x ∈ [w.pml4e, w.pdpe, w.pde, w.pte],
    (readPte m x).present = true ∧ Open (readPte m x)

/-- Where a page is mapped by open entries below the top level, the top level decides. -/
theorem usable_iff {cr3 : ℕ} (ha : a ∈ Region) (hf : Flagged m (rootFrame cr3))
    (hg : tableNode m (rootFrame cr3) a 4 = some g) :
    Usable m cr3 a ↔ Open (topEntry m (rootFrame cr3)) := by
  have h0 := region_index_zero ha
  obtain ⟨f₁, f₂, f₃, h1, h2, h3⟩ := exists_tables hg
  have hwalk := walk_of_node h0 h1 h2 h3 hg
  have htop : topEntry m (rootFrame cr3)
      = readPte m (frameVa (rootFrame cr3) (tableIndex a 0 * 8)) := by
    rw [h0]
    rfl
  -- the walk goes through present entries
  have hpres : ∀ {ℓ c d : ℕ}, tableNode m (rootFrame cr3) a ℓ = some c →
      tableNode m (rootFrame cr3) a (ℓ + 1) = some d →
      (pteAt m c (tableIndex a ℓ)).present = true := fun hc hd =>
    (child_eq_some.1 ((node_succ_of_eq hc).symm.trans hd)).1
  constructor
  · rintro ⟨w, hw, hall⟩
    obtain rfl := Option.some.inj (hwalk.symm.trans hw)
    rw [htop]
    exact (hall _ (by simp)).2
  · intro hopen
    refine ⟨_, hwalk, fun x hx => ?_⟩
    simp only [List.mem_cons, List.not_mem_nil, or_false] at hx
    rcases hx with rfl | rfl | rfl | rfl
    · exact ⟨hpres (ℓ := 0) rfl h1, htop ▸ hopen⟩
    · exact ⟨hpres h1 h2, hf a ha 1 (by omega) (by omega) f₁ h1 (hpres h1 h2)⟩
    · exact ⟨hpres h2 h3, hf a ha 2 (by omega) (by omega) f₂ h2 (hpres h2 h3)⟩
    · exact ⟨hpres h3 hg, hf a ha 3 (by omega) (by omega) f₃ h3 (hpres h3 hg)⟩

/-- The hardware accepts what is usable, for reads and writes. -/
theorem translate_of_usable {cr3 : ℕ} (h : Usable m cr3 a) (w : Bool) :
    translate m cr3 a w ≠ none := by
  obtain ⟨x, hx, hall⟩ := h
  unfold translate
  rw [hx]
  simp only [List.mem_cons, List.not_mem_nil, or_false, forall_eq_or_imp, forall_eq, Open] at hall
  obtain ⟨⟨-, w1, u1⟩, ⟨-, w2, u2⟩, ⟨-, w3, u3⟩, -, w4, u4⟩ := hall
  simp [w1, w2, w3, w4, u1, u2, u3, u4]

/-- The handler refuses a fault outside the regions in use, and a fault for lack of permission. -/
theorem petmemHandlePagefault_refuses {code : ℕ} (hl : Partition s.map.memoryAllocations)
    (h : ¬ Covered s.map.memoryAllocations a ∨ code = errorPermission) :
    petmemHandlePagefault env a code s = .ok (-1, s) := by
  have hcond : (!checkAddressRange s.map.memoryAllocations a || decide (code = errorPermission))
      = true := by
    rcases h with h | h
    · have hno : checkAddressRange s.map.memoryAllocations a = false :=
        Bool.eq_false_iff.2 fun hc => h ((checkAddressRange_iff hl a).1 hc)
      simp [hno]
    · simp [h]
  unfold petmemHandlePagefault
  rw [if_pos hcond]
  rfl

/-- A machine with four frames of petmem memory and nothing else: the level-4 table is empty. -/
def bareKern (file : SwapFile) : Kern :=
  match Pools.addMemory 0x10000 4 ⟨fun _ => 0, [], file, []⟩ with
  | .ok k => k
  | .error _ => ⟨fun _ => 0, [], file, []⟩

theorem bareKern_unmapped (file : SwapFile) :
    Start smallEnv {1} (bareKern file) ∧
      Flagged (bareKern file).mem (rootFrame smallEnv.cr3) := by
  have hempty : PoolsInv ⟨fun _ => 0, [], file, []⟩ := ⟨by simp, by simp, by simp, by simp⟩
  have hrange : RangeOk ⟨fun _ => 0, [], file, []⟩ 0x10000 4 :=
    ⟨by norm_num, by norm_num, by norm_num, by unfold physLimit; norm_num, by simp [RangeClear]⟩
  obtain ⟨k, hrun, hadd⟩ := addMemory_spec hempty hrange
  have hk : bareKern file = k := by
    unfold bareKern
    rw [hrun]
  rw [hk]
  have hlim : 1 < frameLimit := by
    unfold frameLimit
    omega
  have hforeign : Foreign k 1 := by
    refine ⟨hlim, fun mp hmp hc => ?_⟩
    rcases (hadd.covers (1 * 4096)).1 ⟨mp, hmp, hc⟩ with ⟨_, hm, -⟩ | ⟨hin, -⟩
    · cases hm
    · omega
  -- frame 1 is not in the pool, so `ADD_MEMORY` has left it zero
  have hchild : child k.mem 1 0 = none := by
    rw [child_eq_none, pteAt_of_zero hlim (by omega) fun i hi => ?_]
    · rfl
    · refine hadd.mem _ fun hin => ?_
      rw [frameVa_eq hlim hi] at hin
      have := hin.1
      omega
  have hnone : ∀ a ∈ Region ∪ Side, tableNode k.mem 1 a 2 = none := by
    intro a ha
    have h1 : tableNode k.mem 1 a 1 = none := by
      rw [← hchild, ← index_zero ha]
      rfl
    exact node_eq_none_of_le h1 (by omega)
  have hroot : rootFrame smallEnv.cr3 = 1 := by decide
  refine ⟨⟨owned_of_unmapped hadd.inv hforeign (fun f hf => ?_) hnone, hroot ▸ rfl⟩, ?_⟩
  · rw [hchild] at hf
    cases hf
  · rw [hroot]
    exact flagged_of_unmapped fun a ha => hnone a (.inl ha)

end OnDemand

end Petmem
