import Petmem.Faults

/-!
# The page map of a process

Of the page tables of a process only the last-level entries matter to what it can see: `leaf` is
the entry of a page, without its accessed bit, where a table for it exists. A page is in memory
(the entry is present), swapped out (not present, but marked dirty), or untouched.

The changes a page fault makes are restated here for the page map: an eviction changes one entry,
a new table makes the entries of its pages appear, and a new page changes one entry.
-/

namespace Petmem

open ByteMemory RadixTree Pools Swap Regions

/-! ## Pages and tables of addresses -/

theorem region_lt {a : ℕ} (h : a ∈ Region) : a < 2 ^ 38 := by
  rw [mem_region] at h
  unfold petmemRegionEnd at h
  omega

/-- Addresses share the first `n` indices when they lie in the range of one entry at depth `n`. -/
theorem samePath_iff {a b n : ℕ} (ha : a ∈ Region) (hb : b ∈ Region) (hn : n ≤ 4) :
    SamePath tableIndex n a b ↔ a / 2 ^ (48 - 9 * n) = b / 2 ^ (48 - 9 * n) := by
  have h1 := region_lt ha
  have h2 := region_lt hb
  induction n with
  | zero =>
    refine ⟨fun _ => ?_, fun _ k hk => absurd hk (Nat.not_lt_zero k)⟩
    rw [Nat.div_eq_of_lt (by omega), Nat.div_eq_of_lt (by omega)]
  | succ n ih =>
    refine (samePath_succ.trans (and_congr_left' (ih (by omega)))).trans ?_
    rw [tableIndex_eq, tableIndex_eq,
      show 48 - 9 * n = (39 - 9 * n) + 9 by omega, show 48 - 9 * (n + 1) = 39 - 9 * n by omega,
      pow_add, ← Nat.div_div_eq_div_mul, ← Nat.div_div_eq_div_mul]
    -- the range is given by the range above and the index in it
    generalize a / 2 ^ (39 - 9 * n) = x
    generalize b / 2 ^ (39 - 9 * n) = y
    omega

/-- Addresses with the same four indices lie in one page. -/
theorem samePath_four_iff {a b : ℕ} (ha : a ∈ Region) (hb : b ∈ Region) :
    SamePath tableIndex 4 a b ↔ a / 4096 = b / 4096 :=
  samePath_iff ha hb (le_refl 4)

/-- Addresses with the same first three indices lie in the range of one last-level table. -/
theorem samePath_three_iff {a b : ℕ} (ha : a ∈ Region) (hb : b ∈ Region) :
    SamePath tableIndex 3 a b ↔ a / 2 ^ 21 = b / 2 ^ 21 :=
  samePath_iff ha hb (by omega)

/-- The address of entry `i` of the last-level table of `a`. -/
def tablePage (a i : ℕ) : ℕ := a / 2 ^ 21 * 2 ^ 21 + i * 4096

theorem tablePage_mem {a i : ℕ} (ha : a ∈ Region) (hi : i < 512) : tablePage a i ∈ Region := by
  rw [mem_region] at ha ⊢
  unfold tablePage petmemRegionStart petmemRegionEnd at *
  omega

theorem tablePage_table {a i : ℕ} (hi : i < 512) : tablePage a i / 2 ^ 21 = a / 2 ^ 21 := by
  unfold tablePage
  omega

theorem tableIndex_tablePage {a i : ℕ} (hi : i < 512) : tableIndex (tablePage a i) 3 = i := by
  rw [tableIndex_eq]
  unfold tablePage
  simp only [Nat.reduceMul, Nat.reduceSub]
  omega

namespace OnDemand

/-! ## Entries of pages -/

/-- The last-level entry of the page at `a`, without its accessed bit. -/
def leaf (m : Mem) (r a : ℕ) : Option Pte64 :=
  (tableNode m r a 3).map fun f => (pteAt m f (tableIndex a 3)).mask

/-- The entry is that of a page in memory. -/
def InMemory (o : Option Pte64) : Prop := ∃ e, o = some e ∧ e.present = true

/-- The page at `a` is in memory. -/
def Resident (m : Mem) (r a : ℕ) : Prop := InMemory (leaf m r a)

variable {m m' : Mem} {r r' a b f g : ℕ}

theorem leaf_of_node (h : tableNode m r a 3 = some f) :
    leaf m r a = some (pteAt m f (tableIndex a 3)).mask := by
  unfold leaf
  rw [h]
  rfl

theorem leaf_of_none (h : tableNode m r a 3 = none) : leaf m r a = none := by
  unfold leaf
  rw [h]
  rfl

theorem leaf_congr (h : SamePath tableIndex 4 a b) : leaf m r a = leaf m r b := by
  unfold leaf
  rw [show tableNode m r a 3 = tableNode m r b 3 from node_congr (h.mono (by omega)),
    h 3 (by omega)]

/-- The page map says which pages the walk reaches, and in which frames. -/
theorem node_iff_leaf :
    tableNode m r a 4 = some g ↔ ∃ e, leaf m r a = some e ∧ e.present = true ∧ e.base = g := by
  constructor
  · intro h
    obtain ⟨f, hf, hp, hb⟩ := pte_of_node h
    exact ⟨_, leaf_of_node hf, hp, hb⟩
  · rintro ⟨e, he, hp, hb⟩
    obtain ⟨f, hf, rfl⟩ := Option.map_eq_some_iff.1 he
    exact (node_succ_of_eq hf).trans (child_eq_some.2 ⟨hp, hb⟩)

theorem resident_iff : Resident m r a ↔ ∃ g, tableNode m r a 4 = some g := by
  simp only [node_iff_leaf]
  constructor
  · rintro ⟨e, he, hp⟩
    exact ⟨_, e, he, hp, rfl⟩
  · rintro ⟨_, e, he, hp, -⟩
    exact ⟨e, he, hp⟩

theorem not_resident_iff : ¬ Resident m r a ↔ tableNode m r a 4 = none := by
  rw [resident_iff, ← Option.ne_none_iff_exists', not_not]

/-- The pages in memory are those whose walk is present. -/
theorem resident_iff_walk {cr3 : ℕ} (ha : a ∈ Region) :
    Resident m (rootFrame cr3) a ↔ walk m cr3 a ≠ none := by
  rw [resident_iff]
  constructor
  · rintro ⟨g, h4⟩
    obtain ⟨f₁, f₂, f₃, h1, h2, h3⟩ := exists_tables h4
    rw [walk_of_node (region_index_zero ha) h1 h2 h3 h4]
    simp
  · intro hne
    by_contra hno
    refine hne (walk_of_node_none (region_index_zero ha) ?_)
    exact not_resident_iff.1 fun hr => hno (resident_iff.1 hr)

theorem leaf_eq_of_pteAt (hn : tableNode m' r a 3 = tableNode m r a 3)
    (h : ∀ f, tableNode m r a 3 = some f →
      (pteAt m' f (tableIndex a 3)).mask = (pteAt m f (tableIndex a 3)).mask) :
    leaf m' r a = leaf m r a := by
  unfold leaf
  rw [hn]
  cases hf : tableNode m r a 3 with
  | none => rfl
  | some f =>
    rw [Option.map_some, Option.map_some, h f hf]

/-! ## Evictions and new pages -/

variable {s s' : State} {roots : Set ℕ} {v slot ℓ : ℕ} {src : ℕ → Byte} {e : Pte64}

namespace Evicted

/-- The entry of the victim after. -/
theorem leaf_victim (h : Evicted roots r s s' v f g slot) (ha : a ∈ Region)
    (hv : a / 4096 = v / 4096) :
    leaf s'.mem r a = some (swappedOut (pteAt s.mem f (tableIndex v 3)).mask slot) := by
  rw [leaf_congr ((samePath_four_iff ha h.region).2 hv),
    leaf_of_node ((h.node_table h.root h.region (le_refl _)).trans h.table), h.entry]

/-- The entries of all other pages stay. -/
theorem leaf_other (h : Evicted roots r s s' v f g slot) (hr' : r' ∈ roots) (ha : a ∈ Region)
    (hne : ¬ (r' = r ∧ a / 4096 = v / 4096)) : leaf s'.mem r' a = leaf s.mem r' a := by
  refine leaf_eq_of_pteAt (h.node_table hr' ha (le_refl _)) fun c hc => ?_
  have hcg : c ≠ g := by
    rintro rfl
    have := (h.before.separated r' hr' r h.root a ha v h.region 3 (by omega) 4 (le_refl _) c hc
      h.page).2.1
    omega
  refine h.others c _ (h.kept (h.before.kept hr' ha (by omega) hc) hcg) (tableIndex_lt _ _) ?_
  rintro ⟨rfl, hidx⟩
  obtain ⟨hrr, -, hp⟩ := h.before.separated r' hr' r h.root a ha v h.region 3 (by omega) 3
    (by omega) c hc h.table
  exact hne ⟨hrr, (samePath_four_iff ha h.region).1 (samePath_succ.2 ⟨hp, hidx⟩)⟩

end Evicted

namespace Grown

/-- A new page changes one entry. -/
theorem leaf_page (h : Grown roots r a 3 src s s' f g e) (hb : b ∈ Region)
    (hp : b / 4096 = a / 4096) : leaf s'.mem r b = some e.mask := by
  have hpath := (samePath_four_iff hb h.region).2 hp
  have hnode : tableNode s'.mem r a 3 = some f :=
    h.node_of_some h.root h.region (by omega) h.table
  rw [leaf_congr hpath, leaf_of_node hnode, h.entry]

/-- The entries that no new frame is involved in stay. -/
theorem leaf_other (h : Grown roots r a ℓ src s s' f g e) (hr' : r' ∈ roots) (hb : b ∈ Region)
    (hne : ¬ (r' = r ∧ (ℓ = 3 ∧ b / 4096 = a / 4096 ∨ ℓ = 2 ∧ b / 2 ^ 21 = a / 2 ^ 21))) :
    leaf s'.mem r' b = leaf s.mem r' b := by
  rcases h.node_cases hr' hb (show 3 ≤ 4 by omega) with ⟨hn, -⟩ | ⟨-, hrr, hℓ, hp⟩
  · refine leaf_eq_of_pteAt hn fun c hc => ?_
    rw [h.others c _ (h.before.kept hr' hb (by omega) hc) (tableIndex_lt _ _)]
    rintro ⟨rfl, hidx⟩
    have hd := h.depth
    obtain ⟨hrr, h3, hp⟩ := h.before.separated r' hr' r h.root b hb a h.region 3 (by omega) ℓ
      (by omega) c hc h.table
    subst h3
    exact hne ⟨hrr, .inl ⟨rfl, (samePath_four_iff hb h.region).1 (samePath_succ.2 ⟨hp, hidx⟩)⟩⟩
  · obtain rfl : ℓ = 2 := by omega
    exact absurd ⟨hrr, .inr ⟨rfl, (samePath_three_iff hb h.region).1 hp⟩⟩ hne

/-- A new last-level table: its pages were unmapped and are untouched. -/
theorem leaf_table (h : Grown roots r a 2 src s s' f g e) (hb : b ∈ Region)
    (hp : b / 2 ^ 21 = a / 2 ^ 21) :
    leaf s.mem r b = none ∧ leaf s'.mem r b = some Pte64.zero := by
  have hpath := (samePath_three_iff hb h.region).2 hp
  have hnone : tableNode s.mem r b 3 = none := (node_congr hpath).trans h.node_none
  have hnew : tableNode s'.mem r b 3 = some g := (node_congr hpath).trans h.node_slot
  refine ⟨leaf_of_none hnone, ?_⟩
  rw [leaf_of_node hnew, h.pteAt_new (by omega) (tableIndex_lt _ _)]
  rfl

end Grown

end OnDemand

end Petmem
