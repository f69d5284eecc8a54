import Petmem.PoolTheorems
import Petmem.Library.RadixTree

/-!
# Who owns a frame

`Owned k roots` is the invariant of the page tables of all processes, each given by the
frame of its top-level table. Below the top level, the frames met on walks of petmem
addresses are outstanding frames of the pools (the level-3 table may also be one that the
process came with), and no frame is met on two different paths.

Around the petmem region the handler's `int` arithmetic can reach 2 GB further on either
side (`Side`). What is met there belongs to the process itself, and petmem only ever clears
entries of it.

The primitive memory operations, one lemma each: a fresh frame is allocated
(`Owned.alloc`), filled (`Owned.fill`), entered into a table (`Owned.install`), an entry is
rewritten or cleared (`Owned.write`), a frame that is in no table is freed (`Owned.free`).
-/

namespace Petmem

open ByteMemory RadixTree Pools

/-- The addresses of the petmem region. -/
def Region : Set ℕ := { a | petmemRegionStart ≤ a ∧ a < petmemRegionEnd }

/-- The addresses within 2 GB of the petmem region, outside it. -/
def Side : Set ℕ :=
  { a | (petmemRegionStart - 2 ^ 31 ≤ a ∧ a < petmemRegionStart) ∨
    (petmemRegionEnd ≤ a ∧ a < petmemRegionEnd + 2 ^ 31) }

/-! ## Indices of petmem addresses -/

theorem mem_region {a : ℕ} : a ∈ Region ↔ petmemRegionStart ≤ a ∧ a < petmemRegionEnd := Iff.rfl

theorem mem_side {a : ℕ} : a ∈ Side ↔ (petmemRegionStart - 2 ^ 31 ≤ a ∧ a < petmemRegionStart) ∨
    (petmemRegionEnd ≤ a ∧ a < petmemRegionEnd + 2 ^ 31) := Iff.rfl

theorem tableIndex_zero_of_lt {a : ℕ} (h : a < 2 ^ 39) : tableIndex a 0 = 0 := by
  rw [tableIndex_eq]
  simp only [Nat.mul_zero, Nat.sub_zero]
  omega

theorem region_index_zero {a : ℕ} (h : a ∈ Region) : tableIndex a 0 = 0 := by
  rw [mem_region] at h
  unfold petmemRegionEnd at h
  exact tableIndex_zero_of_lt (by omega)

theorem side_index_zero {a : ℕ} (h : a ∈ Side) : tableIndex a 0 = 0 := by
  rw [mem_side] at h
  unfold petmemRegionStart petmemRegionEnd at h
  exact tableIndex_zero_of_lt (by omega)

theorem region_index_one {a : ℕ} (h : a ∈ Region) :
    64 ≤ tableIndex a 1 ∧ tableIndex a 1 < 192 := by
  rw [mem_region] at h
  unfold petmemRegionStart petmemRegionEnd at h
  rw [tableIndex_eq]
  simp only [Nat.mul_one]
  omega

theorem side_index_one {a : ℕ} (h : a ∈ Side) : tableIndex a 1 < 64 ∨ 192 ≤ tableIndex a 1 := by
  rw [mem_side] at h
  unfold petmemRegionStart petmemRegionEnd at h
  rw [tableIndex_eq]
  simp only [Nat.mul_one]
  omega

/-- All petmem addresses share the level-3 table. -/
theorem region_samePath_one {a b : ℕ} (ha : tableIndex a 0 = 0) (hb : tableIndex b 0 = 0) :
    SamePath tableIndex 1 a b := by
  intro n hn
  rw [Nat.lt_one_iff.1 hn, ha, hb]

theorem start_mem_region : petmemRegionStart ∈ Region := by
  unfold Region petmemRegionStart petmemRegionEnd
  simp

/-! ## The invariant -/

/-- The invariant of the page tables with top-level tables in the frames `roots`. -/
structure Owned (k : Kern) (roots : Set ℕ) : Prop where
  pools : PoolsInv k
  root : ∀ r ∈ roots, Foreign k r
  separated : Separated tableIndex (child k.mem) roots Region 4
  pdp : ∀ r ∈ roots, ∀ a ∈ Region, ∀ f, tableNode k.mem r a 1 = some f → Kept k f
  held : ∀ r ∈ roots, ∀ a ∈ Region, ∀ ℓ, 2 ≤ ℓ → ℓ ≤ 4 → ∀ f,
    tableNode k.mem r a ℓ = some f → Held k f
  side : ∀ r ∈ roots, ∀ a ∈ Side, ∀ ℓ, 2 ≤ ℓ → ℓ ≤ 3 → ∀ f, tableNode k.mem r a ℓ = some f →
    Foreign k f ∧ ∀ r' ∈ roots, f ≠ r' ∧ tableNode k.mem r' petmemRegionStart 1 ≠ some f
  sidePage : ∀ r ∈ roots, ∀ a ∈ Side, ∀ f, tableNode k.mem r a 4 = some f → f < frameLimit

/-- The tables look the same from every root. -/
def SameNodes (k k' : Kern) (roots : Set ℕ) : Prop :=
  ∀ r ∈ roots, ∀ a ∈ Region ∪ Side, ∀ ℓ ≤ 4, tableNode k'.mem r a ℓ = tableNode k.mem r a ℓ

/-- Frame `g` is met on no walk of a petmem address. -/
def Loose (k : Kern) (roots : Set ℕ) (g : ℕ) : Prop :=
  ∀ r ∈ roots, ∀ a ∈ Region, ∀ ℓ ≤ 4, tableNode k.mem r a ℓ ≠ some g

namespace Owned

variable {k k' : Kern} {roots : Set ℕ} {r a : ℕ}

/-- Every frame met on the walk of a petmem address is kept. -/
theorem kept (h : Owned k roots) (hr : r ∈ roots) (ha : a ∈ Region) {ℓ f : ℕ} (hℓ : ℓ ≤ 4)
    (hf : tableNode k.mem r a ℓ = some f) : Kept k f := by
  match ℓ, hf with
  | 0, hf =>
    cases hf
    exact .inr (h.root r hr)
  | 1, hf => exact h.pdp r hr a ha f hf
  | ℓ + 2, hf => exact .inl (h.held r hr a ha (ℓ + 2) (by omega) hℓ f hf)

theorem lt_limit (h : Owned k roots) (hr : r ∈ roots) (ha : a ∈ Region) {ℓ f : ℕ} (hℓ : ℓ ≤ 4)
    (hf : tableNode k.mem r a ℓ = some f) : f < frameLimit :=
  h.pools.kept_lt (h.kept hr ha hℓ hf)

/-- On a side address the walk passes the process's own tables. -/
theorem side_kept (h : Owned k roots) (hr : r ∈ roots) (ha : a ∈ Side) {ℓ f : ℕ} (hℓ : ℓ ≤ 3)
    (hf : tableNode k.mem r a ℓ = some f) : Kept k f := by
  match ℓ, hf with
  | 0, hf =>
    cases hf
    exact .inr (h.root r hr)
  | 1, hf =>
    refine h.pdp r hr petmemRegionStart start_mem_region f ?_
    rw [← hf]
    exact node_congr (region_samePath_one (region_index_zero start_mem_region) (side_index_zero ha))
  | ℓ + 2, hf => exact .inr (h.side r hr a ha (ℓ + 2) (by omega) hℓ f hf).1

/-- The level-3 table of a side address is that of the petmem addresses. -/
theorem side_pdp {m : Mem} (ha : a ∈ Side) :
    tableNode m r a 1 = tableNode m r petmemRegionStart 1 :=
  node_congr (region_samePath_one (side_index_zero ha) (region_index_zero start_mem_region))

theorem region_pdp {m : Mem} (ha : a ∈ Region) :
    tableNode m r a 1 = tableNode m r petmemRegionStart 1 :=
  node_congr (region_samePath_one (region_index_zero ha) (region_index_zero start_mem_region))

/-- The process's own tables below level 3 are met on no walk of a petmem address. -/
theorem side_ne (h : Owned k roots) (hr : r ∈ roots) (ha : a ∈ Side) {ℓ f : ℕ} (h2 : 2 ≤ ℓ)
    (h3 : ℓ ≤ 3) (hf : tableNode k.mem r a ℓ = some f) {r' a' ℓ' : ℕ} (hr' : r' ∈ roots)
    (ha' : a' ∈ Region) (hℓ' : ℓ' ≤ 4) : tableNode k.mem r' a' ℓ' ≠ some f := by
  obtain ⟨hfor, hne⟩ := h.side r hr a ha ℓ h2 h3 f hf
  intro hf'
  match ℓ', hf' with
  | 0, hf' =>
    cases hf'
    exact (hne f hr').1 rfl
  | 1, hf' => exact (hne r' hr').2 ((region_pdp ha').symm.trans hf')
  | n + 2, hf' =>
    exact h.pools.not_foreign_of_held (h.held r' hr' a' ha' (n + 2) (by omega) hℓ' f hf') hfor

/-- A table met on a side walk that is no table of a petmem walk is the process's own. -/
theorem side_foreign_of_loose (h : Owned k roots) (hr : r ∈ roots) (ha : a ∈ Side) {ℓ f : ℕ}
    (hℓ : ℓ ≤ 3) (hf : tableNode k.mem r a ℓ = some f)
    (hloose : ∀ ℓ ≤ 3, tableNode k.mem r petmemRegionStart ℓ ≠ some f) : Foreign k f := by
  match ℓ, hf with
  | 0, hf =>
    cases hf
    exact h.root r hr
  | 1, hf => exact absurd ((side_pdp ha).symm.trans hf) (hloose 1 (by omega))
  | n + 2, hf => exact (h.side r hr a ha (n + 2) (by omega) hℓ f hf).1

/-- Tables may lose entries, frames that are in no table may be given back, and pools may be added
where there are no tables. -/
theorem of_le_foreign (h : Owned k roots) (hpools : PoolsInv k')
    (hfor : ∀ r ∈ roots, ∀ a ∈ Region ∪ Side, ∀ ℓ ≤ 3, ∀ f, tableNode k.mem r a ℓ = some f →
      Foreign k f → Foreign k' f)
    (hle : ∀ r ∈ roots, ∀ a ∈ Region ∪ Side, ∀ ℓ < 4, ∀ f g, tableNode k.mem r a ℓ = some f →
      child k'.mem f (tableIndex a ℓ) = some g → child k.mem f (tableIndex a ℓ) = some g)
    (hheld : ∀ r ∈ roots, ∀ a ∈ Region, ∀ ℓ, 1 ≤ ℓ → ℓ ≤ 4 → ∀ f,
      tableNode k'.mem r a ℓ = some f → Held k f → Held k' f) : Owned k' roots := by
  -- a walk through the new tables is one through the old ones
  have hnode : ∀ r ∈ roots, ∀ a ∈ Region ∪ Side, ∀ ℓ ≤ 4, ∀ f, tableNode k'.mem r a ℓ = some f →
      tableNode k.mem r a ℓ = some f := fun r hr a ha ℓ hℓ f hf =>
    node_of_le (hle r hr a ha) hℓ hf
  refine ⟨hpools, fun r hr => ?_, h.separated.of_le fun r hr a ha => hnode r hr a (.inl ha),
    ?_, ?_, ?_, ?_⟩
  · exact hfor r hr petmemRegionStart (.inl start_mem_region) 0 (by omega) r rfl (h.root r hr)
  · intro r hr a ha f hf
    have hold := hnode r hr a (.inl ha) 1 (by omega) f hf
    rcases h.pdp r hr a ha f hold with hk | hk
    · exact .inl (hheld r hr a ha 1 (le_refl _) (by omega) f hf hk)
    · exact .inr (hfor r hr a (.inl ha) 1 (by omega) f hold hk)
  · intro r hr a ha ℓ h2 h4 f hf
    exact hheld r hr a ha ℓ (by omega) h4 f hf
      (h.held r hr a ha ℓ h2 h4 f (hnode r hr a (.inl ha) ℓ h4 f hf))
  · intro r hr a ha ℓ h2 h3 f hf
    have hold := hnode r hr a (.inr ha) ℓ (by omega) f hf
    obtain ⟨h5, h6⟩ := h.side r hr a ha ℓ h2 h3 f hold
    refine ⟨hfor r hr a (.inr ha) ℓ h3 f hold h5,
      fun r' hr' => ⟨(h6 r' hr').1, fun hp => (h6 r' hr').2 ?_⟩⟩
    exact hnode r' hr' petmemRegionStart (.inl start_mem_region) 1 (by omega) f hp
  · intro r hr a ha f hf
    exact h.sidePage r hr a ha f (hnode r hr a (.inr ha) 4 (le_refl _) f hf)

/-- The pools may change inside. -/
theorem of_le (h : Owned k roots) (hpools : PoolsInv k') (hsame : SamePools k k')
    (hle : ∀ r ∈ roots, ∀ a ∈ Region ∪ Side, ∀ ℓ < 4, ∀ f g, tableNode k.mem r a ℓ = some f →
      child k'.mem f (tableIndex a ℓ) = some g → child k.mem f (tableIndex a ℓ) = some g)
    (hheld : ∀ r ∈ roots, ∀ a ∈ Region, ∀ ℓ, 1 ≤ ℓ → ℓ ≤ 4 → ∀ f,
      tableNode k'.mem r a ℓ = some f → Held k f → Held k' f) : Owned k' roots :=
  h.of_le_foreign hpools (fun _ _ _ _ _ _ _ _ => hsame.foreign_iff.2) hle hheld

/-- The tables stay when the entries they consist of do. -/
theorem of_eq (h : Owned k roots) (hpools : PoolsInv k') (hsame : SamePools k k')
    (heq : ∀ r ∈ roots, ∀ a ∈ Region ∪ Side, ∀ ℓ < 4, ∀ f, tableNode k.mem r a ℓ = some f →
      child k'.mem f (tableIndex a ℓ) = child k.mem f (tableIndex a ℓ))
    (hheld : ∀ r ∈ roots, ∀ a ∈ Region, ∀ ℓ, 1 ≤ ℓ → ℓ ≤ 4 → ∀ f,
      tableNode k.mem r a ℓ = some f → Held k f → Held k' f) :
    Owned k' roots ∧ SameNodes k k' roots := by
  -- equal entries give equal walks
  have hnode : SameNodes k k' roots := fun r hr a ha ℓ hℓ => node_eq_of_eq (heq r hr a ha) hℓ
  refine ⟨h.of_le hpools hsame (fun r hr a ha ℓ hℓ f g hf hg => ?_)
    fun r hr a ha ℓ h1 h4 f hf => ?_, hnode⟩
  · rw [← heq r hr a ha ℓ hℓ f hf, hg]
  · rw [hnode r hr a (.inl ha) ℓ h4] at hf
    exact hheld r hr a ha ℓ h1 h4 f hf

/-- Frames met on the walk of a petmem or side address, up to the last table. -/
theorem table_kept (h : Owned k roots) (hr : r ∈ roots) (ha : a ∈ Region ∪ Side) {ℓ f : ℕ}
    (hℓ : ℓ ≤ 3) (hf : tableNode k.mem r a ℓ = some f) : Kept k f :=
  ha.elim (fun ha => h.kept hr ha (by omega) hf) fun ha => h.side_kept hr ha hℓ hf

/-- No table, also beside the petmem region, is the frame of a petmem page. -/
theorem table_ne_page (h : Owned k roots) (hr : r ∈ roots) (ha : a ∈ Region ∪ Side) {ℓ f : ℕ}
    (hℓ : ℓ ≤ 3) (hf : tableNode k.mem r a ℓ = some f) {r' a' : ℕ} (hr' : r' ∈ roots)
    (ha' : a' ∈ Region) (hf' : tableNode k.mem r' a' 4 = some f) : False := by
  -- two walks of the petmem region meet at one level only
  have hregion : ∀ {c : ℕ}, c ∈ Region → ∀ {n : ℕ}, n ≤ 3 → tableNode k.mem r c n = some f →
      False := fun hc n hn hcn => by
    have := (h.separated r hr r' hr' _ hc a' ha' n (by omega) 4 (le_refl _) f hcn hf').2.1
    omega
  rcases ha with ha | ha
  · exact hregion ha hℓ hf
  · match ℓ, hf with
    | 0, hf => exact hregion start_mem_region (show 0 ≤ 3 by omega) hf
    | 1, hf => exact hregion start_mem_region (show 1 ≤ 3 by omega) ((side_pdp ha).symm.trans hf)
    | n + 2, hf => exact h.side_ne hr ha (by omega) hℓ hf hr' ha' (le_refl _) hf'

/-- The invariant reads the memory, the pools and the outstanding frames. -/
theorem congr (h : Owned k roots) (hm : k'.mem = k.mem) (hp : k'.pools = k.pools)
    (ho : k'.outstanding = k.outstanding) : Owned k' roots := by
  obtain ⟨m, pools, file, out⟩ := k
  obtain ⟨m', pools', file', out'⟩ := k'
  obtain rfl : m' = m := hm
  obtain rfl : pools' = pools := hp
  obtain rfl : out' = out := ho
  exact ⟨⟨h.pools.ok, h.pools.inv, h.pools.apart, h.pools.out⟩, h.root, h.separated, h.pdp,
    h.held, h.side, h.sidePage⟩

/-! ## The primitive operations -/

theorem loose_of_sameNodes {g : ℕ} (h : SameNodes k k' roots) (hg : Loose k roots g) :
    Loose k' roots g := by
  intro r hr a ha ℓ hℓ
  rw [h r hr a (.inl ha) ℓ hℓ]
  exact hg r hr a ha ℓ hℓ

theorem child_of_sameFrame {m m' : Mem} {f i : ℕ} (h : SameFrame m m' f) (hf : f < frameLimit)
    (hi : i < 512) : child m' f i = child m f i := by
  unfold child
  rw [h.pteAt hf hi]

theorem alloc (h : Owned k roots) {g : ℕ} (ha : Allocated k g k') :
    Owned k' roots ∧ SameNodes k k' roots ∧ Loose k' roots g := by
  have hout : ∀ f, Held k f → Held k' f := by
    intro f hf
    unfold Held
    rw [ha.out]
    exact List.mem_cons_of_mem _ hf
  obtain ⟨hown, hnodes⟩ := h.of_eq ha.inv ha.pools
    (fun r hr a ha' ℓ hℓ f hf => by
      have hk := h.table_kept hr ha' (by omega) hf
      exact child_of_sameFrame (ha.frames f hk) (h.pools.kept_lt hk) (tableIndex_lt _ _))
    (fun r hr a _ ℓ _ _ f _ => hout f)
  refine ⟨hown, hnodes, loose_of_sameNodes hnodes fun r hr a ha' ℓ hℓ hf => ?_⟩
  exact ha.fresh (h.kept hr ha' hℓ hf)

theorem fill (h : Owned k roots) {g : ℕ} {src : ℕ → Byte} {m' : Mem}
    (hset : FrameSet k.mem g src m') (hg : Held k g)
    (hloose : ∀ r ∈ roots, ∀ a ∈ Region, ∀ ℓ ≤ 3, tableNode k.mem r a ℓ ≠ some g) :
    Owned { k with mem := m' } roots ∧ SameNodes k { k with mem := m' } roots := by
  refine h.of_eq (h.pools.of_mem fun x hx => ?_) (SamePools.of_eq rfl)
    (fun r hr a ha ℓ hℓ f hf => ?_)
    fun _ _ _ _ _ _ _ _ _ => held_with_mem.2
  · exact hset.bytes x fun j hj => hx g j (.inl hg) hj
  · have hk := h.table_kept hr ha (by omega) hf
    refine child_of_sameFrame (hset.frames f (h.pools.kept_lt hk) ?_) (h.pools.kept_lt hk)
      (tableIndex_lt _ _)
    rintro rfl
    rcases ha with ha | ha
    · exact hloose r hr a ha ℓ (by omega) hf
    · exact h.pools.not_foreign_of_held hg (h.side_foreign_of_loose hr ha (by omega) hf fun ℓ hℓ =>
        hloose r hr petmemRegionStart start_mem_region ℓ hℓ)

variable {f₀ i₀ : ℕ} {e : Pte64} {m' : Mem}

/-- An entry of a kept frame is rewritten: it is cleared, or refers to what it did. -/
theorem write_le (h : Owned k roots) (hset : EntrySet k.mem f₀ i₀ e m') (hf₀ : Kept k f₀)
    (he : e.present = true → child k.mem f₀ i₀ = some e.base) :
    Owned { k with mem := m' } roots := by
  refine h.of_le (h.pools.of_mem fun x hx => ?_) (SamePools.of_eq rfl)
    (fun r hr a ha ℓ hℓ f g hf hg => ?_) fun _ _ _ _ _ _ _ _ _ => held_with_mem.2
  · exact hset.bytes x fun j hj => hx f₀ j hf₀ hj
  · by_cases hslot : f = f₀ ∧ tableIndex a ℓ = i₀
    · obtain ⟨rfl, rfl⟩ := hslot
      obtain ⟨hp, hb⟩ := child_eq_some.1 hg
      simp only [hset.entry] at hp hb
      rw [he hp, hb]
    · have hk := h.table_kept hr ha (by omega) hf
      unfold child at hg ⊢
      rwa [hset.others f _ (h.pools.kept_lt hk) (tableIndex_lt _ _) hslot] at hg

/-- An entry of a kept frame is rewritten and refers to what it did. -/
theorem write_eq (h : Owned k roots) (hset : EntrySet k.mem f₀ i₀ e m') (hf₀ : Kept k f₀)
    (he : child k.mem f₀ i₀ = if e.present then some e.base else none) :
    Owned { k with mem := m' } roots ∧ SameNodes k { k with mem := m' } roots := by
  refine h.of_eq (h.pools.of_mem fun x hx => ?_) (SamePools.of_eq rfl)
    (fun r hr a ha ℓ hℓ f hf => ?_) fun _ _ _ _ _ _ _ _ _ => held_with_mem.2
  · exact hset.bytes x fun j hj => hx f₀ j hf₀ hj
  · by_cases hslot : f = f₀ ∧ tableIndex a ℓ = i₀
    · obtain ⟨rfl, rfl⟩ := hslot
      rw [he]
      unfold child
      simp only [hset.entry]
    · have hk := h.table_kept hr ha (by omega) hf
      unfold child
      rw [hset.others f _ (h.pools.kept_lt hk) (tableIndex_lt _ _) hslot]

variable {r₀ a₀ ℓ₀ g : ℕ}

/-- The change of one entry on the path of a petmem address, as a change of the trees. -/
theorem slotUpdate (h : Owned k roots) (hset : EntrySet k.mem f₀ (tableIndex a₀ ℓ₀) e m')
    (hr₀ : r₀ ∈ roots) (ha₀ : a₀ ∈ Region) (hℓ₀ : ℓ₀ < 4)
    (hf₀ : tableNode k.mem r₀ a₀ ℓ₀ = some f₀) :
    SlotUpdate tableIndex (child k.mem) (child m') roots Region 4 r₀ a₀ ℓ₀
      (if e.present then some e.base else none) := by
  refine h.separated.slotUpdate hr₀ ha₀ hℓ₀ hf₀ ?_ fun r hr a ha ℓ hℓ f hf hne => ?_
  · unfold child
    rw [hset.entry]
  · unfold child
    rw [hset.others f _ (h.lt_limit hr ha (by omega) hf) (tableIndex_lt _ _) hne]

/-- A frame that is in no table is entered into an empty slot. -/
theorem install (h : Owned k roots) (hset : EntrySet k.mem f₀ (tableIndex a₀ ℓ₀) e m')
    (hr₀ : r₀ ∈ roots) (ha₀ : a₀ ∈ Region) (hℓ₀ : ℓ₀ < 4)
    (hf₀ : tableNode k.mem r₀ a₀ ℓ₀ = some f₀)
    (hempty : child k.mem f₀ (tableIndex a₀ ℓ₀) = none) (hg : Held k g)
    (hloose : Loose k roots g) (hblank : ℓ₀ < 3 → ∀ i < 512, child k.mem g i = none)
    (hpres : e.present = true) (hbase : e.base = g) :
    Owned { k with mem := m' } roots := by
  have hf₀k := h.kept hr₀ ha₀ (by omega) hf₀
  have hlt := h.pools.kept_lt hf₀k
  have hi₀ := tableIndex_lt a₀ ℓ₀
  set k' : Kern := { k with mem := m' } with hk'
  have hupd := h.slotUpdate hset hr₀ ha₀ hℓ₀ hf₀
  rw [hpres, if_pos rfl, hbase] at hupd
  have hnone : tableNode k.mem r₀ a₀ (ℓ₀ + 1) = none := by
    rw [← hempty]
    exact node_succ_of_eq hf₀
  have hgf : g ≠ f₀ := by
    rintro rfl
    exact hloose r₀ hr₀ a₀ ha₀ ℓ₀ (by omega) hf₀
  have hblank' : ℓ₀ + 1 < 4 → ∀ a ∈ Region, child k'.mem g (tableIndex a (ℓ₀ + 1)) = none := by
    intro hlt' a _
    rw [← hblank (by omega) (tableIndex a (ℓ₀ + 1)) (tableIndex_lt _ _)]
    unfold child
    rw [show k'.mem = m' from rfl,
      hset.others g _ (h.pools.held_lt hg) (tableIndex_lt _ _) fun hc => hgf hc.1]
  have hpools : PoolsInv k' :=
    h.pools.of_mem fun x hx => hset.bytes x fun j hj => hx f₀ j hf₀k hj
  -- side lookups: unchanged, unless the level-3 table is new and empty
  have hside : ∀ r ∈ roots, ∀ a ∈ Side, ∀ ℓ, 2 ≤ ℓ → ℓ ≤ 4 → ∀ f,
      tableNode k'.mem r a ℓ = some f → tableNode k.mem r a ℓ = some f := by
    intro r hr a ha ℓ h2 h4 f hf
    by_cases hz : ℓ₀ = 0 ∧ r = r₀
    · exfalso
      obtain ⟨rfl, rfl⟩ := hz
      have hone : tableNode k'.mem r a 1 = some g :=
        (side_pdp ha).trans ((region_pdp ha₀).symm.trans
          (hupd.node_slot hr ha₀ hℓ₀ (SamePath.refl 1 a₀)))
      have htwo : tableNode k'.mem r a 2 = none := by
        rw [show tableNode k'.mem r a 2 = child k'.mem g (tableIndex a 1) from node_succ_of_eq hone,
          ← hblank (by omega) (tableIndex a 1) (tableIndex_lt _ _)]
        unfold child
        rw [show k'.mem = m' from rfl,
          hset.others g _ (h.pools.held_lt hg) (tableIndex_lt _ _) fun hc => hgf hc.1]
      rw [show tableNode k'.mem r a ℓ = none from node_eq_none_of_le htwo h2] at hf
      cases hf
    · rw [← hf]
      symm
      refine node_eq_of_eq (d := 4) (fun n hn c hc => ?_) h4
      have hck := h.side_kept hr ha (by omega) hc
      unfold child
      rw [show k'.mem = m' from rfl,
        hset.others c _ (h.pools.kept_lt hck) (tableIndex_lt _ _) ?_]
      rintro ⟨rfl, hidx⟩
      -- the slot belongs to a petmem walk, this table to a side walk
      by_cases hn2 : 2 ≤ n
      · exact h.side_ne hr ha hn2 (by omega) hc hr₀ ha₀ (by omega) hf₀
      · have hc' : tableNode k.mem r petmemRegionStart n = some c := by
          rcases (show n = 0 ∨ n = 1 by omega) with rfl | rfl
          · exact hc
          · exact (side_pdp ha).symm.trans hc
        obtain ⟨hrr, rfl, -⟩ := h.separated r hr r₀ hr₀ _ start_mem_region a₀ ha₀ n (by omega) ℓ₀
          (by omega) c hc' hf₀
        by_cases hn0 : n = 0
        · exact hz ⟨hn0, hrr⟩
        · obtain rfl : n = 1 := by omega
          have h3 := region_index_one ha₀
          have h4 := side_index_one ha
          omega
  refine ⟨hpools, fun r hr => foreign_with_mem.2 (h.root r hr),
    h.separated.install hupd hℓ₀ hnone hblank' hloose, ?_, ?_, ?_, ?_⟩
  · intro r hr a ha f hf
    rcases node_install hupd hℓ₀ hnone hblank' hr ha (show 1 ≤ 4 by omega) with ⟨h1, -⟩ | ⟨h1, -⟩
    · exact (h.pdp r hr a ha f (h1.symm.trans hf)).imp held_with_mem.2 foreign_with_mem.2
    · cases h1.symm.trans hf
      exact .inl (held_with_mem.2 hg)
  · intro r hr a ha ℓ h2 h4 f hf
    rcases node_install hupd hℓ₀ hnone hblank' hr ha h4 with ⟨h1, -⟩ | ⟨h1, -⟩
    · exact held_with_mem.2 (h.held r hr a ha ℓ h2 h4 f (h1.symm.trans hf))
    · cases h1.symm.trans hf
      exact held_with_mem.2 hg
  · intro r hr a ha ℓ h2 h3 f hf
    obtain ⟨hfor, hne⟩ := h.side r hr a ha ℓ h2 h3 f (hside r hr a ha ℓ h2 (by omega) f hf)
    refine ⟨foreign_with_mem.2 hfor, fun r' hr' => ⟨(hne r' hr').1, fun hp => ?_⟩⟩
    rcases node_install hupd hℓ₀ hnone hblank' hr' start_mem_region
      (show 1 ≤ 4 by omega) with ⟨h1, -⟩ | ⟨h1, -⟩
    · exact (hne r' hr').2 (h1.symm.trans hp)
    · cases h1.symm.trans hp
      exact h.pools.not_foreign_of_held hg hfor
  · intro r hr a ha f hf
    exact h.sidePage r hr a ha f (hside r hr a ha 4 (by omega) (le_refl _) f hf)

/-- A frame that is in no table is given back to its pool. -/
theorem free (h : Owned k roots) (hg : Held k g) (hfree : Freed k g k')
    (hloose : Loose k roots g) : Owned k' roots ∧ SameNodes k k' roots := by
  have hheld : ∀ f, f ≠ g → Held k f → Held k' f := by
    intro f hne hf
    unfold Held
    rw [hfree.out]
    exact (List.mem_erase_of_ne (by omega)).2 hf
  have hkept : ∀ f, f ≠ g → Kept k f → Kept k' f := fun f hne hf =>
    hf.imp (hheld f hne) hfree.pools.foreign_iff.2
  refine h.of_eq hfree.inv hfree.pools (fun r hr a ha ℓ hℓ f hf => ?_)
    fun r hr a ha ℓ _ h4 f hf hh => ?_
  · have hk := h.table_kept hr ha (by omega) hf
    have hfg : f ≠ g := by
      rintro rfl
      rcases ha with ha | ha
      · exact hloose r hr a ha ℓ (by omega) hf
      · exact h.pools.not_foreign_of_held hg (h.side_foreign_of_loose hr ha (by omega) hf
          fun ℓ hℓ => hloose r hr petmemRegionStart start_mem_region ℓ (by omega))
    exact child_of_sameFrame (hfree.frames f (hkept f hfg hk)) (h.pools.kept_lt hk)
      (tableIndex_lt _ _)
  · refine hheld f ?_ hh
    rintro rfl
    exact hloose r hr a ha ℓ h4 hf

end Owned

/-! ## Page tables that come and go -/

section Tables

variable {k : Kern} {roots : Set ℕ} {r : ℕ}

/-- Frame `f` is a table on the walk of a petmem address, or of an address beside the region. -/
def InTables (k : Kern) (roots : Set ℕ) (f : ℕ) : Prop :=
  ∃ r ∈ roots, ∃ a ∈ Region ∪ Side, ∃ ℓ ≤ 3, tableNode k.mem r a ℓ = some f

/-- The page table with top-level table `r` is a process's own: it shares no table with the others,
its tables are in no pool, and nothing is mapped in the petmem region yet. -/
structure Joins (k : Kern) (roots : Set ℕ) (r : ℕ) : Prop where
  foreign : Foreign k r
  fresh : ¬ InTables k roots r
  table : ∀ f, child k.mem r 0 = some f → Foreign k f ∧ f ≠ r ∧ ¬ InTables k roots f
  unmapped : ∀ a ∈ Region, tableNode k.mem r a 2 = none
  side : ∀ a ∈ Side, ∀ ℓ, 2 ≤ ℓ → ℓ ≤ 3 → ∀ f, tableNode k.mem r a ℓ = some f →
    Foreign k f ∧ ¬ InTables k roots f ∧ f ≠ r ∧ child k.mem r 0 ≠ some f
  sidePage : ∀ a ∈ Side, ∀ f, tableNode k.mem r a 4 = some f → f < frameLimit

theorem owned_empty (h : PoolsInv k) : Owned k ∅ where
  pools := h
  root _ hr := hr.elim
  separated _ hr := hr.elim
  pdp _ hr := hr.elim
  held _ hr := hr.elim
  side _ hr := hr.elim
  sidePage _ hr := hr.elim

/-- All petmem addresses have one level-4 entry. -/
theorem node_one_eq_child {m : Mem} {a : ℕ} (ha : a ∈ Region) :
    tableNode m r a 1 = child m r 0 := by
  rw [← region_index_zero ha]
  rfl

namespace Joins

/-- On the walk of a petmem address there are at most two tables. -/
theorem node_cases (h : Joins k roots r) {a ℓ f : ℕ} (ha : a ∈ Region)
    (hf : tableNode k.mem r a ℓ = some f) :
    (ℓ = 0 ∧ f = r) ∨ (ℓ = 1 ∧ child k.mem r 0 = some f) := by
  match ℓ, hf with
  | 0, hf => exact .inl ⟨rfl, (Option.some.inj hf).symm⟩
  | 1, hf => exact .inr ⟨rfl, (node_one_eq_child ha).symm.trans hf⟩
  | n + 2, hf =>
    have hnone : tableNode k.mem r a (n + 2) = none :=
      node_eq_none_of_le (h.unmapped a ha) (by omega)
    cases hnone.symm.trans hf

/-- They are met on no walk from another top-level table. -/
theorem node_ne (h : Joins k roots r) (ho : Owned k roots) {a ℓ f r' b ℓ' : ℕ} (ha : a ∈ Region)
    (hf : tableNode k.mem r a ℓ = some f) (hr' : r' ∈ roots) (hb : b ∈ Region) (hℓ' : ℓ' ≤ 4) :
    tableNode k.mem r' b ℓ' ≠ some f := by
  have hout : Foreign k f ∧ ¬ InTables k roots f := by
    rcases h.node_cases ha hf with ⟨-, rfl⟩ | ⟨-, hc⟩
    · exact ⟨h.foreign, h.fresh⟩
    · exact ⟨(h.table f hc).1, (h.table f hc).2.2⟩
  intro hf'
  by_cases h3 : ℓ' ≤ 3
  · exact hout.2 ⟨r', hr', b, .inl hb, ℓ', h3, hf'⟩
  · exact ho.pools.not_foreign_of_held (ho.held r' hr' b hb ℓ' (by omega) hℓ' f hf') hout.1

theorem separated (h : Joins k roots r) (ho : Owned k roots) :
    Separated tableIndex (child k.mem) (insert r roots) Region 4 := by
  intro r₁ hr₁ r₂ hr₂ a ha b hb ℓ hℓ ℓ' hℓ' f hf hf'
  rcases hr₁ with rfl | hr₁
  · rcases hr₂ with rfl | hr₂
    · rcases h.node_cases ha hf with ⟨rfl, hfr⟩ | ⟨rfl, hc⟩ <;>
        rcases h.node_cases hb hf' with ⟨rfl, hfr'⟩ | ⟨rfl, hc'⟩
      · exact ⟨rfl, rfl, fun n hn => by omega⟩
      · exact absurd hfr (h.table _ hc').2.1
      · exact absurd hfr' (h.table _ hc).2.1
      · exact ⟨rfl, rfl, region_samePath_one (region_index_zero ha) (region_index_zero hb)⟩
    · exact absurd hf' (h.node_ne ho ha hf hr₂ hb hℓ')
  · rcases hr₂ with rfl | hr₂
    · exact absurd hf (h.node_ne ho hb hf' hr₁ ha hℓ)
    · exact ho.separated r₁ hr₁ r₂ hr₂ a ha b hb ℓ hℓ ℓ' hℓ' f hf hf'

end Joins

/-- A page table is added. -/
theorem Owned.insert (ho : Owned k roots) (h : Joins k roots r) : Owned k (insert r roots) := by
  refine ⟨ho.pools, ?_, h.separated ho, ?_, ?_, ?_, ?_⟩
  · rintro r₁ (rfl | hr₁)
    · exact h.foreign
    · exact ho.root r₁ hr₁
  · rintro r₁ (rfl | hr₁) a ha f hf
    · exact .inr (h.table f ((node_one_eq_child ha).symm.trans hf)).1
    · exact ho.pdp r₁ hr₁ a ha f hf
  · rintro r₁ (rfl | hr₁) a ha ℓ h2 h4 f hf
    · rcases h.node_cases ha hf with ⟨hℓ, -⟩ | ⟨hℓ, -⟩ <;> omega
    · exact ho.held r₁ hr₁ a ha ℓ h2 h4 f hf
  · rintro r₁ (rfl | hr₁) a ha ℓ h2 h3 f hf
    · -- a table beside the region of the new process is none of the others'
      obtain ⟨hfor, hin, hne, htop⟩ := h.side a ha ℓ h2 h3 f hf
      refine ⟨hfor, ?_⟩
      rintro r' (rfl | hr')
      · exact ⟨hne, fun hp => htop ((node_one_eq_child start_mem_region).symm.trans hp)⟩
      · refine ⟨?_, fun hp => hin ⟨r', hr', _, .inl start_mem_region, 1, by omega, hp⟩⟩
        rintro rfl
        exact hin ⟨f, hr', _, .inl start_mem_region, 0, by omega, rfl⟩
    · obtain ⟨hfor, hne⟩ := ho.side r₁ hr₁ a ha ℓ h2 h3 f hf
      have hin : InTables k roots f := ⟨r₁, hr₁, a, .inr ha, ℓ, h3, hf⟩
      refine ⟨hfor, ?_⟩
      rintro r' (rfl | hr')
      · refine ⟨?_, fun hp => ?_⟩
        · rintro rfl
          exact h.fresh hin
        · exact (h.table f ((node_one_eq_child start_mem_region).symm.trans hp)).2.2 hin
      · exact hne r' hr'
  · rintro r₁ (rfl | hr₁) a ha f hf
    · exact h.sidePage a ha f hf
    · exact ho.sidePage r₁ hr₁ a ha f hf

/-- Page tables may go. -/
theorem Owned.subset {roots' : Set ℕ} (h : Owned k roots) (hsub : roots' ⊆ roots) :
    Owned k roots' where
  pools := h.pools
  root r hr := h.root r (hsub hr)
  separated r hr r' hr' := h.separated r (hsub hr) r' (hsub hr')
  pdp r hr := h.pdp r (hsub hr)
  held r hr := h.held r (hsub hr)
  side r hr a ha ℓ h2 h3 f hf :=
    ⟨(h.side r (hsub hr) a ha ℓ h2 h3 f hf).1, fun r' hr' =>
      (h.side r (hsub hr) a ha ℓ h2 h3 f hf).2 r' (hsub hr')⟩
  sidePage r hr := h.sidePage r (hsub hr)

end Tables

end Petmem
