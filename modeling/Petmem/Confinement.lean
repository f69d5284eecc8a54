import Petmem.Isolation

/-!
# What petmem writes outside its pools

Outside the pools petmem only has business in the page tables of the process it works for: in the
entries that are met on the walk of a petmem address or, where the `int` arithmetic of a free
overflows, of an address beside the region (`OnWalk`). `Confined` says this of a change of the
shared state, and that no such entry comes up that was none before; every operation is confined.
-/

namespace Petmem

open ByteMemory RadixTree Pools

variable {k k' : Kern} {roots : Set ℕ} {r r' a b c f i n ℓ : ℕ}

/-- Entry `i` of the table in frame `c` is on the walk of a petmem address, or of an address beside
the region. -/
def OnWalk (m : Mem) (r c i : ℕ) : Prop :=
  ∃ a ∈ Region ∪ Side, ∃ ℓ < 4, tableNode m r a ℓ = some c ∧ i = tableIndex a ℓ

/-- Outside the pools only entries on walks from `r` change, and no table appears on these. -/
structure Confined (r : ℕ) (k k' : Kern) : Prop where
  pools : SamePools k k'
  entries : ∀ c, Foreign k c → ∀ i < 512, pteAt k'.mem c i = pteAt k.mem c i ∨ OnWalk k.mem r c i
  walks : ∀ a ∈ Region ∪ Side, ∀ ℓ < 4, ∀ c, Foreign k c → tableNode k'.mem r a ℓ = some c →
    tableNode k.mem r a ℓ = some c

namespace Confined

theorem refl (r : ℕ) (k : Kern) : Confined r k k :=
  ⟨.refl k, fun _ _ _ _ => .inl rfl, fun _ _ _ _ _ _ h => h⟩

theorem trans {k'' : Kern} (h : Confined r k k') (h' : Confined r k' k'') : Confined r k k'' where
  pools := h.pools.trans h'.pools
  entries c hc i hi := by
    have hc' := h.pools.foreign_iff.2 hc
    rcases h'.entries c hc' i hi with heq | ⟨a, ha, ℓ, hℓ, hn, hidx⟩
    · rw [heq]
      exact h.entries c hc i hi
    · exact .inr ⟨a, ha, ℓ, hℓ, h.walks a ha ℓ hℓ c hc hn, hidx⟩
  walks a ha ℓ hℓ c hc hn := h.walks a ha ℓ hℓ c hc
    (h'.walks a ha ℓ hℓ c (h.pools.foreign_iff.2 hc) hn)

/-- A byte that changes is in such an entry. -/
theorem byte (h : Confined r k k') (hc : Foreign k c) {j : ℕ} (hj : j < 4096)
    (hne : k'.mem (frameVa c j) ≠ k.mem (frameVa c j)) : OnWalk k.mem r c (j / 8) := by
  refine (h.entries c hc (j / 8) (by omega)).resolve_left fun heq => hne ?_
  have hbyte := byte_eq_of_pteAt hc.1 (by omega) heq (show j % 8 < 8 by omega)
  rwa [show j / 8 * 8 + j % 8 = j by omega] at hbyte

end Confined

/-! ## Tables beside the region -/

/-- A table on the walk of an address beside the region is a table of a petmem address only at the
two levels that both share. -/
theorem Owned.side_level (h : Owned k roots) (hr : r ∈ roots) (ha : a ∈ Side) (hn : n ≤ 3)
    (hc : tableNode k.mem r a n = some c) (hr' : r' ∈ roots) (hb : b ∈ Region) (hℓ : ℓ ≤ 4)
    (hc' : tableNode k.mem r' b ℓ = some c) : n = ℓ ∧ n ≤ 1 := by
  have hle : n ≤ 1 := by
    by_contra hgt
    exact h.side_ne hr ha (by omega) hn hc hr' hb hℓ hc'
  have hstart : tableNode k.mem r petmemRegionStart n = some c := by
    rcases (show n = 0 ∨ n = 1 by omega) with rfl | rfl
    · exact hc
    · exact (side_pdp ha).symm.trans hc
  exact ⟨(h.separated r hr r' hr' _ start_mem_region b hb n (by omega) ℓ hℓ c hstart hc').2.1, hle⟩

/-- Below the top level their entries are different ones. -/
theorem Owned.side_slot_ne (h : Owned k roots) (hr : r ∈ roots) (ha : a ∈ Side) (hn : n ≤ 3)
    (hc : tableNode k.mem r a n = some c) (hr' : r' ∈ roots) (hb : b ∈ Region) (h0 : ℓ ≠ 0)
    (hℓ : ℓ ≤ 4) (hf : tableNode k.mem r' b ℓ = some f) :
    ¬ (c = f ∧ tableIndex a n = tableIndex b ℓ) := by
  rintro ⟨rfl, hidx⟩
  obtain ⟨rfl, hle⟩ := h.side_level hr ha hn hc hr' hb hℓ hf
  obtain rfl : n = 1 := by omega
  have h1 := region_index_one hb
  have h2 := side_index_one ha
  omega

/-- What has to be shown of the walks: that neither the level-3 table nor a table beside the region
is a new one. -/
theorem Owned.walks (h : Owned k' roots) (hr : r ∈ roots) (hpools : SamePools k k')
    (htop : ∀ c, child k'.mem r 0 = some c → Foreign k' c → child k.mem r 0 = some c)
    (hside : ∀ a ∈ Side, ∀ ℓ, 2 ≤ ℓ → ℓ ≤ 3 → ∀ c, tableNode k'.mem r a ℓ = some c →
      tableNode k.mem r a ℓ = some c) :
    ∀ a ∈ Region ∪ Side, ∀ ℓ < 4, ∀ c, Foreign k c → tableNode k'.mem r a ℓ = some c →
      tableNode k.mem r a ℓ = some c := by
  intro a ha ℓ hℓ c hc hn
  have hc' := hpools.foreign_iff.2 hc
  match ℓ, hn with
  | 0, hn => exact hn
  | 1, hn =>
    have hone : ∀ m : Mem, tableNode m r a 1 = child m r 0 := fun m => by
      rw [← OnDemand.index_zero ha]
      rfl
    rw [hone] at hn ⊢
    exact htop c hn hc'
  | ℓ + 2, hn =>
    rcases ha with ha | ha
    · exact absurd hc' (h.pools.not_foreign_of_held
        (h.held r hr a ha (ℓ + 2) (by omega) (by omega) c hn))
    · exact hside a ha (ℓ + 2) (by omega) (by omega) c hn

namespace OnDemand

open Swap Regions

variable {env : Env} {s s' : State} {Q : State → Prop} {g : ℕ}

/-! ## Evictions, faults and accesses -/

theorem Evicted.confined {v slot : ℕ} (h : Evicted roots r s s' v f g slot) :
    Confined r s.toKern s'.toKern := by
  -- a leaf table and a page are outstanding, so neither is outside the pools
  have hframes : ∀ {c : ℕ}, Kept s.toKern c → c ≠ g → ¬ IsLeafTable s.mem r c →
      SameFrame s.mem s'.mem c := fun hc hcg hleaf => h.frames _ (h.kept hc hcg) hleaf
  have hheld : ∀ {ℓ c : ℕ}, 2 ≤ ℓ → ℓ ≤ 4 → ∀ {b : ℕ}, b ∈ Region →
      tableNode s.mem r b ℓ = some c → ¬ Foreign s.toKern c := fun h2 h4 _ hb hn =>
    h.before.pools.not_foreign_of_held (h.before.held r h.root _ hb _ h2 h4 _ hn)
  refine ⟨h.pools, fun c hc i hi => .inl ?_, h.owned.walks h.root h.pools
    (fun c hn hc => h.steady.tops r h.root c hn hc) fun a ha ℓ h2 h3 c hn => ?_⟩
  · refine (hframes (.inr hc) ?_ ?_).pteAt hc.1 hi
    · rintro rfl
      exact hheld (by omega) (le_refl 4) h.region h.page hc
    · rintro ⟨b, hb, hleaf⟩
      exact hheld (show 2 ≤ 3 by omega) (by omega) hb hleaf hc
  · rw [← hn]
    symm
    refine node_eq_of_eq (d := 3) (fun n hn c hc => ?_) h3
    have hk := h.before.side_kept h.root ha (by omega) hc
    refine Owned.child_of_sameFrame (hframes hk ?_ ?_) (h.before.pools.kept_lt hk)
      (tableIndex_lt _ _)
    · rintro rfl
      exact h.before.table_ne_page h.root (.inr ha) (by omega) hc h.root h.region h.page
    · rintro ⟨b, hb, hleaf⟩
      have := h.before.side_level h.root ha (by omega) hc h.root hb (show 3 ≤ 4 by omega) hleaf
      omega

theorem Grown.confined {src : ℕ → Byte} {e : Pte64} (h : Grown roots r a ℓ src s s' f g e) :
    Confined r s.toKern s'.toKern := by
  have hd := h.depth
  refine ⟨h.pools, fun c hc i hi => ?_, h.owned.walks h.root h.pools
    (fun c hn hc => h.steady.tops r h.root c hn hc) fun b hb n h2 h3 c hn => ?_⟩
  · by_cases hslot : c = f ∧ i = tableIndex a ℓ
    · obtain ⟨rfl, rfl⟩ := hslot
      exact .inr ⟨a, .inl h.region, ℓ, hd, h.table, rfl⟩
    · exact .inl (h.others c i (.inr hc) hi hslot)
  · by_cases hz : ℓ = 0
    · -- the level-3 table is new, and empty
      subst hz
      have hone : tableNode s'.mem r b 1 = some g := by
        rw [Owned.side_pdp hb, ← Owned.region_pdp h.region]
        exact h.node_slot
      have htwo : tableNode s'.mem r b 2 = none := by
        rw [show tableNode s'.mem r b 2 = child s'.mem g (tableIndex b 1) from node_succ_of_eq hone,
          child_eq_none, h.pteAt_new (by omega) (tableIndex_lt _ _)]
        rfl
      cases (node_eq_none_of_le htwo h2).symm.trans hn
    · rw [← hn]
      symm
      refine node_eq_of_eq (d := 3) (fun n hn c hc => ?_) h3
      unfold child
      rw [h.others c _ (h.before.side_kept h.root hb (by omega) hc) (tableIndex_lt _ _)
        (h.before.side_slot_ne h.root hb (by omega) hc h.root h.region hz (by omega) h.table)]

theorem Eased.confined (h : Eased env roots Q s s') :
    Confined (rootFrame env.cr3) s.toKern s'.toKern := by
  rcases h with rfl | ⟨-, -, v, f, g, slot, hev⟩
  · exact .refl _ _
  · exact hev.confined

theorem Pages.confined (h : Pages env roots Q a s s') :
    Confined (rootFrame env.cr3) s.toKern s'.toKern :=
  h.induct (P := fun s' => Confined (rootFrame env.cr3) s.toKern s'.toKern) (.refl _ _)
    (fun _ _ _ _ _ _ h1 _ he => h1.trans he.confined)
    fun _ _ _ _ _ _ h1 _ hg _ => h1.trans hg.confined

theorem Faulted.confined (h : Faulted env roots Q a s s') :
    Confined (rootFrame env.cr3) s.toKern s'.toKern := by
  cases h with
  | resident hp _ => exact hp.confined
  | fresh hp _ hg => exact hp.confined.trans hg.confined
  | swapIn hp _ _ _ _ he _ hg =>
    have h1 := hp.confined.trans he.confined
    exact h1.trans hg.confined

/-- A frame of the pools is written to, and the walks stay. -/
theorem confined_of_sameNodes (hr : r ∈ roots) (hpools : s'.pools = s.pools)
    (hn : SameNodes s.toKern s'.toKern roots)
    (hframes : ∀ c, Foreign s.toKern c → SameFrame s.mem s'.mem c) :
    Confined r s.toKern s'.toKern := by
  refine ⟨.of_eq hpools, fun c hc i hi => .inl ((hframes c hc).pteAt hc.1 hi), ?_⟩
  intro a ha ℓ hℓ c _ hc
  rwa [hn r hr a ha ℓ (by omega)] at hc

theorem Accessed.confined {w : Bool} (h : Accessed roots r a w s s' f g) :
    Confined r s.toKern s'.toKern := by
  refine confined_of_sameNodes h.root h.pools h.owned_nodes.2 fun c hc => ?_
  refine h.set.frames c hc.1 ?_
  rintro rfl
  exact h.before.pools.not_foreign_of_held
    (h.before.held r h.root a h.region 3 (by omega) (by omega) c h.table) hc

theorem Written.confined {byte : Byte} (h : Written roots r a byte s s' g) :
    Confined r s.toKern s'.toKern := by
  refine confined_of_sameNodes h.root h.pools h.owned_nodes.2 fun c hc => ?_
  refine h.set.frames c hc.1 ?_
  rintro rfl
  exact h.before.pools.not_foreign_of_held
    (h.before.held r h.root a h.region 4 (by omega) (le_refl _) c h.page) hc

/-! ## Frees -/

variable {w w' : Machine} {who : Party} {j : ℕ}

end OnDemand

end Petmem
