import Petmem.OnDemand
import Petmem.Ownership

/-!
# Eviction

The clock turns through the regions and clears accessed bits until it meets a page that was
not accessed; `clear_up_memory` writes that page to a swap slot and gives its frame back.

The accessed bit says nothing about what a table means: `SameMasked m m'` relates memories
whose entries agree up to it, and every walk is the same in both. `Evicted` is the effect of
`clear_up_memory` in terms of the tables: one last-level entry changes, from present to a
swap slot.
-/

namespace Petmem

open ByteMemory RadixTree Pools Swap Regions

/-- An entry without its accessed bit. -/
def Pte64.mask (e : Pte64) : Pte64 := { e with accessed := false }

/-- The entries at all aligned addresses agree up to the accessed bit. -/
def SameMasked (m m' : Mem) : Prop := ∀ x, 8 ∣ x → (readPte m' x).mask = (readPte m x).mask

/-! ## The accessed bit -/

namespace Pte64

@[simp] theorem mask_present (e : Pte64) : e.mask.present = e.present := rfl

@[simp] theorem mask_dirty (e : Pte64) : e.mask.dirty = e.dirty := rfl

@[simp] theorem mask_base (e : Pte64) : e.mask.base = e.base := rfl

theorem present_of_mask {e e' : Pte64} (h : e.mask = e'.mask) : e.present = e'.present :=
  (congrArg Pte64.present h : e.mask.present = e'.mask.present)

theorem dirty_of_mask {e e' : Pte64} (h : e.mask = e'.mask) : e.dirty = e'.dirty :=
  (congrArg Pte64.dirty h : e.mask.dirty = e'.mask.dirty)

theorem base_of_mask {e e' : Pte64} (h : e.mask = e'.mask) : e.base = e'.base :=
  (congrArg Pte64.base h : e.mask.base = e'.mask.base)

end Pte64

open Pte64

theorem frameVa_dvd (f i : ℕ) : 8 ∣ frameVa f (i * 8) := by
  unfold frameVa va pageOffset
  omega

theorem entryVa_dvd (e : Pte64) (i : ℕ) : 8 ∣ entryVa e i := by
  rw [entryVa_eq]
  exact frameVa_dvd _ _

theorem pml4eVa_dvd (cr3 a : ℕ) : 8 ∣ pml4eVa cr3 a := by
  unfold pml4eVa cr3ToPml4e64Va va pageOffset
  rw [cr3_mask_eq]
  omega

namespace SameMasked

variable {m m' m'' : Mem}

theorem refl (m : Mem) : SameMasked m m := fun _ _ => rfl

theorem trans (h : SameMasked m m') (h' : SameMasked m' m'') : SameMasked m m'' :=
  fun x hx => (h' x hx).trans (h x hx)

theorem pteAt (h : SameMasked m m') (f i : ℕ) : (pteAt m' f i).mask = (pteAt m f i).mask :=
  h _ (frameVa_dvd f i)

theorem child (h : SameMasked m m') (f i : ℕ) : child m' f i = child m f i := by
  have hm := h.pteAt f i
  unfold Petmem.child
  rw [present_of_mask hm, base_of_mask hm]

theorem walk (h : SameMasked m m') (cr3 a : ℕ) : walk m' cr3 a = walk m cr3 a := by
  have hva : ∀ x i, 8 ∣ x → entryVa (readPte m' x) i = entryVa (readPte m x) i := by
    intro x i hx
    rw [entryVa_eq, entryVa_eq, base_of_mask (h x hx)]
  have hp : ∀ x, 8 ∣ x → (readPte m' x).present = (readPte m x).present :=
    fun x hx => present_of_mask (h x hx)
  unfold Petmem.walk
  simp only [hva _ _ (pml4eVa_dvd _ _), hva _ _ (entryVa_dvd _ _), hp _ (pml4eVa_dvd _ _),
    hp _ (entryVa_dvd _ _)]

end SameMasked

/-- Rewriting the accessed bit of an entry. -/
theorem sameMasked_writePte {m : Mem} {x : ℕ} (hx : 8 ∣ x) (b : Bool) :
    SameMasked m (writePte m x { readPte m x with accessed := b }) := by
  intro y hy
  by_cases hxy : y = x
  · subst hxy
    have : readPte (writePte m y { readPte m y with accessed := b }) y
        = { readPte m y with accessed := b } := by
      unfold readPte writePte
      rw [read64_write64_same, Pte64.ofBits_toBits]
    rw [this]
    rfl
  · have : readPte (writePte m x { readPte m x with accessed := b }) y = readPte m y := by
      unfold writePte
      unfold readPte
      rw [read64_write64_disjoint]
      omega
    rw [this]

/-! ## The clock -/

namespace OnDemand

/-- The frame of the last-level table of some petmem address. -/
def IsLeafTable (m : Mem) (r f : ℕ) : Prop := ∃ a ∈ Region, tableNode m r a 3 = some f

theorem frameVa_ne_zero {f i : ℕ} (hf : f < frameLimit) (hi : i < 4096) : frameVa f i ≠ 0 := by
  rw [frameVa_eq hf hi]
  unfold pageOffset
  omega

/-- `get_valid_page_entry` of a petmem address, in terms of the lookup. -/
theorem getValidPageEntry_of_none {m : Mem} {cr3 a : ℕ} (h0 : tableIndex a 0 = 0)
    (h : tableNode m (rootFrame cr3) a 4 = none) : getValidPageEntry m cr3 a = 0 := by
  unfold getValidPageEntry
  rw [walk_of_node_none h0 h]

theorem getValidPageEntry_of_some {m : Mem} {cr3 a f g : ℕ} (h0 : tableIndex a 0 = 0)
    (h3 : tableNode m (rootFrame cr3) a 3 = some f)
    (h4 : tableNode m (rootFrame cr3) a 4 = some g) :
    getValidPageEntry m cr3 a = frameVa f (tableIndex a 3 * 8) := by
  obtain ⟨f₁, h1⟩ := exists_node_of_le h3 (show 1 ≤ 3 by omega)
  obtain ⟨f₂, h2⟩ := exists_node_of_le h3 (show 2 ≤ 3 by omega)
  unfold getValidPageEntry
  rw [walk_of_node h0 h1 h2 h3 h4]

/-- The page at a petmem address has an entry exactly when the lookup reaches a frame. -/
theorem getValidPageEntry_cases {k : Kern} {roots : Set ℕ} {cr3 a : ℕ} (h : Owned k roots)
    (hr : rootFrame cr3 ∈ roots) (ha : a ∈ Region) :
    (getValidPageEntry k.mem cr3 a = 0 ∧ tableNode k.mem (rootFrame cr3) a 4 = none) ∨
    ∃ f g, getValidPageEntry k.mem cr3 a = frameVa f (tableIndex a 3 * 8) ∧
      frameVa f (tableIndex a 3 * 8) ≠ 0 ∧ tableNode k.mem (rootFrame cr3) a 3 = some f ∧
      tableNode k.mem (rootFrame cr3) a 4 = some g := by
  have h0 := region_index_zero ha
  cases h4 : tableNode k.mem (rootFrame cr3) a 4 with
  | none => exact .inl ⟨getValidPageEntry_of_none h0 h4, rfl⟩
  | some g =>
    obtain ⟨f, h3⟩ := exists_node_of_le h4 (show 3 ≤ 4 by omega)
    have hi := tableIndex_lt a 3
    exact .inr ⟨f, g, getValidPageEntry_of_some h0 h3 h4,
      frameVa_ne_zero (h.lt_limit hr ha (by omega) h3) (by omega), h3, rfl⟩

/-- What one turn of the clock does: accessed bits of last-level entries are cleared, and
the victim, if there is one, is the present first page of a region. -/
structure Turned (cr3 : ℕ) (A : Set ℕ) (m m' : Mem) (v : Option Victim) : Prop where
  masked : SameMasked m m'
  bytes : ∀ x, (∀ f, IsLeafTable m (rootFrame cr3) f → ∀ i < 4096, x ≠ frameVa f i) → m' x = m x
  victim : ∀ w, v = some w → ∃ a ∈ A, ∃ f g, tableNode m (rootFrame cr3) a 3 = some f ∧
    tableNode m (rootFrame cr3) a 4 = some g ∧ w.page = frameVa f (tableIndex a 3 * 8) ∧
    w.mem = va (g * 4096 + physicalOffset a)

theorem tableNode_of_masked {m m' : Mem} (h : SameMasked m m') (r a ℓ : ℕ) :
    tableNode m' r a ℓ = tableNode m r a ℓ :=
  node_eq_of_eq (d := ℓ) (fun _ _ f _ => h.child f _) (le_refl _)

theorem owned_of_masked {k : Kern} {roots : Set ℕ} {m' : Mem} {r : ℕ} (h : Owned k roots)
    (hr : r ∈ roots) (hm : SameMasked k.mem m')
    (hb : ∀ x, (∀ f, IsLeafTable k.mem r f → ∀ i < 4096, x ≠ frameVa f i) → m' x = k.mem x) :
    Owned { k with mem := m' } roots := by
  refine (h.of_eq (h.pools.of_mem fun x hx => hb x ?_) (SamePools.of_eq rfl)
    (fun r _ a _ ℓ _ f _ => hm.child f _) fun _ _ _ _ _ _ _ _ _ => held_with_mem.2).1
  rintro f ⟨a, ha, hf⟩ i hi
  exact hx f i (h.kept hr ha (by omega) hf) hi

theorem clockScan_spec {cr3 : ℕ} (hand : Option ℕ) {roots : Set ℕ} {A : Set ℕ}
    (hr : rootFrame cr3 ∈ roots) (hA : A ⊆ Region) (items : List (Option ℕ × VaddrReg)) :
    ∀ k : Kern, Owned k roots →
      (∀ it ∈ items, it.2.pageAddr ∈ A ∨ walk k.mem cr3 it.2.pageAddr = none) →
      Turned cr3 A k.mem (clockScan cr3 hand items k.mem).1 (clockScan cr3 hand items k.mem).2 := by
  induction items with
  | nil => exact fun k _ _ => ⟨SameMasked.refl _, fun _ _ => rfl, fun _ h => by cases h⟩
  | cons it rest ih =>
    obtain ⟨ptr, entry⟩ := it
    intro k h hit
    have hrest : ∀ it ∈ rest, it.2.pageAddr ∈ A ∨ walk k.mem cr3 it.2.pageAddr = none :=
      fun it hm => hit it (List.mem_cons_of_mem _ hm)
    -- an entry that leads to no page is passed over
    have hskip : getValidPageEntry k.mem cr3 entry.pageAddr = 0 →
        clockScan cr3 hand ((ptr, entry) :: rest) k.mem = clockScan cr3 hand rest k.mem := by
      intro hz
      rw [clockScan]
      simp [hz]
    rcases hit (ptr, entry) List.mem_cons_self with ha | hnone
    · rcases getValidPageEntry_cases h hr (hA ha) with ⟨hz, -⟩ | ⟨f, g, hva, hne, h3, h4⟩
      · rw [hskip hz]
        exact ih k h hrest
      · rw [clockScan]
        simp only [hva, hne, ne_eq, not_false_eq_true, if_true]
        by_cases hacc : (readPte k.mem (frameVa f (tableIndex entry.pageAddr 3 * 8))).accessed
        · -- a second chance
          simp only [hacc, if_true]
          set m₁ := writePte k.mem (frameVa f (tableIndex entry.pageAddr 3 * 8))
            { readPte k.mem (frameVa f (tableIndex entry.pageAddr 3 * 8)) with accessed := false }
            with hm₁
          have hmask : SameMasked k.mem m₁ := sameMasked_writePte (frameVa_dvd _ _) _
          have hbytes : ∀ x, (∀ f, IsLeafTable k.mem (rootFrame cr3) f →
              ∀ i < 4096, x ≠ frameVa f i) → m₁ x = k.mem x := fun x hx =>
            (entrySet_writePte k.mem _ (h.lt_limit hr (hA ha) (by omega) h3)
              (tableIndex_lt _ _)).bytes x fun j hj => hx f ⟨_, hA ha, h3⟩ j hj
          -- the rest of the scan starts from tables that walk the same way
          have hturn := ih { k with mem := m₁ } (owned_of_masked h hr hmask hbytes) fun it hm => by
            rw [hmask.walk]
            exact hrest it hm
          have hleaf : ∀ c,
              IsLeafTable m₁ (rootFrame cr3) c ↔ IsLeafTable k.mem (rootFrame cr3) c :=
            fun c => by
              unfold IsLeafTable
              simp only [tableNode_of_masked hmask]
          refine ⟨hmask.trans hturn.masked, fun x hx => ?_, fun w hw => ?_⟩
          · rw [← hbytes x hx]
            exact hturn.bytes x fun c hc => hx c ((hleaf c).1 hc)
          · obtain ⟨a, haA, c, d, hc, hd, hrest⟩ := hturn.victim w hw
            refine ⟨a, haA, c, d, ?_, ?_, hrest⟩
            · rw [← hc]
              exact (tableNode_of_masked hmask _ _ _).symm
            · rw [← hd]
              exact (tableNode_of_masked hmask _ _ _).symm
        · -- the victim
          simp only [hacc, Bool.false_eq_true, if_false]
          refine ⟨SameMasked.refl _, fun _ _ => rfl, fun w hw => ?_⟩
          rw [← Option.some.inj hw]
          refine ⟨_, ha, f, g, h3, h4, rfl, ?_⟩
          have hg : (readPte k.mem (frameVa f (tableIndex entry.pageAddr 3 * 8))).base = g :=
            (child_eq_some.1 ((node_succ_of_eq h3).symm.trans h4)).2
          dsimp only
          rw [hg, Nat.shiftLeft_eq]
    · rw [hskip (by unfold getValidPageEntry; rw [hnone])]
      exact ih k h hrest

/-! ## The ring -/

/-- Where the hand is on the list, the ring starts behind it. -/
theorem ringAfter_eq_some {head : VaddrReg} {l : List VaddrReg} {hand : ℕ}
    {ring : List (Option ℕ × VaddrReg)} (h : ringAfter head l (some hand) = some ring) :
    ∃ pre y post, l = pre ++ y :: post ∧ y.node = hand ∧
      ring = post.map (fun r => (some r.node, r)) ++ (none, head) ::
        pre.map fun r => (some r.node, r) := by
  simp only [ringAfter, List.span_eq_takeWhile_dropWhile] at h
  have hl := List.takeWhile_append_dropWhile (p := fun x : VaddrReg => decide (x.node ≠ hand))
    (l := l)
  have hfirst := List.head?_dropWhile_not (fun x : VaddrReg => decide (x.node ≠ hand)) l
  generalize l.takeWhile (fun x : VaddrReg => decide (x.node ≠ hand)) = pre at h hl
  generalize l.dropWhile (fun x : VaddrReg => decide (x.node ≠ hand)) = rest at h hl hfirst
  cases rest with
  | nil => cases h
  | cons y post =>
    refine ⟨pre, y, post, hl.symm, ?_, (Option.some.inj h).symm⟩
    simpa using hfirst

/-- The clock passes the nodes of the list and the list head, nothing else. -/
theorem mem_of_ringAfter {head : VaddrReg} {l : List VaddrReg} {hand : Option ℕ}
    {ring : List (Option ℕ × VaddrReg)} (h : ringAfter head l hand = some ring)
    {it : Option ℕ × VaddrReg} (hit : it ∈ ring) :
    (it.2 ∈ l ∧ it.1 = some it.2.node) ∨ it = (none, head) := by
  cases hand with
  | none =>
    cases h
    obtain ⟨x, hx, rfl⟩ := List.mem_map.1 hit
    exact .inl ⟨hx, rfl⟩
  | some hand =>
    obtain ⟨pre, y, post, rfl, -, rfl⟩ := ringAfter_eq_some h
    rcases List.mem_append.1 hit with hit | hit
    · obtain ⟨x, hx, rfl⟩ := List.mem_map.1 hit
      exact .inl ⟨by simp [hx], rfl⟩
    · rcases List.mem_cons.1 hit with rfl | hit
      · exact .inr rfl
      · obtain ⟨x, hx, rfl⟩ := List.mem_map.1 hit
        exact .inl ⟨by simp [hx], rfl⟩

/-- The list head, read as a region, does not resolve to a present page. -/
def HeadAbsent (env : Env) (m : Mem) : Prop := walk m env.cr3 env.head.pageAddr = none

/-- The addresses of the regions of a list. -/
def starts (l : List VaddrReg) : Set ℕ := { a | ∃ reg ∈ l, reg.pageAddr = a }

theorem starts_subset {l : List VaddrReg} (h : Partition l) : starts l ⊆ Region := by
  rintro a ⟨reg, hreg, rfl⟩
  exact ⟨(h.spans.bounds hreg).1, h.starts reg hreg⟩

theorem starts_dvd {l : List VaddrReg} (h : Partition l) {a : ℕ} (ha : a ∈ starts l) :
    4096 ∣ a := by
  obtain ⟨reg, hreg, rfl⟩ := ha
  exact h.spans.dvd (by decide) hreg

/-- What a call of `page_replacement_clock` comes back with. -/
structure Chosen (env : Env) (s : State) (v : Victim) (s' : State) : Prop where
  turned : Turned env.cr3 (starts s.map.memoryAllocations) s.mem s'.mem (some v)
  kern : s'.toKern = { s.toKern with mem := s'.mem }
  list : s'.map.memoryAllocations = s.map.memoryAllocations
  swap : s'.map.swap = s.map.swap

variable {env : Env} {s s' : State} {roots : Set ℕ}

theorem pageReplacementClock_spec (h : Owned s.toKern roots) (hr : rootFrame env.cr3 ∈ roots)
    (hl : Partition s.map.memoryAllocations) (hhead : HeadAbsent env s.mem) {v : Victim}
    (hrun : pageReplacementClock env s = .ok (v, s')) : Chosen env s v s' := by
  unfold pageReplacementClock at hrun
  cases hring : ringAfter env.head s.map.memoryAllocations s.map.clockHand with
  | none => rw [hring] at hrun; cases hrun
  | some ring =>
    rw [hring] at hrun
    -- an item is a region's start or the list head, before and after the first turn
    have hitems : ∀ m, SameMasked s.mem m → ∀ it ∈ ring,
        it.2.pageAddr ∈ starts s.map.memoryAllocations ∨ walk m env.cr3 it.2.pageAddr = none := by
      intro m hm it hit
      rcases mem_of_ringAfter hring hit with ⟨hmem, -⟩ | rfl
      · exact .inl ⟨_, hmem, rfl⟩
      · exact .inr ((hm.walk _ _).trans hhead)
    have hturn := clockScan_spec s.map.clockHand hr (starts_subset hl) ring s.toKern h
      (hitems _ (SameMasked.refl _))
    rcases hfirst : clockScan env.cr3 s.map.clockHand ring s.mem with ⟨m₁, _ | v₁⟩
    · rw [hfirst] at hturn
      -- nothing was chosen in the first turn, which only cleared accessed bits
      have hown : Owned { s.toKern with mem := m₁ } roots :=
        owned_of_masked h hr hturn.masked hturn.bytes
      have hturn' := clockScan_spec s.map.clockHand hr (starts_subset hl) ring _ hown
        (hitems _ hturn.masked)
      rcases hsecond : clockScan env.cr3 s.map.clockHand ring m₁ with ⟨m₂, _ | v₂⟩
      · simp only [hfirst, hsecond] at hrun
        cases hrun
      · simp only [hfirst, hsecond] at hrun
        obtain ⟨rfl, rfl⟩ := Prod.mk.inj (Except.ok.inj hrun)
        simp only [hsecond] at hturn'
        refine ⟨⟨hturn.masked.trans hturn'.masked, fun x hx => ?_, fun w hw => ?_⟩, rfl, rfl, rfl⟩
        · rw [← hturn.bytes x hx]
          refine hturn'.bytes x fun f hf => hx f ?_
          unfold IsLeafTable at hf ⊢
          simpa only [tableNode_of_masked hturn.masked] using hf
        · obtain ⟨a, ha, f, g, h3, h4, hrest⟩ := hturn'.victim w hw
          rw [tableNode_of_masked hturn.masked] at h3 h4
          exact ⟨a, ha, f, g, h3, h4, hrest⟩
    · simp only [hfirst] at hrun hturn
      obtain ⟨rfl, rfl⟩ := Prod.mk.inj (Except.ok.inj hrun)
      exact ⟨hturn, rfl, rfl, rfl⟩

/-! ## `clear_up_memory` -/

/-- The entry of a page that is swapped out to `slot`. -/
def swappedOut (e : Pte64) (slot : ℕ) : Pte64 :=
  { e with present := false, dirty := true, pageBaseAddr := BitVec.ofNat 40 slot }

/-- The effect of `clear_up_memory`: the page at `v`, with its entry in the table in frame
`f`, leaves frame `g` for the swap slot `slot`. -/
structure Evicted (roots : Set ℕ) (r : ℕ) (s s' : State) (v f g slot : ℕ) : Prop where
  before : Owned s.toKern roots
  root : r ∈ roots
  region : v ∈ Region
  addr : v ∈ starts s.map.memoryAllocations
  table : tableNode s.mem r v 3 = some f
  page : tableNode s.mem r v 4 = some g
  entry : (pteAt s'.mem f (tableIndex v 3)).mask
    = swappedOut (pteAt s.mem f (tableIndex v 3)).mask slot
  others : ∀ f' i, Kept s'.toKern f' → i < 512 → ¬ (f' = f ∧ i = tableIndex v 3) →
    (pteAt s'.mem f' i).mask = (pteAt s.mem f' i).mask
  frames : ∀ f', Kept s'.toKern f' → ¬ IsLeafTable s.mem r f' → SameFrame s.mem s'.mem f'
  swap : ∃ page : ℕ → Byte, (∀ i < 4096, page i = s.mem (frameVa g i)) ∧
    OutCase 0 page s.map.swap s.file (slot, s'.map.swap, s'.file)
  out : s'.outstanding = s.outstanding.erase (g * 4096)
  gone : ¬ Held s'.toKern g
  free : HasFree s'.toKern
  pools : SamePools s.toKern s'.toKern
  list : s'.map.memoryAllocations = s.map.memoryAllocations
  owned : Owned s'.toKern roots

/-- A present last-level entry is cleared: its frame is in no table any more. -/
theorem loose_of_cleared {k : Kern} {r a f g : ℕ} {e : Pte64} {m' : Mem} (h : Owned k roots)
    (hset : EntrySet k.mem f (tableIndex a 3) e m') (hr : r ∈ roots) (ha : a ∈ Region)
    (h3 : tableNode k.mem r a 3 = some f) (h4 : tableNode k.mem r a 4 = some g)
    (he : e.present = false) : Loose { k with mem := m' } roots g := by
  have hupd := h.slotUpdate hset hr ha (show 3 < 4 by omega) h3
  rw [he, if_neg (by simp)] at hupd
  intro r' hr' a' ha' ℓ hℓ hg
  have hold := hupd.node_le_of_none (by omega) hr' ha' hℓ hg
  obtain ⟨rfl, rfl, hp⟩ := h.separated r' hr' r hr a' ha' a ha ℓ hℓ 4 (le_refl _) g hold h4
  have := hupd.node_cleared hr ha' (show 3 < 4 by omega) hp (show 3 < 4 by omega)
  exact absurd (this.symm.trans hg) (by simp)

theorem physicalOffset_of_dvd {a : ℕ} (h : 4096 ∣ a) : physicalOffset a = 0 := by
  unfold physicalOffset
  rw [show 0xfff = 2 ^ 12 - 1 from rfl, Nat.and_two_pow_sub_one_eq_mod]
  omega

/-- The page at `v` that the clock has picked: its entry in the table in frame `f` refers to frame
`g`, and the clock has left the memory `m₁`. -/
structure Picked (roots : Set ℕ) (r : ℕ) (s : State) (m₁ : Mem) (v f g : ℕ) : Prop where
  before : Owned s.toKern roots
  root : r ∈ roots
  region : v ∈ Region
  addr : v ∈ starts s.map.memoryAllocations
  table : tableNode s.mem r v 3 = some f
  page : tableNode s.mem r v 4 = some g
  masked : SameMasked s.mem m₁
  owned : Owned { s.toKern with mem := m₁ } roots
  frames : ∀ c < frameLimit, ¬ IsLeafTable s.mem r c → SameFrame s.mem m₁ c

theorem Chosen.picked (h : Owned s.toKern roots) (hr : rootFrame env.cr3 ∈ roots)
    (hl : Partition s.map.memoryAllocations) {s₁ : State} {w : Victim}
    (hchosen : Chosen env s w s₁) :
    ∃ v f g, Picked roots (rootFrame env.cr3) s s₁.mem v f g ∧
      w.page = frameVa f (tableIndex v 3 * 8) ∧ w.mem = va (g * 4096) := by
  obtain ⟨v, hv, f, g, h3, h4, hpage, hmem⟩ := hchosen.turned.victim _ rfl
  have hmask := hchosen.turned.masked
  rw [physicalOffset_of_dvd (starts_dvd hl hv), Nat.add_zero] at hmem
  refine ⟨v, f, g, ⟨h, hr, starts_subset hl hv, hv, h3, h4, hmask,
    owned_of_masked h hr hmask hchosen.turned.bytes, fun c hlt hleaf i hi => ?_⟩, hpage, hmem⟩
  -- only bytes of last-level tables are written
  refine hchosen.turned.bytes _ fun c' ⟨a, ha, hac⟩ j hj heq => ?_
  exact hleaf ⟨a, ha, (frameVa_inj hlt hi (h.lt_limit hr ha (by omega) hac) hj heq).1 ▸ hac⟩

namespace Picked

variable {r v f g slot : ℕ} {m₁ m₂ : Mem}

theorem held (h : Picked roots r s m₁ v f g) : Held s.toKern g :=
  h.before.held _ h.root v h.region 4 (by omega) (le_refl _) g h.page

theorem table_held (h : Picked roots r s m₁ v f g) : Held s.toKern f :=
  h.before.held _ h.root v h.region 3 (by omega) (by omega) f h.table

theorem page_lt (h : Picked roots r s m₁ v f g) : g < frameLimit :=
  h.before.lt_limit h.root h.region (le_refl _) h.page

theorem table_lt (h : Picked roots r s m₁ v f g) : f < frameLimit :=
  h.before.lt_limit h.root h.region (by omega) h.table

/-- The frame of the page is no table. -/
theorem not_isLeafTable (h : Picked roots r s m₁ v f g) : ¬ IsLeafTable s.mem r g := by
  rintro ⟨a, ha, hag⟩
  have := (h.before.separated _ h.root _ h.root a ha v h.region 3 (by omega) 4 (le_refl _) g hag
    h.page).2.1
  omega

theorem table_ne (h : Picked roots r s m₁ v f g) : f ≠ g := by
  rintro rfl
  exact h.not_isLeafTable ⟨v, h.region, h.table⟩

/-- When the entry is cleared, the frame of the page is in no table any more. -/
theorem cleared (h : Picked roots r s m₁ v f g) {e : Pte64}
    (hset : EntrySet m₁ f (tableIndex v 3) e m₂) (he : e.present = false) :
    Owned { s.toKern with mem := m₂ } roots ∧ Loose { s.toKern with mem := m₂ } roots g := by
  have h3 : tableNode m₁ r v 3 = some f := (tableNode_of_masked h.masked _ _ _).trans h.table
  have h4 : tableNode m₁ r v 4 = some g := (tableNode_of_masked h.masked _ _ _).trans h.page
  have hloose := loose_of_cleared h.owned hset h.root h.region h3 h4 he
  refine ⟨(h.owned.write_le hset (.inl (held_with_mem.2 h.table_held)) fun hp => ?_).congr
    rfl rfl rfl, hloose⟩
  rw [he] at hp
  cases hp

/-- The bytes that are written out are those of the page. -/
theorem bytes (h : Picked roots r s m₁ v f g) {e : Pte64}
    (hset : EntrySet m₁ f (tableIndex v 3) e m₂) :
    ∀ i < 4096, m₂ (va (g * 4096) + i) = s.mem (frameVa g i) := by
  intro i hi
  have hlt := h.page_lt
  have hva : va (g * 4096) + i = frameVa g i := by
    have h0 := frameVa_eq hlt (show 0 < 4096 by omega)
    have hi0 := frameVa_eq hlt hi
    unfold frameVa at h0 hi0 ⊢
    rw [Nat.add_zero] at h0
    omega
  rw [hva]
  exact ((h.frames g hlt h.not_isLeafTable).trans (hset.frames g hlt h.table_ne.symm)) i hi

/-- The entry of the page is cleared (`m₂`), its frame freed (`k₃`), and the entry made to name the
slot (`m₄`). -/
theorem evicted (h : Picked roots r s m₁ v f g) {m₄ : Mem} {k₃ : Kern} {swap' : SwapSpace}
    {file' : SwapFile} {hand : Option ℕ}
    (hset₂ : EntrySet m₁ f (tableIndex v 3)
      { pteAt m₁ f (tableIndex v 3) with present := false, dirty := true } m₂)
    (hout : swapOutPage 0 (fun i => m₂ (va (g * 4096) + i)) s.map.swap s.file
      = .ok (slot, swap', file'))
    (hfreed : Freed { s.toKern with mem := m₂, file := file' } g k₃)
    (hset₄ : EntrySet k₃.mem f (tableIndex v 3)
      { pteAt k₃.mem f (tableIndex v 3) with pageBaseAddr := BitVec.ofNat 40 slot } m₄) :
    Evicted roots r s ⟨{ k₃ with mem := m₄ }, { s.map with clockHand := hand, swap := swap' }⟩
      v f g slot := by
  have hi := tableIndex_lt v 3
  obtain ⟨hown₂, hloose⟩ := h.cleared hset₂ rfl
  have hown₂ : Owned { s.toKern with mem := m₂, file := file' } roots := hown₂.congr rfl rfl rfl
  -- the frame goes back to its pool, and the table stays
  have hown₃ := (hown₂.free (h.held.congr rfl) hfreed fun r hr a ha ℓ hℓ => hloose r hr a ha ℓ hℓ).1
  have hf₃ : Held k₃ f := by
    have hne := h.table_ne
    unfold Held
    rw [hfreed.out]
    exact (List.mem_erase_of_ne (by omega)).2 h.table_held
  have hpte₃ : pteAt k₃.mem f (tableIndex v 3) = pteAt m₂ f (tableIndex v 3) :=
    (hfreed.frames f (.inl hf₃)).pteAt h.table_lt hi
  have hkept₃ : ∀ f', Kept { k₃ with mem := m₄ } f' → Kept k₃ f' ∧ f' < frameLimit := by
    intro f' hf'
    have hf'' : Kept k₃ f' := hf'.congr rfl rfl
    exact ⟨hf'', hown₃.pools.kept_lt hf''⟩
  have hcases : OutCase 0 (fun i => m₂ (va (g * 4096) + i)) s.map.swap s.file
      (slot, swap', k₃.file) := by
    have hfile : k₃.file = file' := hfreed.file
    rw [hfile]
    exact swapOutPage_cases hout
  refine ⟨h.before, h.root, h.region, h.addr, h.table, h.page, ?_, fun f' i hf' hi' hne => ?_,
    fun f' hf' hleaf => ?_, ⟨_, h.bytes hset₂, hcases⟩, hfreed.out,
    fun hh => hfreed.gone (hh.congr rfl), hfreed.free.congr rfl, hfreed.pools.congr rfl rfl, rfl,
    hown₃.write_le hset₄ (.inl hf₃) fun hp => ?_⟩
  · rw [← h.masked.pteAt f (tableIndex v 3), show (pteAt m₄ f (tableIndex v 3)) = _ from
      hset₄.entry, hpte₃, hset₂.entry]
    rfl
  · obtain ⟨hf', hlt'⟩ := hkept₃ f' hf'
    rw [← h.masked.pteAt f' i, ← hset₂.others f' i hlt' hi' hne,
      ← (hfreed.frames f' hf').pteAt hlt' hi', ← hset₄.others f' i hlt' hi' hne]
  · obtain ⟨hf', hlt'⟩ := hkept₃ f' hf'
    have hne : f' ≠ f := by
      rintro rfl
      exact hleaf ⟨v, h.region, h.table⟩
    exact (((h.frames f' hlt' hleaf).trans (hset₂.frames f' hlt' hne)).trans
      (hfreed.frames f' hf')).trans (hset₄.frames f' hlt' hne)
  · -- naming a slot does not make the entry present
    have hp' : (pteAt k₃.mem f (tableIndex v 3)).present = true := hp
    rw [hpte₃, hset₂.entry] at hp'
    cases hp'

end Picked

/-- `clear_up_memory` returns when the clock and `swap_out_page` do. -/
theorem clearUpMemory_of_chosen (h : Owned s.toKern roots) (hr : rootFrame env.cr3 ∈ roots)
    (hl : Partition s.map.memoryAllocations) {s₁ : State} {w : Victim}
    (hclock : pageReplacementClock env s = .ok (w, s₁)) (hchosen : Chosen env s w s₁)
    (hswap : ∃ res, swapOutPage 0 (fun i => markSwapped s₁.mem w.page (w.mem + i)) s.map.swap
      s.file = .ok res) :
    ∃ s' v f g slot, clearUpMemory env s = .ok s' ∧ w.page = frameVa f (tableIndex v 3 * 8) ∧
      Evicted roots (rootFrame env.cr3) s s' v f g slot := by
  obtain ⟨v, f, g, hp, hpage, hmem⟩ := hchosen.picked h hr hl
  have hi := tableIndex_lt v 3
  obtain ⟨page, mem, next⟩ := w
  simp only at hpage hmem
  subst hpage hmem
  -- the clock changes memory and the hand alone
  obtain ⟨⟨m₁, pools₁, file₁, out₁⟩, ⟨list₁, hand₁, swap₁⟩⟩ := s₁
  obtain ⟨rfl, rfl, rfl⟩ : pools₁ = s.pools ∧ file₁ = s.file ∧ out₁ = s.outstanding := by
    have := hchosen.kern
    simpa using this
  obtain rfl : swap₁ = s.map.swap := hchosen.swap
  obtain rfl : list₁ = s.map.memoryAllocations := hchosen.list
  obtain ⟨m₂, hm₂, hset₂⟩ : ∃ m₂, m₂ = markSwapped m₁ (frameVa f (tableIndex v 3 * 8)) ∧
      EntrySet m₁ f (tableIndex v 3)
        { pteAt m₁ f (tableIndex v 3) with present := false, dirty := true } m₂ :=
    ⟨_, rfl, entrySet_writePte m₁ _ hp.table_lt hi⟩
  obtain ⟨⟨slot, swap', file'⟩, hout⟩ := hswap
  simp only [← hm₂] at hout
  have hown₂ : Owned { s.toKern with mem := m₂, file := file' } roots :=
    (hp.cleared hset₂ rfl).1.congr rfl rfl rfl
  obtain ⟨k₃, hfree, hfreed⟩ := petmemFreePages_spec hown₂.pools (hp.held.congr rfl)
  have hrun : clearUpMemory env s = .ok
      ⟨{ k₃ with mem := setBase k₃.mem (frameVa f (tableIndex v 3 * 8)) slot },
        { s.map with clockHand := hand₁, swap := swap' }⟩ := by
    have hpa : pa (va (g * 4096)) = g * 4096 := by
      have hlt := hp.page_lt
      unfold frameLimit at hlt
      exact pa_va (by omega)
    unfold clearUpMemory
    rw [hclock]
    dsimp only [bind, Except.bind]
    rw [← hm₂, hout]
    dsimp only
    rw [hpa, hfree]
    rfl
  exact ⟨_, v, f, g, slot, hrun, rfl,
    hp.evicted hset₂ hout hfreed (entrySet_writePte k₃.mem _ hp.table_lt hi)⟩

namespace Evicted

variable {r v f g slot : ℕ}

theorem kept (h : Evicted roots r s s' v f g slot) {c : ℕ} (hc : Kept s.toKern c)
    (hne : c ≠ g) : Kept s'.toKern c := by
  refine hc.imp (fun hh => ?_) h.pools.foreign_iff.2
  unfold Held
  rw [h.out]
  exact (List.mem_erase_of_ne (by omega)).2 hh

/-- In the tables the eviction clears one last-level entry. -/
theorem slotUpdate (h : Evicted roots r s s' v f g slot) :
    SlotUpdate tableIndex (child s.mem) (child s'.mem) roots Region 4 r v 3 none := by
  refine h.before.separated.slotUpdate h.root h.region (by omega) h.table ?_
    fun r' hr' a ha ℓ hℓ c hc hne => ?_
  · rw [child_eq_none, ← mask_present, h.entry]
    rfl
  · have hcg : c ≠ g := by
      rintro rfl
      have := (h.before.separated r' hr' r h.root a ha v h.region ℓ (by omega) 4 (le_refl _) c hc
        h.page).2.1
      omega
    have hm := h.others c _ (h.kept (h.before.kept hr' ha (by omega) hc) hcg) (tableIndex_lt _ _)
      hne
    unfold child
    rw [present_of_mask hm, base_of_mask hm]

theorem node_table (h : Evicted roots r s s' v f g slot) {r' a ℓ : ℕ} (hr' : r' ∈ roots)
    (ha : a ∈ Region) (hℓ : ℓ ≤ 3) : tableNode s'.mem r' a ℓ = tableNode s.mem r' a ℓ :=
  h.slotUpdate.node_eq hr' ha (by omega) (by omega)

end Evicted

/-- The eviction takes the page the clock picks. -/
theorem clearUpMemory_picks (h : Owned s.toKern roots) (hr : rootFrame env.cr3 ∈ roots)
    (hl : Partition s.map.memoryAllocations) (hhead : HeadAbsent env s.mem)
    (hrun : clearUpMemory env s = .ok s') :
    ∃ w s₁ v f g slot, pageReplacementClock env s = .ok (w, s₁) ∧
      w.page = getValidPageEntry s.mem env.cr3 v ∧
      Evicted roots (rootFrame env.cr3) s s' v f g slot := by
  have hrun' := hrun
  unfold clearUpMemory at hrun'
  obtain ⟨⟨w, s₁⟩, hclock, hrest⟩ := bind_eq_ok.1 hrun'
  have hchosen := pageReplacementClock_spec h hr hl hhead hclock
  obtain ⟨res, hout, -⟩ := bind_eq_ok.1 hrest
  rw [hchosen.swap, show s₁.file = s.file by rw [hchosen.kern]] at hout
  obtain ⟨s'', v, f, g, slot, hok, hpage, hev⟩ :=
    clearUpMemory_of_chosen h hr hl hclock hchosen ⟨res, hout⟩
  obtain rfl := Except.ok.inj (hrun.symm.trans hok)
  refine ⟨w, s₁, v, f, g, slot, hclock, ?_, hev⟩
  rw [hpage, getValidPageEntry_of_some (region_index_zero hev.region) hev.table hev.page]

/-- The effect of a call of `clear_up_memory` that returns. -/
theorem clearUpMemory_spec (h : Owned s.toKern roots) (hr : rootFrame env.cr3 ∈ roots)
    (hl : Partition s.map.memoryAllocations) (hhead : HeadAbsent env s.mem)
    (hrun : clearUpMemory env s = .ok s') :
    ∃ v f g slot, Evicted roots (rootFrame env.cr3) s s' v f g slot := by
  obtain ⟨w, s₁, v, f, g, slot, -, -, hev⟩ := clearUpMemory_picks h hr hl hhead hrun
  exact ⟨v, f, g, slot, hev⟩

/-- `clear_up_memory` returns when the clock does and the swap file has room. -/
theorem clearUpMemory_of_room (h : Owned s.toKern roots) (hr : rootFrame env.cr3 ∈ roots)
    (hl : Partition s.map.memoryAllocations) (hhead : HeadAbsent env s.mem)
    (hclock : ∃ res, pageReplacementClock env s = .ok res) (hroom : HasRoom s.map.swap) :
    ∃ s', clearUpMemory env s = .ok s' := by
  obtain ⟨⟨w, s₁⟩, hclock⟩ := hclock
  have hchosen := pageReplacementClock_spec h hr hl hhead hclock
  obtain ⟨slot, swap', hout, -⟩ := swapOutPage_of_room 0
    (fun i => markSwapped s₁.mem w.page (w.mem + i)) s.file hroom
  obtain ⟨s', -, -, -, -, hok, -, -⟩ :=
    clearUpMemory_of_chosen h hr hl hclock hchosen ⟨_, hout⟩
  exact ⟨s', hok⟩

end OnDemand

end Petmem
