import Petmem.Eviction

/-!
# What a page fault does

A page fault is a sequence of two kinds of changes to the page tables: a page is evicted
(`Evicted`), and a fresh frame is filled and entered into an empty slot on the path of the
faulting address (`Grown`). `Faulted` lists the ways in which `petmem_handle_pagefault` can come
back, each as such a sequence; every invariant of the handler is proved once for the two changes
and then holds of the handler.
-/

namespace Petmem
namespace OnDemand

open ByteMemory RadixTree Pools Swap Regions Pte64

/-- A fresh frame `g`, filled from `src`, is entered with the entry `e` into the slot at depth
`ℓ` on the path of `a`, in the table in frame `f`. -/
structure Grown (roots : Set ℕ) (r a ℓ : ℕ) (src : ℕ → Byte) (s s' : State) (f g : ℕ)
    (e : Pte64) : Prop where
  before : Owned s.toKern roots
  root : r ∈ roots
  region : a ∈ Region
  depth : ℓ < 4
  table : tableNode s.mem r a ℓ = some f
  empty : (pteAt s.mem f (tableIndex a ℓ)).present = false
  blank : ℓ < 3 → ∀ i < 4096, src i = 0
  fresh : ¬ Kept s.toKern g
  present : e.present = true
  base : e.base = g
  entry : pteAt s'.mem f (tableIndex a ℓ) = e
  others : ∀ f' i, Kept s.toKern f' → i < 512 → ¬ (f' = f ∧ i = tableIndex a ℓ) →
    pteAt s'.mem f' i = pteAt s.mem f' i
  frames : ∀ f', Kept s.toKern f' → f' ≠ f → SameFrame s.mem s'.mem f'
  filled : ∀ i < 4096, s'.mem (frameVa g i) = src i
  out : s'.outstanding = g * 4096 :: s.outstanding
  pools : SamePools s.toKern s'.toKern
  file : s'.file = s.file
  map : s'.map = s.map
  owned : Owned s'.toKern roots

variable {env : Env} {s s' : State} {roots : Set ℕ} {r a ℓ f g : ℕ} {src : ℕ → Byte} {e : Pte64}

/-- A page or table is entered: the frame is allocated, filled, and its entry written. -/
theorem grown_of_alloc (h : Owned s.toKern roots) (hr : r ∈ roots) (ha : a ∈ Region) (hℓ : ℓ < 4)
    (ht : tableNode s.mem r a ℓ = some f)
    (hempty : (pteAt s.mem f (tableIndex a ℓ)).present = false)
    {k : Kern} (hal : Allocated s.toKern g k) {m₁ m₂ : Mem} (hfill : FrameSet k.mem g src m₁)
    (hset : EntrySet m₁ f (tableIndex a ℓ) e m₂) (hblank : ℓ < 3 → ∀ i < 4096, src i = 0)
    (hp : e.present = true) (hb : e.base = g) :
    Grown roots r a ℓ src s { s with toKern := { k with mem := m₂ } } f g e := by
  obtain ⟨ho₁, hn₁, hl₁⟩ := h.alloc hal
  have hheld : Held k g := by
    unfold Held
    simp [hal.out]
  obtain ⟨ho₂, hn₂⟩ := ho₁.fill hfill hheld fun r hr a ha ℓ hℓ => hl₁ r hr a ha ℓ (by omega)
  have hl₂ := Owned.loose_of_sameNodes hn₂ hl₁
  have hfk := h.kept hr ha (by omega) ht
  have hflt := h.pools.kept_lt hfk
  have hne : ∀ c, Kept s.toKern c → c ≠ g := by
    rintro c hc rfl
    exact hal.fresh hc
  have hi := tableIndex_lt a ℓ
  -- kept frames are the same before the entry is written
  have hsame : ∀ c, Kept s.toKern c → SameFrame s.mem m₁ c := fun c hc =>
    (hal.frames c hc).trans (hfill.frames c (h.pools.kept_lt hc) (hne c hc))
  have ht₂ : tableNode m₁ r a ℓ = some f :=
    ((hn₂ r hr a (.inl ha) ℓ (by omega)).trans (hn₁ r hr a (.inl ha) ℓ (by omega))).trans ht
  have hempty₂ : child m₁ f (tableIndex a ℓ) = none := by
    rw [child_eq_none, (hsame f hfk).pteAt hflt hi]
    exact hempty
  have hblank₂ : ℓ < 3 → ∀ i < 512, child m₁ g i = none := by
    intro h3 i hi
    rw [child_eq_none,
      pteAt_of_zero hal.lt hi fun j hj => by rw [hfill.filled j hj, hblank h3 j hj]]
    rfl
  have ho₃ := ho₂.install hset hr ha hℓ ht₂ hempty₂ (held_with_mem.2 hheld) hl₂ hblank₂ hp hb
  refine ⟨h, hr, ha, hℓ, ht, hempty, hblank, hal.fresh, hp, hb, hset.entry,
    fun f' i hf' hi' hne' => ?_,
    fun f' hf' hne' => ?_, fun i hi' => ?_, hal.out, hal.pools.congr rfl rfl, hal.file, rfl,
    ho₃.congr rfl rfl rfl⟩
  · have hlt := h.pools.kept_lt hf'
    exact (hset.others f' i hlt hi' hne').trans ((hsame f' hf').pteAt hlt hi')
  · exact (hsame f' hf').trans (hset.frames f' (h.pools.kept_lt hf') hne')
  · rw [← hfill.filled i hi']
    exact hset.frames g hal.lt (hne f hfk).symm i hi'

namespace Grown

/-- In the tables one node is added. -/
theorem slotUpdate (h : Grown roots r a ℓ src s s' f g e) :
    SlotUpdate tableIndex (child s.mem) (child s'.mem) roots Region 4 r a ℓ (some g) := by
  refine h.before.separated.slotUpdate h.root h.region h.depth h.table ?_
    fun r' hr' a' ha' ℓ' hℓ' c hc hne => ?_
  · rw [child_eq_some, h.entry]
    exact ⟨h.present, h.base⟩
  · unfold child
    rw [h.others c _ (h.before.kept hr' ha' (by omega) hc) (tableIndex_lt _ _) hne]

theorem node_none (h : Grown roots r a ℓ src s s' f g e) :
    tableNode s.mem r a (ℓ + 1) = none := by
  rw [show tableNode s.mem r a (ℓ + 1) = child s.mem f (tableIndex a ℓ) from
    node_succ_of_eq h.table, child_eq_none]
  exact h.empty

theorem held (h : Grown roots r a ℓ src s s' f g e) : Held s'.toKern g := by
  unfold Held
  simp [h.out]

theorem kept (h : Grown roots r a ℓ src s s' f g e) {c : ℕ} (hc : Kept s.toKern c) :
    Kept s'.toKern c := by
  refine hc.imp (fun hh => ?_) h.pools.foreign_iff.2
  unfold Held
  rw [h.out]
  exact List.mem_cons_of_mem _ hh

theorem lt_limit (h : Grown roots r a ℓ src s s' f g e) : g < frameLimit :=
  h.owned.pools.held_lt h.held

/-- A new table has no entries. -/
theorem pteAt_new (h : Grown roots r a ℓ src s s' f g e) (hℓ : ℓ < 3) {i : ℕ} (hi : i < 512) :
    pteAt s'.mem g i = Pte64.zero :=
  pteAt_of_zero h.lt_limit hi fun j hj => by rw [h.filled j hj, h.blank hℓ j hj]

/-- The lookups after a frame was entered. -/
theorem node_cases (h : Grown roots r a ℓ src s s' f g e) {r' a' ℓ' : ℕ} (hr' : r' ∈ roots)
    (ha' : a' ∈ Region) (hℓ' : ℓ' ≤ 4) :
    (tableNode s'.mem r' a' ℓ' = tableNode s.mem r' a' ℓ' ∧
        ¬ (r' = r ∧ ℓ' = ℓ + 1 ∧ SamePath tableIndex (ℓ + 1) a' a)) ∨
      (tableNode s'.mem r' a' ℓ' = some g ∧ r' = r ∧ ℓ' = ℓ + 1 ∧
        SamePath tableIndex (ℓ + 1) a' a) := by
  refine node_install h.slotUpdate h.depth h.node_none (fun hlt b _ => ?_) hr' ha' hℓ'
  rw [child_eq_none, h.pteAt_new (by omega) (tableIndex_lt _ _)]
  rfl

/-- The path of the address goes one step further. -/
theorem node_slot (h : Grown roots r a ℓ src s s' f g e) :
    tableNode s'.mem r a (ℓ + 1) = some g :=
  h.slotUpdate.node_slot h.root h.region h.depth (SamePath.refl _ a)

/-- The nodes that were there stay. -/
theorem node_of_some (h : Grown roots r a ℓ src s s' f g e) {r' a' ℓ' c : ℕ} (hr' : r' ∈ roots)
    (ha' : a' ∈ Region) (hℓ' : ℓ' ≤ 4) (hc : tableNode s.mem r' a' ℓ' = some c) :
    tableNode s'.mem r' a' ℓ' = some c := by
  rcases h.node_cases hr' ha' hℓ' with ⟨heq, -⟩ | ⟨-, rfl, rfl, hp⟩
  · exact heq.trans hc
  · have hnone := h.node_none
    rw [show tableNode s.mem r' a (ℓ + 1) = tableNode s.mem r' a' (ℓ + 1) from
      (node_congr hp).symm, hc] at hnone
    cases hnone

end Grown

/-! ## Getting a frame -/

/-- The pools have no free page: the first `petmem_alloc_pages(1)` of the handler fails. -/
def OutOfFrames (k : Kern) : Prop := ∃ k', petmemAllocPages 1 k = .ok (0, k')

/-- The handler, entered for address `a` in state `s`, runs out of frames in state `s'` and turns
to `clear_up_memory`. -/
structure RunsOut (env : Env) (a : ℕ) (s s' : State) : Prop where
  range : checkAddressRange s.map.memoryAllocations a = true
  asks : Asks env a s s'
  out : OutOfFrames s'.toKern

/-- A page was evicted, in a state that satisfies `Q`, or nothing had to be done. -/
def Eased (env : Env) (roots : Set ℕ) (Q : State → Prop) (s s' : State) : Prop :=
  s' = s ∨ (Q s ∧ clearUpMemory env s = .ok s' ∧
    ∃ v f g slot, Evicted roots (rootFrame env.cr3) s s' v f g slot)

/-- What a call of the handler relies on: the tables are in order, and an eviction is only made
where the list head does not resolve to a present page. -/
structure Ready (env : Env) (roots : Set ℕ) (Q : State → Prop) (s : State) : Prop where
  owned : Owned s.toKern roots
  root : rootFrame env.cr3 ∈ roots
  list : Partition s.map.memoryAllocations
  head : ∀ s, Q s → HeadAbsent env s.mem

variable {Q : State → Prop}

namespace Eased

theorem owned (h : Eased env roots Q s s') (ho : Owned s.toKern roots) : Owned s'.toKern roots := by
  rcases h with rfl | ⟨-, -, v, f, g, slot, hev⟩
  · exact ho
  · exact hev.owned

theorem list (h : Eased env roots Q s s') : s'.map.memoryAllocations = s.map.memoryAllocations := by
  rcases h with rfl | ⟨-, -, v, f, g, slot, hev⟩
  · rfl
  · exact hev.list

theorem node_table (h : Eased env roots Q s s') {r' a ℓ : ℕ} (hr' : r' ∈ roots) (ha : a ∈ Region)
    (hℓ : ℓ ≤ 3) : tableNode s'.mem r' a ℓ = tableNode s.mem r' a ℓ := by
  rcases h with rfl | ⟨-, -, v, f, g, slot, hev⟩
  · rfl
  · exact hev.node_table hr' ha hℓ

/-- An entry that is not present is not the one that is evicted. -/
theorem pteAt_mask (h : Eased env roots Q s s') (ho : Owned s.toKern roots) {r' a ℓ f : ℕ}
    (hr' : r' ∈ roots) (ha : a ∈ Region) (hℓ : ℓ ≤ 3) (hf : tableNode s.mem r' a ℓ = some f)
    {i : ℕ} (hi : i < 512) (hp : (pteAt s.mem f i).present = false) :
    (pteAt s'.mem f i).mask = (pteAt s.mem f i).mask := by
  rcases h with rfl | ⟨-, -, v, c, g, slot, hev⟩
  · rfl
  · have hfg : f ≠ g := by
      rintro rfl
      have := (ho.separated r' hr' _ hev.root a ha v hev.region ℓ (by omega) 4 (le_refl _) f hf
        hev.page).2.1
      omega
    refine hev.others f i (hev.kept (ho.kept hr' ha (by omega) hf) hfg) hi ?_
    rintro ⟨rfl, rfl⟩
    have hchild := (node_succ_of_eq hev.table).symm.trans hev.page
    rw [(child_eq_some.1 hchild).1] at hp
    cases hp

end Eased

theorem Ready.eased (h : Ready env roots Q s) (he : Eased env roots Q s s') :
    Ready env roots Q s' :=
  ⟨he.owned h.owned, h.root, he.list ▸ h.list, h.head⟩

/-- What is ready does not depend on the condition at evictions. -/
theorem Ready.weaken {Q' : State → Prop} (h : Ready env roots Q s)
    (hhead : ∀ s, Q' s → HeadAbsent env s.mem) : Ready env roots Q' s :=
  ⟨h.owned, h.root, h.list, hhead⟩

theorem allocPage_of_some {p : ℕ} {k : Kern} (h : petmemAllocPages 1 s.toKern = .ok (p, k))
    (hp : p ≠ 0) : allocPage env s = .ok (p, { s with toKern := k }) := by
  unfold allocPage
  rw [h]
  simp only [bind, Except.bind]
  rw [if_neg hp]
  rfl

theorem allocPage_of_none (h : petmemAllocPages 1 s.toKern = .ok (0, s.toKern)) :
    allocPage env s = clearUpMemory env s >>= fun s₁ => petmemAllocPages 1 s₁.toKern >>= fun res =>
      .ok (res.1, { s₁ with toKern := res.2 }) := by
  unfold allocPage
  rw [h]
  simp only [bind, Except.bind]
  rw [if_pos trivial]
  rfl

/-- The effect of `allocPage`: a page may be evicted, and then a frame is taken. -/
theorem allocPage_spec (h : Ready env roots Q s) (hQ : OutOfFrames s.toKern → Q s) {p : ℕ}
    (hrun : allocPage env s = .ok (p, s')) :
    ∃ s₁ g k, Eased env roots Q s s₁ ∧ Allocated s₁.toKern g k ∧ p = g * 4096 ∧
      s' = { s₁ with toKern := k } := by
  rcases petmemAllocPages_spec h.owned.pools with ⟨hnone, -⟩ | ⟨g, k, hsome, hal⟩
  · have hq := hQ ⟨_, hnone⟩
    rw [allocPage_of_none hnone] at hrun
    obtain ⟨s₁, hclear, hrun⟩ := bind_eq_ok.1 hrun
    obtain ⟨v, f, g, slot, hev⟩ := clearUpMemory_spec h.owned h.root h.list (h.head s hq) hclear
    rcases petmemAllocPages_spec hev.owned.pools with ⟨-, hno⟩ | ⟨c, k, hsome, hal⟩
    · exact absurd hev.free hno
    · rw [hsome] at hrun
      obtain ⟨hp, hs⟩ := Prod.mk.inj (Except.ok.inj hrun)
      exact ⟨s₁, c, k, .inr ⟨hq, hclear, v, f, g, slot, hev⟩, hal, hp.symm, hs.symm⟩
  · have hg := hal.pos
    rw [allocPage_of_some hsome (by omega)] at hrun
    obtain ⟨hp, hs⟩ := Prod.mk.inj (Except.ok.inj hrun)
    exact ⟨s, g, k, .inl rfl, hal, hp.symm, hs.symm⟩

/-- `allocPage` returns when the clock does and the swap file has room. -/
theorem allocPage_returns (h : Ready env roots Q s) (hQ : OutOfFrames s.toKern → Q s)
    (hroom : Q s → (∃ res, pageReplacementClock env s = .ok res) ∧ HasRoom s.map.swap) :
    ∃ p s', allocPage env s = .ok (p, s') := by
  rcases petmemAllocPages_spec h.owned.pools with ⟨hnone, -⟩ | ⟨g, k, hsome, hal⟩
  · have hq := hQ ⟨_, hnone⟩
    obtain ⟨hclock, hr⟩ := hroom hq
    obtain ⟨s₁, hclear⟩ := clearUpMemory_of_room h.owned h.root h.list (h.head s hq) hclock hr
    obtain ⟨v, f, g, slot, hev⟩ := clearUpMemory_spec h.owned h.root h.list (h.head s hq) hclear
    obtain ⟨res, hres⟩ : ∃ res, petmemAllocPages 1 s₁.toKern = .ok res := by
      rcases petmemAllocPages_spec hev.owned.pools with ⟨hnone', -⟩ | ⟨c, k, hsome, -⟩
      · exact ⟨_, hnone'⟩
      · exact ⟨_, hsome⟩
    rw [allocPage_of_none hnone]
    exact ⟨_, _, bind_eq_ok.2 ⟨s₁, hclear, bind_eq_ok.2 ⟨res, hres, rfl⟩⟩⟩
  · have hg := hal.pos
    exact ⟨_, _, allocPage_of_some hsome (by omega)⟩

/-! ## The entries on the path -/

theorem pml4Entry_eq (ha : a ∈ Region) :
    pml4Entry env a = frameVa (rootFrame env.cr3) (tableIndex a 0 * 8) :=
  pml4eVa_eq (region_index_zero ha)

theorem pdpEntry_eq {m : Mem} (ha : a ∈ Region)
    (h : tableNode m (rootFrame env.cr3) a 1 = some f) :
    pdpEntry env a m = frameVa f (tableIndex a 1 * 8) := by
  unfold pdpEntry
  rw [pml4Entry_eq ha, entryVa_eq]
  have hc : child m (rootFrame env.cr3) (tableIndex a 0) = some f :=
    (node_succ_of_eq (ℓ := 0) rfl).symm.trans h
  rw [show readPte m (frameVa (rootFrame env.cr3) (tableIndex a 0 * 8)) = pteAt m _ _ from rfl,
    (child_eq_some.1 hc).2]
  rfl

theorem pdEntry_eq {m : Mem} {f₁ : ℕ} (ha : a ∈ Region)
    (h1 : tableNode m (rootFrame env.cr3) a 1 = some f₁)
    (h2 : tableNode m (rootFrame env.cr3) a 2 = some f) :
    pdEntry env a m = frameVa f (tableIndex a 2 * 8) := by
  unfold pdEntry
  rw [pdpEntry_eq ha h1, entryVa_eq]
  have hc := (node_succ_of_eq h1).symm.trans h2
  rw [show readPte m (frameVa f₁ (tableIndex a 1 * 8)) = pteAt m _ _ from rfl,
    (child_eq_some.1 hc).2]
  rfl

theorem ptEntry_eq {m : Mem} {f₁ f₂ : ℕ} (ha : a ∈ Region)
    (h1 : tableNode m (rootFrame env.cr3) a 1 = some f₁)
    (h2 : tableNode m (rootFrame env.cr3) a 2 = some f₂)
    (h3 : tableNode m (rootFrame env.cr3) a 3 = some f) :
    ptEntry env a m = frameVa f (tableIndex a 3 * 8) := by
  unfold ptEntry
  rw [pdEntry_eq ha h1 h2, entryVa_eq]
  have hc := (node_succ_of_eq h2).symm.trans h3
  rw [show readPte m (frameVa f₂ (tableIndex a 2 * 8)) = pteAt m _ _ from rfl,
    (child_eq_some.1 hc).2]
  rfl

/-! ## Entering a table or a page -/

theorem ofNat_base {g : ℕ} (hg : g < frameLimit) (e : Pte64) :
    ({ e with pageBaseAddr := BitVec.ofNat 40 g } : Pte64).base = g := by
  unfold frameLimit at hg
  unfold Pte64.base
  rw [BitVec.toNat_ofNat, Nat.mod_eq_of_lt (by omega)]

theorem pa_va_frame {g : ℕ} (hg : g < frameLimit) : pa (va (g * 4096)) >>> 12 = g := by
  unfold frameLimit at hg
  rw [pa_va (by omega), Nat.shiftRight_eq_div_pow]
  omega

theorem va_frame (g : ℕ) : va (g * 4096) = frameVa g 0 := by
  unfold frameVa
  rw [Nat.add_zero]

/-- A new table before its flags are set. -/
def tableEntry (e : Pte64) (g : ℕ) : Pte64 :=
  { e with present := true, pageBaseAddr := BitVec.ofNat 40 g }

/-- The entry of a table below the top level, or of a page that is touched for the first time. -/
def userEntry (e : Pte64) (g : ℕ) : Pte64 :=
  { e with present := true, writable := true, userPage := true, pageBaseAddr := BitVec.ofNat 40 g }

/-- The entry of a page that was swapped in. -/
def swappedInEntry (e : Pte64) (g : ℕ) : Pte64 :=
  { e with
    present := true, writable := true, userPage := true, dirty := false
    pageBaseAddr := BitVec.ofNat 40 g }

theorem tableEntry_base {g : ℕ} (hg : g < frameLimit) (e : Pte64) : (tableEntry e g).base = g :=
  ofNat_base hg { e with present := true }

theorem userEntry_base {g : ℕ} (hg : g < frameLimit) (e : Pte64) : (userEntry e g).base = g :=
  ofNat_base hg { e with present := true, writable := true, userPage := true }

theorem swappedInEntry_base {g : ℕ} (hg : g < frameLimit) (e : Pte64) :
    (swappedInEntry e g).base = g :=
  ofNat_base hg { e with present := true, writable := true, userPage := true, dirty := false }

theorem tableStage_of_empty {entry : ℕ} (hp : (readPte s.mem entry).present = false)
    (hrun : tableStage env entry s = .ok s') :
    ∃ s₁, handleTableMemory env entry s = .ok s₁ ∧
      s' = { s₁ with mem := setFlags s₁.mem entry } := by
  unfold tableStage at hrun
  rw [hp] at hrun
  simp only [Bool.not_false, if_true] at hrun
  obtain ⟨s₁, hhandle, hrun⟩ := bind_eq_ok.1 hrun
  exact ⟨s₁, hhandle, (Except.ok.inj hrun).symm⟩

/-- The new entry may be written over, as long as it refers to the new frame. -/
theorem Grown.rewrite {e' : Pte64} {m' : Mem} (h : Grown roots r a ℓ src s s' f g e)
    (hset : EntrySet s'.mem f (tableIndex a ℓ) e' m') (hp : e'.present = true)
    (hb : e'.base = g) : Grown roots r a ℓ src s { s' with mem := m' } f g e' := by
  have hfk := h.before.kept h.root h.region (by have := h.depth; omega) h.table
  have hfg : f ≠ g := by
    rintro rfl
    exact h.fresh hfk
  have howned := (h.owned.write_eq hset (h.kept hfk) (by
    rw [hp, if_pos rfl, hb, child_eq_some, h.entry]
    exact ⟨h.present, h.base⟩)).1
  refine ⟨h.before, h.root, h.region, h.depth, h.table, h.empty, h.blank, h.fresh, hp, hb,
    hset.entry,
    fun f' i hf' hi hne => ?_, fun f' hf' hne => ?_, fun i hi => ?_, h.out,
    h.pools.congr rfl rfl, h.file, h.map, howned.congr rfl rfl rfl⟩
  · exact (hset.others f' i (h.before.pools.kept_lt hf') hi hne).trans (h.others f' i hf' hi hne)
  · exact (h.frames f' hf' hne).trans (hset.frames f' (h.before.pools.kept_lt hf') hne)
  · rw [← h.filled i hi]
    exact hset.frames g h.lt_limit hfg.symm i hi

section Growing

variable (h : Ready env roots Q s) (hQ : OutOfFrames s.toKern → Q s) (ha : a ∈ Region)
  (hℓ : ℓ < 4) (ht : tableNode s.mem (rootFrame env.cr3) a ℓ = some f)
  (hempty : (pteAt s.mem f (tableIndex a ℓ)).present = false)

include h hQ ha hℓ ht hempty

/-- After `allocPage`: what the frame is filled with and which entry is written is up to the
caller. -/
theorem grown_of_allocPage {p : ℕ} {s₂ : State} (hrun : allocPage env s = .ok (p, s₂))
    {m₂ : Mem} {upd : Pte64 → ℕ → Pte64}
    (hset : ∀ g, p = g * 4096 → g < frameLimit → EntrySet (blit s₂.mem (va p) src 4096) f
      (tableIndex a ℓ) (upd (pteAt (blit s₂.mem (va p) src 4096) f (tableIndex a ℓ)) g) m₂)
    (hblank : ℓ < 3 → ∀ i < 4096, src i = 0) (hpres : ∀ e g, (upd e g).present = true)
    (hbase : ∀ e g, g < frameLimit → (upd e g).base = g) :
    ∃ s₁ g, Eased env roots Q s s₁ ∧
      (pteAt s₁.mem f (tableIndex a ℓ)).mask = (pteAt s.mem f (tableIndex a ℓ)).mask ∧
      Grown roots (rootFrame env.cr3) a ℓ src s₁ { s₂ with mem := m₂ } f g
        (upd (pteAt s₁.mem f (tableIndex a ℓ)) g) := by
  obtain ⟨s₁, g, k, heased, hal, rfl, rfl⟩ := allocPage_spec h hQ hrun
  have hr := h.root
  have h₁ := h.eased heased
  have ht₁ := (heased.node_table hr ha (by omega)).trans ht
  have hmask := heased.pteAt_mask h.owned hr ha (by omega) ht (tableIndex_lt a ℓ) hempty
  have hfk := h₁.owned.kept hr ha (by omega) ht₁
  have hflt := h₁.owned.pools.kept_lt hfk
  -- the table was there before, the frame is fresh
  have hfg : f ≠ g := by
    rintro rfl
    exact hal.fresh hfk
  have hfill : FrameSet k.mem g src (blit k.mem (va (g * 4096)) src 4096) := by
    rw [va_frame]
    exact frameSet_blit k.mem src hal.lt
  have hset := hset g rfl hal.lt
  -- neither the allocator nor the fill writes to the table
  have hold : pteAt (blit k.mem (va (g * 4096)) src 4096) f (tableIndex a ℓ)
      = pteAt s₁.mem f (tableIndex a ℓ) :=
    ((hal.frames f hfk).trans (hfill.frames f hflt hfg)).pteAt hflt (tableIndex_lt a ℓ)
  rw [show pteAt (blit ({ s₁ with toKern := k } : State).mem (va (g * 4096)) src 4096) f
    (tableIndex a ℓ) = _ from hold] at hset
  refine ⟨s₁, g, heased, hmask, ?_⟩
  exact grown_of_alloc h₁.owned hr ha hℓ ht₁ ((present_of_mask hmask).trans hempty) hal hfill hset
    hblank (hpres _ _) (hbase _ _ hal.lt)

/-- `handle_table_memory` for a slot on the path of `a`. -/
theorem handleTableMemory_spec
    (hrun : handleTableMemory env (frameVa f (tableIndex a ℓ * 8)) s = .ok s') :
    ∃ s₁ g, Eased env roots Q s s₁ ∧
      (pteAt s₁.mem f (tableIndex a ℓ)).mask = (pteAt s.mem f (tableIndex a ℓ)).mask ∧
      Grown roots (rootFrame env.cr3) a ℓ (fun _ => 0) s₁ s' f g
        (tableEntry (pteAt s₁.mem f (tableIndex a ℓ)) g) := by
  unfold handleTableMemory at hrun
  obtain ⟨⟨p, s₂⟩, halloc, hrun⟩ := bind_eq_ok.1 hrun
  have hflt := h.owned.lt_limit h.root ha (by omega) ht
  have hs' := (Except.ok.inj hrun).symm
  rw [memset_eq_blit, show 512 * 8 = 4096 from rfl] at hs'
  subst hs'
  refine grown_of_allocPage h hQ ha hℓ ht hempty halloc (fun g hp hg => ?_) (fun _ _ _ => rfl)
    (fun _ _ => rfl) (fun e g hg => tableEntry_base hg e)
  subst hp
  rw [pa_va_frame hg]
  exact entrySet_writePte _ _ hflt (tableIndex_lt a ℓ)

/-- The handler at a level below the top, for a slot that is empty. -/
theorem tableStage_spec
    (hrun : tableStage env (frameVa f (tableIndex a ℓ * 8)) s = .ok s') :
    ∃ s₁ g, Eased env roots Q s s₁ ∧
      (pteAt s₁.mem f (tableIndex a ℓ)).mask = (pteAt s.mem f (tableIndex a ℓ)).mask ∧
      Grown roots (rootFrame env.cr3) a ℓ (fun _ => 0) s₁ s' f g
        (userEntry (pteAt s₁.mem f (tableIndex a ℓ)) g) := by
  obtain ⟨s₃, hhandle, rfl⟩ := tableStage_of_empty hempty hrun
  obtain ⟨s₁, g, heased, hmask, hgrown⟩ := handleTableMemory_spec h hQ ha hℓ ht hempty hhandle
  refine ⟨s₁, g, heased, hmask, ?_⟩
  -- the flags are set in the entry that was just written
  have hset : EntrySet s₃.mem f (tableIndex a ℓ) { pteAt s₃.mem f (tableIndex a ℓ) with
      present := true, writable := true, userPage := true }
      (setFlags s₃.mem (frameVa f (tableIndex a ℓ * 8))) :=
    entrySet_writePte _ _ (hgrown.before.lt_limit hgrown.root ha (by omega) hgrown.table)
      (tableIndex_lt a ℓ)
  rw [hgrown.entry] at hset
  exact hgrown.rewrite hset rfl (userEntry_base hgrown.lt_limit _)

omit ha hℓ ht hempty in
theorem handleTableMemory_returns
    (hroom : Q s → (∃ res, pageReplacementClock env s = .ok res) ∧ HasRoom s.map.swap)
    (handle : ℕ) : ∃ s', handleTableMemory env handle s = .ok s' := by
  obtain ⟨p, s₁, hrun⟩ := allocPage_returns h hQ hroom
  unfold handleTableMemory
  exact ⟨_, bind_eq_ok.2 ⟨(p, s₁), hrun, rfl⟩⟩

end Growing

/-- The page that was swapped out comes back, in a slot on the path of `a`. -/
theorem swapInStage_spec (h : Ready env roots Q s) (hQ : OutOfFrames s.toKern → Q s)
    (ha : a ∈ Region) (ht : tableNode s.mem (rootFrame env.cr3) a 3 = some f)
    (hempty : (pteAt s.mem f (tableIndex a 3)).present = false) {page : ℕ → Byte}
    (hrun : swapInStage env (frameVa f (tableIndex a 3 * 8)) page s = .ok s') :
    ∃ s₁ g, Eased env roots Q s s₁ ∧
      (pteAt s₁.mem f (tableIndex a 3)).mask = (pteAt s.mem f (tableIndex a 3)).mask ∧
      Grown roots (rootFrame env.cr3) a 3 page s₁ s' f g
        (swappedInEntry (pteAt s₁.mem f (tableIndex a 3)) g) := by
  unfold swapInStage at hrun
  obtain ⟨⟨p, s₂⟩, halloc, hrun⟩ := bind_eq_ok.1 hrun
  have hflt := h.owned.lt_limit h.root ha (by omega) ht
  have hs' := (Except.ok.inj hrun).symm
  subst hs'
  refine grown_of_allocPage h hQ ha (by omega) ht hempty halloc (fun g hp hg => ?_)
    (fun hlt => absurd hlt (by omega)) (fun _ _ => rfl) (fun e g hg => swappedInEntry_base hg e)
  subst hp
  rw [pa_va_frame hg]
  exact entrySet_writePte _ _ hflt (tableIndex_lt a 3)

/-! ## The handler -/

/-- Pages are evicted, in states that satisfy `Q`, and tables are entered on the path of `a`. -/
inductive Pages (env : Env) (roots : Set ℕ) (Q : State → Prop) (a : ℕ) (s : State) : State → Prop
  | refl : Pages env roots Q a s s
  | evict {s₁ s₂ : State} {v f g slot : ℕ} : Pages env roots Q a s s₁ → Q s₁ →
      clearUpMemory env s₁ = .ok s₂ →
      Evicted roots (rootFrame env.cr3) s₁ s₂ v f g slot → Pages env roots Q a s s₂
  | table {s₁ s₂ : State} {ℓ f g : ℕ} {e : Pte64} : Pages env roots Q a s s₁ → ℓ < 3 →
      Grown roots (rootFrame env.cr3) a ℓ (fun _ => 0) s₁ s₂ f g e →
      e = (if ℓ = 0 then tableEntry else userEntry) (pteAt s₁.mem f (tableIndex a ℓ)) g →
      Pages env roots Q a s s₂

/-- How a page fault that is accepted comes back: the page was present, it is a fresh page, or
it was swapped in. -/
inductive Faulted (env : Env) (roots : Set ℕ) (Q : State → Prop) (a : ℕ) (s : State) :
    State → Prop
  | resident {s₁ : State} {g : ℕ} : Pages env roots Q a s s₁ →
      tableNode s₁.mem (rootFrame env.cr3) a 4 = some g → Faulted env roots Q a s s₁
  | fresh {s₁ s₂ : State} {f g : ℕ} : Pages env roots Q a s s₁ →
      (pteAt s₁.mem f (tableIndex a 3)).dirty = false →
      Grown roots (rootFrame env.cr3) a 3 (fun _ => 0) s₁ s₂ f g
        (userEntry (pteAt s₁.mem f (tableIndex a 3)) g) → Faulted env roots Q a s s₂
  | swapIn {s₁ s₂ s₃ : State} {f g : ℕ} {page : ℕ → Byte} {swap : SwapSpace} :
      Pages env roots Q a s s₁ → tableNode s₁.mem (rootFrame env.cr3) a 3 = some f →
      (pteAt s₁.mem f (tableIndex a 3)).present = false →
      (pteAt s₁.mem f (tableIndex a 3)).dirty = true →
      swapInPage ((pteAt s₁.mem f (tableIndex a 3)).base % 2 ^ 32) s₁.map.swap s₁.file
        = .ok (page, swap) →
      Eased env roots Q { s₁ with map := { s₁.map with swap } } s₂ →
      (pteAt s₂.mem f (tableIndex a 3)).mask = (pteAt s₁.mem f (tableIndex a 3)).mask →
      Grown roots (rootFrame env.cr3) a 3 page s₂ s₃ f g
        (swappedInEntry (pteAt s₂.mem f (tableIndex a 3)) g) → Faulted env roots Q a s s₃

namespace Pages

/-- The rule for what both changes keep. -/
theorem induct {P : State → Prop} (h0 : P s)
    (hev : ∀ s₁ s₂ v f g slot, P s₁ → Q s₁ →
      Evicted roots (rootFrame env.cr3) s₁ s₂ v f g slot → P s₂)
    (htab : ∀ s₁ s₂ ℓ f g e, P s₁ → ℓ < 3 →
      Grown roots (rootFrame env.cr3) a ℓ (fun _ => 0) s₁ s₂ f g e →
      e = (if ℓ = 0 then tableEntry else userEntry) (pteAt s₁.mem f (tableIndex a ℓ)) g → P s₂)
    (h : Pages env roots Q a s s') : P s' := by
  induction h with
  | refl => exact h0
  | evict _ hq _ he ih => exact hev _ _ _ _ _ _ ih hq he
  | table _ hℓ hg he ih => exact htab _ _ _ _ _ _ ih hℓ hg he

theorem ready (h : Pages env roots Q a s s') (hr : Ready env roots Q s) :
    Ready env roots Q s' := by
  refine h.induct (P := Ready env roots Q) hr (fun s₁ s₂ v f g slot h1 _ he => ?_)
    fun s₁ s₂ ℓ f g e h1 _ hg _ => ?_
  · exact ⟨he.owned, h1.root, he.list ▸ h1.list, h1.head⟩
  · exact ⟨hg.owned, h1.root, by rw [hg.map]; exact h1.list, h1.head⟩

/-- Tables stay where they are. -/
theorem node_of_some {r' a' ℓ' c : ℕ} (h : Pages env roots Q a s s') (hr' : r' ∈ roots)
    (ha' : a' ∈ Region) (hℓ' : ℓ' ≤ 3) (hc : tableNode s.mem r' a' ℓ' = some c) :
    tableNode s'.mem r' a' ℓ' = some c := by
  refine h.induct (P := fun s => tableNode s.mem r' a' ℓ' = some c) hc
    (fun s₁ s₂ v f g slot h1 _ he => ?_) fun s₁ s₂ ℓ f g e h1 _ hg _ => ?_
  · exact (he.node_table hr' ha' hℓ').trans h1
  · exact hg.node_of_some hr' ha' (by omega) h1

theorem of_eased (h : Eased env roots Q s s') : Pages env roots Q a s s' := by
  rcases h with rfl | ⟨hq, hclear, v, f, g, slot, he⟩
  · exact .refl
  · exact .evict .refl hq hclear he

theorem trans {s'' : State} (h : Pages env roots Q a s s') (h' : Pages env roots Q a s' s'') :
    Pages env roots Q a s s'' := by
  induction h' with
  | refl => exact h
  | evict _ hq hclear he ih => exact .evict ih hq hclear he
  | table _ hℓ hg he ih => exact .table ih hℓ hg he

end Pages

/-- The handler at level 4. -/
theorem pml4Stage_spec (h : Ready env roots Q s) (ha : a ∈ Region)
    (hQ : (readPte s.mem (pml4Entry env a)).present = false → OutOfFrames s.toKern → Q s)
    (hrun : pml4Stage env a s = .ok s') :
    Pages env roots Q a s s' ∧ ∃ c, tableNode s'.mem (rootFrame env.cr3) a 1 = some c := by
  unfold pml4Stage at hrun
  have hroot : tableNode s.mem (rootFrame env.cr3) a 0 = some (rootFrame env.cr3) := rfl
  cases hp : (readPte s.mem (pml4Entry env a)).present with
  | true =>
    rw [hp] at hrun
    obtain rfl := Except.ok.inj hrun
    rw [pml4Entry_eq ha] at hp
    exact ⟨.refl, _, (node_succ_of_eq hroot).trans (child_eq_some.2 ⟨hp, rfl⟩)⟩
  | false =>
    rw [hp] at hrun
    have hempty : (pteAt s.mem (rootFrame env.cr3) (tableIndex a 0)).present = false := by
      rw [pml4Entry_eq ha] at hp
      exact hp
    have hrun' : handleTableMemory env (pml4Entry env a) s = .ok s' := hrun
    rw [pml4Entry_eq ha] at hrun'
    obtain ⟨s₁, g, heased, hmask, hgrown⟩ :=
      handleTableMemory_spec h (hQ hp) ha (by omega) hroot hempty hrun'
    exact ⟨.table (.of_eased heased) (by omega) hgrown rfl, g, hgrown.node_slot⟩

/-- The handler at levels 3 and 2. -/
theorem tableStage_pages (h : Ready env roots Q s) (ha : a ∈ Region) (hℓ : ℓ < 3) (hℓ0 : ℓ ≠ 0)
    (ht : tableNode s.mem (rootFrame env.cr3) a ℓ = some f)
    (hQ : (pteAt s.mem f (tableIndex a ℓ)).present = false → OutOfFrames s.toKern → Q s)
    (hrun : tableStage env (frameVa f (tableIndex a ℓ * 8)) s = .ok s') :
    Pages env roots Q a s s' ∧ ∃ c, tableNode s'.mem (rootFrame env.cr3) a (ℓ + 1) = some c := by
  cases hp : (pteAt s.mem f (tableIndex a ℓ)).present with
  | true =>
    have hp' : (readPte s.mem (frameVa f (tableIndex a ℓ * 8))).present = true := hp
    unfold tableStage at hrun
    rw [hp'] at hrun
    obtain rfl := Except.ok.inj hrun
    exact ⟨.refl, _, (node_succ_of_eq ht).trans (child_eq_some.2 ⟨hp, rfl⟩)⟩
  | false =>
    obtain ⟨s₁, g, heased, hmask, hgrown⟩ :=
      tableStage_spec h (hQ hp) ha (by omega) ht hp hrun
    refine ⟨.table (.of_eased heased) hℓ hgrown ?_, g, hgrown.node_slot⟩
    rw [if_neg hℓ0]

/-- `swap_in_page` touches the bitmap alone. -/
theorem Ready.swap (h : Ready env roots Q s) (swap : SwapSpace) :
    Ready env roots Q { s with map := { s.map with swap } } :=
  ⟨h.owned, h.root, h.list, h.head⟩

/-- The handler at the last level. -/
theorem pteStage_spec (h : Ready env roots Q s) (ha : a ∈ Region)
    (ht : tableNode s.mem (rootFrame env.cr3) a 3 = some f)
    (hfresh : (pteAt s.mem f (tableIndex a 3)).present = false →
      (pteAt s.mem f (tableIndex a 3)).dirty = false → OutOfFrames s.toKern → Q s)
    (hswap : ∀ page swap, (pteAt s.mem f (tableIndex a 3)).present = false →
      (pteAt s.mem f (tableIndex a 3)).dirty = true →
      swapInPage ((pteAt s.mem f (tableIndex a 3)).base % 2 ^ 32) s.map.swap s.file
        = .ok (page, swap) →
      OutOfFrames s.toKern → Q { s with map := { s.map with swap } })
    (hrun : pteStage env (frameVa f (tableIndex a 3 * 8)) s = .ok s') :
    Faulted env roots Q a s s' := by
  unfold pteStage at hrun
  dsimp only at hrun
  rw [show readPte s.mem (frameVa f (tableIndex a 3 * 8)) = pteAt s.mem f (tableIndex a 3) from rfl]
    at hrun
  cases hp : (pteAt s.mem f (tableIndex a 3)).present with
  | true =>
    simp only [hp, Bool.not_true, Bool.false_and, Bool.false_eq_true, if_false] at hrun
    obtain rfl := Except.ok.inj hrun
    exact .resident .refl ((node_succ_of_eq ht).trans (child_eq_some.2 ⟨hp, rfl⟩))
  | false =>
    cases hd : (pteAt s.mem f (tableIndex a 3)).dirty with
    | false =>
      simp only [hp, hd, Bool.not_false, Bool.and_self, if_true] at hrun
      obtain ⟨s₁, g, heased, hmask, hgrown⟩ :=
        tableStage_spec h (hfresh hp hd) ha (by omega) ht hp hrun
      exact .fresh (.of_eased heased) ((dirty_of_mask hmask).trans hd) hgrown
    | true =>
      simp only [hp, hd, Bool.not_false, Bool.not_true, Bool.and_false, Bool.and_self, if_true,
        Bool.false_eq_true, if_false] at hrun
      -- the slot is released before a frame is asked for
      obtain ⟨⟨page, swap⟩, hin, hrun⟩ := bind_eq_ok.1 hrun
      obtain ⟨s₂, g, heased, hmask, hgrown⟩ := swapInStage_spec (h.swap swap)
        (hswap page swap hp hd hin) ha ht hp hrun
      exact .swapIn .refl ht hp hd hin heased hmask hgrown

theorem Faulted.trans {s₁ : State} (h : Pages env roots Q a s s₁)
    (h' : Faulted env roots Q a s₁ s') : Faulted env roots Q a s s' := by
  cases h' with
  | resident hp hn => exact .resident (h.trans hp) hn
  | fresh hp hd hg => exact .fresh (h.trans hp) hd hg
  | swapIn hp ht hpr hd hin he hm hg => exact .swapIn (h.trans hp) ht hpr hd hin he hm hg

theorem mem_region_of_range {l : List VaddrReg} (hl : Partition l)
    (h : checkAddressRange l a = true) : a ∈ Region := by
  obtain ⟨reg, hreg, -, h1, h2⟩ := (checkAddressRange_iff hl a).1 h
  -- the regions lie inside the petmem region
  have hb := hl.spans.bounds hreg
  exact ⟨by omega, by omega⟩

section Stages

variable {s₁ s₂ s₃ : State} (h : Ready env roots Q s) (ha : a ∈ Region)
  (hQ : ∀ s', Asks env a s s' → OutOfFrames s'.toKern → Q s')
  (h1 : pml4Stage env a s = .ok s₁)
  (h2 : tableStage env (pdpEntry env a s₁.mem) s₁ = .ok s₂)
  (h3 : tableStage env (pdEntry env a s₂.mem) s₂ = .ok s₃)

include h ha hQ h1

/-- What was done when the handler comes to level 3. -/
theorem stages_one : Pages env roots Q a s s₁ ∧
    ∃ f₁, tableNode s₁.mem (rootFrame env.cr3) a 1 = some f₁ :=
  pml4Stage_spec h ha (fun hp ho => hQ s (.pml4 hp) ho) h1

include h2

/-- What was done when the handler comes to level 2. -/
theorem stages_two : Pages env roots Q a s s₂ ∧
    ∃ f₁ f₂, tableNode s₂.mem (rootFrame env.cr3) a 1 = some f₁ ∧
      tableNode s₂.mem (rootFrame env.cr3) a 2 = some f₂ := by
  obtain ⟨hp₁, f₁, hf₁⟩ := stages_one h ha hQ h1
  have hQ₂ := fun hp ho => hQ s₁ (.pdp h1 hp) ho
  rw [pdpEntry_eq ha hf₁] at h2 hQ₂
  obtain ⟨hp₂, f₂, hf₂⟩ := tableStage_pages (hp₁.ready h) ha (by omega) (by omega) hf₁ hQ₂ h2
  exact ⟨hp₁.trans hp₂, f₁, f₂, hp₂.node_of_some h.root ha (by omega) hf₁, hf₂⟩

include h3

/-- What was done when the handler comes to the last level. -/
theorem stages_three : Pages env roots Q a s s₃ ∧
    ∃ f₃, tableNode s₃.mem (rootFrame env.cr3) a 3 = some f₃ ∧
      ptEntry env a s₃.mem = frameVa f₃ (tableIndex a 3 * 8) := by
  obtain ⟨hp₂, f₁, f₂, hf₁, hf₂⟩ := stages_two h ha hQ h1 h2
  have hQ₃ := fun hp ho => hQ s₂ (.pd h1 h2 hp) ho
  rw [pdEntry_eq ha hf₁ hf₂] at h3 hQ₃
  obtain ⟨hp₃, f₃, hf₃⟩ := tableStage_pages (hp₂.ready h) ha (by omega) (by omega) hf₂ hQ₃ h3
  have hf₁₃ := hp₃.node_of_some h.root ha (by omega) hf₁
  have hf₂₃ := hp₃.node_of_some h.root ha (by omega) hf₂
  exact ⟨hp₂.trans hp₃, f₃, hf₃, ptEntry_eq ha hf₁₃ hf₂₃ hf₃⟩

end Stages

/-- Wherever the handler asks for a frame the tables are in order. -/
theorem Asks.ready (hasks : Asks env a s s') (h : Ready env roots Q s) (ha : a ∈ Region)
    (hQ : ∀ s', Asks env a s s' → OutOfFrames s'.toKern → Q s') : Ready env roots Q s' := by
  cases hasks with
  | pml4 _ => exact h
  | pdp h1 _ => exact (stages_one h ha hQ h1).1.ready h
  | pd h1 h2 _ => exact (stages_two h ha hQ h1 h2).1.ready h
  | page h1 h2 h3 _ _ => exact (stages_three h ha hQ h1 h2 h3).1.ready h
  | swapIn h1 h2 h3 _ _ _ => exact ((stages_three h ha hQ h1 h2 h3).1.ready h).swap _

/-- What `petmem_handle_pagefault` does when it returns. -/
theorem petmemHandlePagefault_spec (h : Ready env roots Q s)
    {code : ℕ} (hQ : code ≠ errorPermission → ∀ s', RunsOut env a s s' → Q s') {ret : ℤ}
    (hrun : petmemHandlePagefault env a code s = .ok (ret, s')) :
    (ret = -1 ∧ s' = s) ∨
      (ret = 0 ∧ checkAddressRange s.map.memoryAllocations a = true ∧ a ∈ Region ∧
        Faulted env roots Q a s s') := by
  unfold petmemHandlePagefault at hrun
  split at hrun
  · obtain ⟨h1, h2⟩ := Prod.mk.inj (Except.ok.inj hrun)
    exact .inl ⟨h1.symm, h2.symm⟩
  · rename_i hcond
    have hrange : checkAddressRange s.map.memoryAllocations a = true := by
      by_contra hne
      simp [hne] at hcond
    have hcode : code ≠ errorPermission := by
      rintro rfl
      simp at hcond
    have hQ : ∀ s', Asks env a s s' → OutOfFrames s'.toKern → Q s' := fun s' hasks hout =>
      hQ hcode s' ⟨hrange, hasks, hout⟩
    have ha := mem_region_of_range h.list hrange
    obtain ⟨s₁, h1, hrun⟩ := bind_eq_ok.1 hrun
    obtain ⟨s₂, h2, hrun⟩ := bind_eq_ok.1 hrun
    obtain ⟨s₃, h3, hrun⟩ := bind_eq_ok.1 hrun
    obtain ⟨s₄, h4, hrun⟩ := bind_eq_ok.1 hrun
    obtain ⟨rfl, rfl⟩ := Prod.mk.inj (Except.ok.inj hrun)
    -- the three tables are in place: what is left is the last level
    obtain ⟨hp₃, f₃, hf₃, hpte⟩ := stages_three h ha hQ h1 h2 h3
    have hQ₄ := fun hp hd ho => hQ s₃ (.page h1 h2 h3 hp hd) ho
    have hQ₅ := fun page swap hp hd hin ho => hQ { s₃ with map := { s₃.map with swap } }
      (@Asks.swapIn env a s s₁ s₂ s₃ page swap h1 h2 h3 hp hd hin) ho
    rw [hpte] at h4 hQ₄ hQ₅
    refine .inr ⟨rfl, hrange, ha, ?_⟩
    exact Faulted.trans hp₃ (pteStage_spec (hp₃.ready h) ha hf₃ hQ₄
      (fun page swap hp hd hin ho => hQ₅ page swap hp hd hin ho) h4)

/-! ## The handler returns -/

theorem tableStage_returns {entry : ℕ} (h : Ready env roots Q s)
    (hQ : (readPte s.mem entry).present = false → OutOfFrames s.toKern → Q s)
    (hroom : ∀ s, Q s → (∃ res, pageReplacementClock env s = .ok res) ∧ HasRoom s.map.swap) :
    ∃ s', tableStage env entry s = .ok s' := by
  unfold tableStage
  cases hp : (readPte s.mem entry).present with
  | true => exact ⟨s, rfl⟩
  | false =>
    obtain ⟨s₁, h1⟩ := handleTableMemory_returns h (hQ hp) (hroom s) entry
    exact ⟨_, bind_eq_ok.2 ⟨s₁, h1, rfl⟩⟩

theorem pteStage_returns {pte : ℕ} (h : Ready env roots Q s)
    (hfresh : (readPte s.mem pte).present = false → (readPte s.mem pte).dirty = false →
      OutOfFrames s.toKern → Q s)
    (hswap : ∀ page swap, (readPte s.mem pte).present = false → (readPte s.mem pte).dirty = true →
      swapInPage ((readPte s.mem pte).base % 2 ^ 32) s.map.swap s.file = .ok (page, swap) →
      OutOfFrames s.toKern → Q { s with map := { s.map with swap } })
    (hin : (readPte s.mem pte).present = false → (readPte s.mem pte).dirty = true →
      ∃ res, swapInPage ((readPte s.mem pte).base % 2 ^ 32) s.map.swap s.file = .ok res)
    (hroom : ∀ s, Q s → (∃ res, pageReplacementClock env s = .ok res) ∧ HasRoom s.map.swap) :
    ∃ s', pteStage env pte s = .ok s' := by
  unfold pteStage
  cases hp : (readPte s.mem pte).present with
  | true => exact ⟨s, by simp [hp]⟩
  | false =>
    cases hd : (readPte s.mem pte).dirty with
    | false =>
      obtain ⟨s₁, h1⟩ := tableStage_returns h (fun hp => hfresh hp hd) hroom
      exact ⟨s₁, by simpa [hp, hd] using h1⟩
    | true =>
      obtain ⟨⟨page, swap⟩, hres⟩ := hin hp hd
      obtain ⟨p, s₁, h1⟩ := allocPage_returns (h.swap swap) (hswap page swap hp hd hres) (hroom _)
      obtain ⟨s₂, h2⟩ : ∃ s₂, swapInStage env pte page { s with map := { s.map with swap } }
          = .ok s₂ := ⟨_, bind_eq_ok.2 ⟨_, h1, rfl⟩⟩
      simp only [hp, hd, Bool.not_false, Bool.not_true, Bool.and_false, Bool.and_self, if_true,
        Bool.false_eq_true, if_false]
      exact ⟨s₂, bind_eq_ok.2 ⟨_, hres, h2⟩⟩

/-- `petmem_handle_pagefault` serves an address of a region in use, when wherever it runs out of
frames the clock finds a page and the swap file has room, and the slot of a page that is swapped
in exists. -/
theorem petmemHandlePagefault_returns (h : Ready env roots Q s)
    (hQ : ∀ s', RunsOut env a s s' → Q s')
    (hroom : ∀ s, Q s → (∃ res, pageReplacementClock env s = .ok res) ∧ HasRoom s.map.swap)
    (hin : ∀ s₁ f, Pages env roots Q a s s₁ → tableNode s₁.mem (rootFrame env.cr3) a 3 = some f →
      (pteAt s₁.mem f (tableIndex a 3)).present = false →
      (pteAt s₁.mem f (tableIndex a 3)).dirty = true →
      ∃ res, swapInPage ((pteAt s₁.mem f (tableIndex a 3)).base % 2 ^ 32) s₁.map.swap s₁.file
        = .ok res)
    {code : ℕ} (hcode : code ≠ errorPermission)
    (hrange : checkAddressRange s.map.memoryAllocations a = true) :
    ∃ s', petmemHandlePagefault env a code s = .ok (0, s') := by
  have ha := mem_region_of_range h.list hrange
  have hQ : ∀ s', Asks env a s s' → OutOfFrames s'.toKern → Q s' := fun s' hasks hout =>
    hQ s' ⟨hrange, hasks, hout⟩
  obtain ⟨s₁, h1⟩ : ∃ s₁, pml4Stage env a s = .ok s₁ := by
    unfold pml4Stage
    cases hp : (readPte s.mem (pml4Entry env a)).present with
    | true => exact ⟨s, rfl⟩
    | false => exact handleTableMemory_returns h (fun ho => hQ s (.pml4 hp) ho) (hroom s) _
  -- each stage returns on what the one before has left
  obtain ⟨hp₁, -⟩ := stages_one h ha hQ h1
  obtain ⟨s₂, h2⟩ := tableStage_returns (hp₁.ready h) (fun hp ho => hQ s₁ (.pdp h1 hp) ho) hroom
  obtain ⟨hp₂, -⟩ := stages_two h ha hQ h1 h2
  obtain ⟨s₃, h3⟩ := tableStage_returns (hp₂.ready h) (fun hp ho => hQ s₂ (.pd h1 h2 hp) ho) hroom
  obtain ⟨hp₃, f₃, hf₃, hpte⟩ := stages_three h ha hQ h1 h2 h3
  obtain ⟨s₄, h4⟩ := pteStage_returns (hp₃.ready h)
    (fun hp hd ho => hQ s₃ (.page h1 h2 h3 hp hd) ho)
    (fun page swap hp hd hin ho => hQ _ (.swapIn h1 h2 h3 hp hd hin) ho)
    (by rw [hpte]; exact hin s₃ f₃ hp₃ hf₃) hroom
  refine ⟨s₄, ?_⟩
  unfold petmemHandlePagefault
  rw [if_neg (by simp [hrange, hcode])]
  exact bind_eq_ok.2 ⟨s₁, h1, bind_eq_ok.2 ⟨s₂, h2, bind_eq_ok.2 ⟨s₃, h3,
    bind_eq_ok.2 ⟨s₄, h4, rfl⟩⟩⟩⟩

end OnDemand

end Petmem
