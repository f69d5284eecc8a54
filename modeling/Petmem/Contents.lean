import Petmem.Accesses
import Petmem.SwapRuns
import Petmem.Library.SlotStore

/-!
# What the pages of a process hold

A page of the process is in a frame, in a slot of the swap file, or nowhere, in which case it reads
as zeros. `bytesAt` is what an access to the page finds, after the page fault that brings it back
where one is needed. Evictions and page faults move pages about without changing what they hold,
provided the pages do not share slots (`Slotted`) and every eviction finds a free slot whose offset
fits in 31 bits.
-/

namespace Petmem
namespace OnDemand

open ByteMemory RadixTree Pools Swap Regions Pte64 SlotStore

variable {env : Env} {s s' : State} {roots : Set ℕ} {Q : State → Prop}
  {r r' a b f g n v ℓ slot B : ℕ} {m m' : Mem} {e : Pte64} {src : ℕ → Byte} {P : Set ℕ}

/-! ## Places -/

/-- The numbers of the petmem pages. -/
def petmemPages : Set ℕ := { n | n * 4096 ∈ Region }

/-- Where the page with this entry is. -/
def placeOf : Option Pte64 → Place ℕ ℕ
  | none => .nowhere
  | some e => if e.present then .frame e.base else if e.dirty then .slot e.base else .nowhere

/-- Where page `n` of the process is. -/
def placeAt (s : State) (r n : ℕ) : Place ℕ ℕ := placeOf (leaf s.mem r (n * 4096))

/-- The slots below `B` that are marked in the bitmap. -/
def marked (B : ℕ) (swap : SwapSpace) : Set ℕ :=
  { i | i < B ∧ InMap swap i ∧ slotBit swap i = true }

/-- A slot below `B` is free. -/
def FreeBelow (B : ℕ) (swap : SwapSpace) : Prop := ∃ i < B, InMap swap i ∧ slotBit swap i = false

/-- The list head is absent, and one of the first eight slots is free. -/
def roomy (env : Env) (s : State) : Bool :=
  headAbsent env s &&
    (List.range 8).any fun i => decide (InMap s.map.swap i) && !slotBit s.map.swap i

theorem roomy_spec {env : Env} {s : State} {B : ℕ} (hB : 8 ≤ B)
    (h : roomy env s = true) : HeadAbsent env s.mem ∧ FreeBelow B s.map.swap := by
  simp only [roomy, Bool.and_eq_true, List.any_eq_true, List.mem_range, decide_eq_true_eq,
    Bool.not_eq_true'] at h
  obtain ⟨hhead, i, hi, hmap, hbit⟩ := h
  exact ⟨(headAbsent_iff s).1 hhead, i, by omega, hmap, hbit⟩

/-- The bytes of page `n`: those of its frame, those a page fault reads from its slot, or zeros. -/
def bytesAt (s : State) (r n : ℕ) : ℕ → Byte :=
  match placeAt s r n with
  | .nowhere => fun _ => 0
  | .frame g => fun i => s.mem (frameVa g i)
  | .slot i => fileRead s.file (i % 2 ^ 32 * 4096 % 2 ^ 32)

theorem placeOf_present (h : e.present = true) : placeOf (some e) = .frame e.base := if_pos h

theorem placeOf_swapped (h : e.present = false) (hd : e.dirty = true) :
    placeOf (some e) = .slot e.base := by
  simp only [placeOf, h, hd, Bool.false_eq_true, if_false, if_true]

theorem placeOf_clean (h : e.present = false) (hd : e.dirty = false) :
    placeOf (some e) = .nowhere := by
  simp only [placeOf, h, hd, Bool.false_eq_true, if_false]

/-- The offset of a slot below 2^19, as a page fault computes it. -/
theorem fileRead_fault (file : SwapFile) {i : ℕ} (h : i < 2 ^ 19) :
    fileRead file (i % 2 ^ 32 * 4096 % 2 ^ 32) = slotBytes file i := by
  rw [Nat.mod_eq_of_lt (show i < 2 ^ 32 by omega)]
  exact fileRead_slot file h

theorem mem_petmemPages (ha : a ∈ Region) : a / 4096 ∈ petmemPages :=
  mem_region_of_page ha (by omega)

/-- An address and its page have one entry. -/
theorem leaf_page_eq (ha : a ∈ Region) : leaf m r (a / 4096 * 4096) = leaf m r a :=
  pageWise_leaf m r _ (mem_petmemPages ha) _ ha (by omega)

theorem placeAt_of_frame :
    placeAt s r n = .frame g ↔ tableNode s.mem r (n * 4096) 4 = some g := by
  rw [node_iff_leaf]
  unfold placeAt placeOf
  constructor
  · intro h
    split at h
    · cases h
    · rename_i e he
      by_cases hp : e.present = true
      · rw [if_pos hp] at h
        injection h with hb
        exact ⟨e, he, hp, hb⟩
      · rw [if_neg hp] at h
        split at h <;> cases h
  · rintro ⟨e, he, hp, hb⟩
    rw [he]
    simp only [hp, if_true, hb]

theorem bytesAt_of_nowhere (h : placeAt s r n = .nowhere) : bytesAt s r n = fun _ => 0 := by
  unfold bytesAt
  rw [h]

theorem bytesAt_of_frame (h : placeAt s r n = .frame g) :
    bytesAt s r n = fun i => s.mem (frameVa g i) := by
  unfold bytesAt
  rw [h]

theorem bytesAt_of_slot {i : ℕ} (h : placeAt s r n = .slot i) :
    bytesAt s r n = fileRead s.file (i % 2 ^ 32 * 4096 % 2 ^ 32) := by
  unfold bytesAt
  rw [h]

/-- The bytes of a page that stays where it is. -/
theorem bytesAt_congr (h : placeAt s' r n = placeAt s r n)
    (hframe : ∀ g, placeAt s r n = .frame g → SameFrame s.mem s'.mem g)
    (hslot : ∀ i, placeAt s r n = .slot i → ∀ j < 4096,
      fileRead s'.file (i % 2 ^ 32 * 4096 % 2 ^ 32) j
        = fileRead s.file (i % 2 ^ 32 * 4096 % 2 ^ 32) j) :
    ∀ j < 4096, bytesAt s' r n j = bytesAt s r n j := by
  intro j hj
  cases hp : placeAt s r n with
  | nowhere => rw [bytesAt_of_nowhere hp, bytesAt_of_nowhere (h.trans hp)]
  | frame g =>
    rw [bytesAt_of_frame hp, bytesAt_of_frame (h.trans hp)]
    exact hframe g hp j hj
  | slot i =>
    rw [bytesAt_of_slot hp, bytesAt_of_slot (h.trans hp)]
    exact hslot i hp j hj

/-! ## The bitmap -/

theorem marked_of_set {swap swap' : SwapSpace} {i : ℕ} (h : SetSlot swap i true swap')
    (hi : InMap swap i) (hB : i < B) : marked B swap' = insert i (marked B swap) := by
  ext j
  have hmap : InMap swap' j ↔ InMap swap j :=
    ⟨fun hj => ⟨h.size ▸ hj.lt_size, h.length ▸ hj.lt_map⟩, h.inMap⟩
  simp only [marked, Set.mem_ofPred_eq, Set.mem_insert_iff, hmap, h.bit]
  by_cases hji : j = i
  · subst hji
    simp [hi, hB]
  · simp [hji]

theorem marked_of_cleared {swap swap' : SwapSpace} {i : ℕ} (h : SetSlot swap i false swap') :
    marked B swap' = marked B swap \ {i} := by
  ext j
  have hmap : InMap swap' j ↔ InMap swap j :=
    ⟨fun hj => ⟨h.size ▸ hj.lt_size, h.length ▸ hj.lt_map⟩, h.inMap⟩
  simp only [marked, Set.mem_ofPred_eq, Set.mem_sdiff, Set.mem_singleton_iff, hmap, h.bit]
  by_cases hji : j = i
  · simp [hji]
  · simp [hji]

/-! ## Evictions -/

namespace Evicted

variable {C : ℕ}

/-- With a free slot below `C`, the page goes to a free slot below `C`. -/
theorem taken (h : Evicted roots r s s' v f g slot) (hC : C ≤ 2 ^ 31)
    (hfree : FreeBelow C s.map.swap) :
    slot < C ∧ InMap s.map.swap slot ∧ slotBit s.map.swap slot = false ∧
      SetSlot s.map.swap slot true s'.map.swap ∧
      ∃ page : ℕ → Byte, (∀ i < 4096, page i = s.mem (frameVa g i)) ∧
        s'.file = fileWrite s.file page 4096 (sext32 (slot * 4096)) := by
  obtain ⟨page, hbytes, hcase⟩ := h.swap
  obtain ⟨i, hi, hmap, hbit⟩ := hfree
  generalize hres : (slot, s'.map.swap, s'.file) = res at hcase
  cases hcase with
  | @taken j swap' hjmap hj hjbit hused hset =>
    obtain ⟨rfl, hrest⟩ := Prod.mk.inj hres
    obtain ⟨hswap, hfile⟩ := Prod.mk.inj hrest
    rw [hswap]
    have hle : slot ≤ i := by
      by_contra hlt
      rw [hused i (by omega)] at hbit
      cases hbit
    exact ⟨by omega, hjmap, hjbit, hset, page, hbytes, hfile⟩
  | full hused =>
    -- the free slot would have been found
    have hlt := hmap.lt_size
    rw [hused i (by omega)] at hbit
    cases hbit

theorem base_swappedOut (e : Pte64) (hs : slot < 2 ^ 31) : (swappedOut e slot).base = slot := by
  unfold swappedOut Pte64.base
  simp only [BitVec.toNat_ofNat]
  omega

/-- The victim moves to the slot, all other pages stay. -/
theorem placeAt_eq (h : Evicted roots r s s' v f g slot) (hs : slot < 2 ^ 31)
    (hn : n ∈ petmemPages) :
    placeAt s' r n = Function.update (placeAt s r) (v / 4096) (.slot slot) n := by
  by_cases hv : n = v / 4096
  · subst hv
    rw [Function.update_self]
    unfold placeAt
    rw [h.leaf_victim hn (by omega), placeOf_swapped rfl rfl, base_swappedOut _ hs]
  · rw [Function.update_of_ne hv]
    unfold placeAt
    rw [h.leaf_other h.root hn fun hc => hv (by have := hc.2; omega)]

/-- Where the victim was. -/
theorem placeAt_victim (h : Evicted roots r s s' v f g slot) :
    placeAt s r (v / 4096) = .frame g := by
  rw [placeAt_of_frame, ← h.page]
  exact node_congr ((samePath_four_iff (mem_petmemPages h.region) h.region).2 (by omega))

/-- Pages keep slots of their own. -/
theorem slotted (h : Evicted roots r s s' v f g slot) (hC : C ≤ 2 ^ 31) (hCB : C ≤ B)
    (hfree : FreeBelow C s.map.swap) (hP : P ⊆ petmemPages)
    (hs : Slotted (placeAt s r) (marked B s.map.swap) P) :
    Slotted (placeAt s' r) (marked B s'.map.swap) P := by
  obtain ⟨hlt, hmap, hbit, hset, -⟩ := h.taken hC hfree
  rw [marked_of_set hset hmap (by omega)]
  refine (hs.evict (fun hmem => ?_) (v / 4096)).congr fun n hn => h.placeAt_eq (by omega) (hP hn)
  rw [hmem.2.2] at hbit
  cases hbit

/-- What the pages hold does not change. -/
theorem bytesAt_eq (h : Evicted roots r s s' v f g slot) (hfree : FreeBelow (2 ^ 19) s.map.swap)
    (hP : P ⊆ petmemPages) (hs : Slotted (placeAt s r) (marked (2 ^ 19) s.map.swap) P)
    (hn : n ∈ P) : ∀ i < 4096, bytesAt s' r n i = bytesAt s r n i := by
  -- the slot that was taken was free, and got the page's bytes
  obtain ⟨hlt, hmap, hbit, hset, page, hbytes, hfile⟩ := h.taken (by norm_num) hfree
  rw [sext32_of_lt (by omega)] at hfile
  have hplace := h.placeAt_eq (show slot < 2 ^ 31 by omega) (hP hn)
  by_cases hv : n = v / 4096
  · -- the victim, which a fault would read from its slot
    subst hv
    rw [Function.update_self] at hplace
    intro i hi
    rw [bytesAt_of_slot hplace, bytesAt_of_frame h.placeAt_victim, fileRead_fault _ hlt, hfile,
      slotBytes_fileWrite_same hlt hi, hbytes i hi]
  · rw [Function.update_of_ne hv] at hplace
    refine bytesAt_congr hplace (fun c hc => ?_) fun j hj i hi => ?_
    · -- a page in another frame
      rw [placeAt_of_frame] at hc
      have hcg : c ≠ g := by
        rintro rfl
        obtain ⟨-, -, hp⟩ := h.before.separated r h.root r h.root _ (hP hn) v h.region 4 (le_refl _)
          4 (le_refl _) c hc h.page
        exact hv (by have := (samePath_four_iff (hP hn) h.region).1 hp; omega)
      refine h.frames c (h.kept (h.before.kept h.root (hP hn) (le_refl _) hc) hcg) ?_
      rintro ⟨x, hx, hxc⟩
      exact h.before.table_ne_page h.root (.inl hx) (le_refl _) hxc h.root (hP hn) hc
    · -- a page in another slot
      have hjt := hs.taken n hn j hj
      have hne : j ≠ slot := by
        rintro rfl
        rw [hjt.2.2] at hbit
        cases hbit
      have hj19 : j < 2 ^ 19 := hjt.1
      rw [fileRead_fault _ hj19, fileRead_fault _ hj19, hfile,
        slotBytes_fileWrite_of_ne hlt hne hi]

end Evicted

/-! ## New tables and pages -/

namespace Grown

/-- The frame of a page is not touched when another frame is entered. -/
theorem sameFrame (h : Grown roots r a ℓ src s s' f g e) (hn : n ∈ petmemPages) {c : ℕ}
    (hc : placeAt s r n = .frame c) : SameFrame s.mem s'.mem c := by
  have hd := h.depth
  rw [placeAt_of_frame] at hc
  refine h.frames c (h.before.kept h.root hn (le_refl _) hc) ?_
  rintro rfl
  have := (h.before.separated r h.root r h.root _ hn a h.region 4 (le_refl _) ℓ (by omega) c hc
    h.table).2.1
  omega

/-- A new table moves no page. -/
theorem placeAt_table (h : Grown roots r a ℓ src s s' f g e) (hℓ : ℓ < 3) (hn : n ∈ petmemPages) :
    placeAt s' r n = placeAt s r n := by
  unfold placeAt
  by_cases hcase : ℓ = 2 ∧ n * 4096 / 2 ^ 21 = a / 2 ^ 21
  · obtain ⟨rfl, htab⟩ := hcase
    obtain ⟨hold, hnew⟩ := h.leaf_table hn htab
    rw [hold, hnew]
    rfl
  · rw [h.leaf_other h.root hn]
    rintro ⟨-, h3 | h2⟩
    · omega
    · exact hcase h2

/-- A new page moves to its frame. -/
theorem placeAt_page (h : Grown roots r a 3 src s s' f g e) (hn : n ∈ petmemPages) :
    placeAt s' r n = Function.update (placeAt s r) (a / 4096) (.frame g) n := by
  by_cases ha : n = a / 4096
  · subst ha
    rw [Function.update_self]
    unfold placeAt
    rw [h.leaf_page hn (by omega), placeOf_present (by rw [mask_present]; exact h.present),
      mask_base, h.base]
  · rw [Function.update_of_ne ha]
    unfold placeAt
    rw [h.leaf_other h.root hn]
    rintro ⟨-, h3 | h2⟩ <;> omega

theorem bytesAt_table (h : Grown roots r a ℓ src s s' f g e) (hℓ : ℓ < 3) (hn : n ∈ petmemPages) :
    ∀ i < 4096, bytesAt s' r n i = bytesAt s r n i :=
  bytesAt_congr (h.placeAt_table hℓ hn) (fun _ hc => h.sameFrame hn hc)
    fun j _ i _ => by rw [h.file]

/-- The page holds what its frame was filled with. -/
theorem bytesAt_page (h : Grown roots r a 3 src s s' f g e) (hn : n ∈ petmemPages) :
    ∀ i < 4096, bytesAt s' r n i = if n = a / 4096 then src i else bytesAt s r n i := by
  intro i hi
  have hplace := h.placeAt_page hn
  by_cases ha : n = a / 4096
  · subst ha
    rw [Function.update_self] at hplace
    rw [if_pos rfl, bytesAt_of_frame hplace]
    exact h.filled i hi
  · rw [Function.update_of_ne ha] at hplace
    rw [if_neg ha]
    exact bytesAt_congr hplace (fun _ hc => h.sameFrame hn hc) (fun j _ i _ => by rw [h.file]) i hi

end Grown

/-! ## Page faults -/

/-- The first half of a swap-in: the page is read from its slot, which is given up. -/
theorem swapIn_spec {page : ℕ → Byte} {swap : SwapSpace} (hB : B ≤ 2 ^ 32) (ha : a ∈ Region)
    (haP : a / 4096 ∈ P) (hs : Slotted (placeAt s r) (marked B s.map.swap) P)
    (ht : tableNode s.mem r a 3 = some f) (hp : (pteAt s.mem f (tableIndex a 3)).present = false)
    (hd : (pteAt s.mem f (tableIndex a 3)).dirty = true)
    (hin : swapInPage ((pteAt s.mem f (tableIndex a 3)).base % 2 ^ 32) s.map.swap s.file
      = .ok (page, swap)) :
    placeAt s r (a / 4096) = .slot (pteAt s.mem f (tableIndex a 3)).base ∧
      page = bytesAt s r (a / 4096) ∧
      SetSlot s.map.swap (pteAt s.mem f (tableIndex a 3)).base false swap := by
  have hplace : placeAt s r (a / 4096) = .slot (pteAt s.mem f (tableIndex a 3)).base := by
    unfold placeAt
    rw [leaf_page_eq ha, leaf_of_node ht]
    exact placeOf_swapped hp hd
  obtain ⟨hlt, hmap, -⟩ := hs.taken _ haP _ hplace
  have hmod : (pteAt s.mem f (tableIndex a 3)).base % 2 ^ 32
      = (pteAt s.mem f (tableIndex a 3)).base := Nat.mod_eq_of_lt (by omega)
  rw [bytesAt_of_slot hplace, hmod]
  rw [hmod] at hin
  obtain ⟨swap', hrun, hset⟩ := swapInPage_spec s.file hmap
  obtain ⟨rfl, rfl⟩ := Prod.mk.inj (Except.ok.inj (hin.symm.trans hrun))
  exact ⟨hplace, rfl, hset⟩

section Faults

variable {C : ℕ} (hC : C ≤ 2 ^ 31) (hCB : C ≤ B) (hQ : ∀ s, Q s → FreeBelow C s.map.swap)
  (hP : P ⊆ petmemPages)

include hC hCB hQ hP

theorem Pages.slotted (h : Pages env roots Q a s s')
    (hs : Slotted (placeAt s (rootFrame env.cr3)) (marked B s.map.swap) P) :
    Slotted (placeAt s' (rootFrame env.cr3)) (marked B s'.map.swap) P := by
  refine h.induct (P := fun s => Slotted (placeAt s (rootFrame env.cr3)) (marked B s.map.swap) P) hs
    (fun s₁ s₂ v f g slot h1 hq he => he.slotted hC hCB (hQ s₁ hq) hP h1)
    fun s₁ s₂ ℓ f g e h1 hℓ hg _ => ?_
  rw [hg.map]
  exact h1.congr fun n hn => hg.placeAt_table hℓ (hP hn)

/-- A fault leaves the pages with slots of their own. -/
theorem Faulted.slotted (hB : B ≤ 2 ^ 32) (h : Faulted env roots Q a s s') (haP : a / 4096 ∈ P)
    (hs : Slotted (placeAt s (rootFrame env.cr3)) (marked B s.map.swap) P) :
    Slotted (placeAt s' (rootFrame env.cr3)) (marked B s'.map.swap) P := by
  have hsub : P \ {a / 4096} ⊆ petmemPages := fun n hn => hP hn.1
  have henter : ∀ {s₁ s₂ : State} {src : ℕ → Byte} {f g : ℕ} {e : Pte64},
      Grown roots (rootFrame env.cr3) a 3 src s₁ s₂ f g e →
      Slotted (placeAt s₁ (rootFrame env.cr3)) (marked B s₁.map.swap) (P \ {a / 4096}) →
      Slotted (placeAt s₂ (rootFrame env.cr3)) (marked B s₂.map.swap) P := by
    intro s₁ s₂ src f g e hg h₁
    rw [hg.map]
    exact (h₁.enter g).congr fun n hn => hg.placeAt_page (hP hn)
  cases h with
  | resident hp _ => exact hp.slotted hC hCB hQ hP hs
  | fresh hp _ hg =>
    exact henter hg ((hp.slotted hC hCB hQ hP hs).shrink Set.sdiff_subset fun _ _ _ hi => hi)
  | @swapIn s₁ s₂ s₃ f g page swap hp ht hpres hdirty hin he _ hg =>
    have ha := mem_region_of_page (hP haP) (show a / 4096 = a / 4096 * 4096 / 4096 by omega)
    have hs₁ := hp.slotted hC hCB hQ hP hs
    obtain ⟨hplace, -, hset⟩ := swapIn_spec hB ha haP hs₁ ht hpres hdirty hin
    have hs₂ := hs₁.release haP hplace
    rw [← marked_of_cleared hset] at hs₂
    exact henter hg ((Pages.of_eased (a := a) he).slotted hC hCB hQ hsub hs₂)

end Faults

section Bytes

variable (hQ : ∀ s, Q s → FreeBelow (2 ^ 19) s.map.swap) (hP : P ⊆ petmemPages)

include hQ hP

theorem Pages.bytesAt_eq (h : Pages env roots Q a s s')
    (hs : Slotted (placeAt s (rootFrame env.cr3)) (marked (2 ^ 19) s.map.swap) P) (hn : n ∈ P) :
    ∀ i < 4096, bytesAt s' (rootFrame env.cr3) n i = bytesAt s (rootFrame env.cr3) n i := by
  induction h with
  | refl => exact fun _ _ => rfl
  | evict hp hq _ he ih =>
    have hs₁ := hp.slotted (by norm_num) (le_refl _) hQ hP hs
    exact fun i hi => (he.bytesAt_eq (hQ _ hq) hP hs₁ hn i hi).trans (ih i hi)
  | table _ hℓ hg _ ih =>
    exact fun i hi => (hg.bytesAt_table hℓ (hP hn) i hi).trans (ih i hi)

/-- A fault changes what no page holds. -/
theorem Faulted.bytesAt_eq (h : Faulted env roots Q a s s') (haP : a / 4096 ∈ P)
    (hs : Slotted (placeAt s (rootFrame env.cr3)) (marked (2 ^ 19) s.map.swap) P) (hn : n ∈ P) :
    ∀ i < 4096, bytesAt s' (rootFrame env.cr3) n i = bytesAt s (rootFrame env.cr3) n i := by
  have ha := mem_region_of_page (hP haP) (show a / 4096 = a / 4096 * 4096 / 4096 by omega)
  cases h with
  | resident hp _ => exact hp.bytesAt_eq hQ hP hs hn
  | @fresh s₁ s₂ f g hp hd hg =>
    intro i hi
    rw [hg.bytesAt_page (hP hn) i hi]
    split
    · -- the page was nowhere
      rename_i heq
      subst heq
      have hplace : placeAt s₁ (rootFrame env.cr3) (a / 4096) = .nowhere := by
        unfold placeAt
        rw [leaf_page_eq ha, leaf_of_node hg.table]
        exact placeOf_clean hg.empty hd
      rw [← hp.bytesAt_eq hQ hP hs hn i hi, bytesAt_of_nowhere hplace]
    · exact hp.bytesAt_eq hQ hP hs hn i hi
  | @swapIn s₁ s₂ s₃ f g page swap hp ht hpres hdirty hin he _ hg =>
    have hs₁ := hp.slotted (by norm_num) (le_refl _) hQ hP hs
    obtain ⟨hplace, hpage, hset⟩ := swapIn_spec (by norm_num) ha haP hs₁ ht hpres hdirty hin
    intro i hi
    rw [hg.bytesAt_page (hP hn) i hi]
    split
    · rename_i heq
      subst heq
      rw [hpage, hp.bytesAt_eq hQ hP hs hn i hi]
    · -- another page, while the one that is swapped in is left out
      rename_i hne
      have hs₂ := hs₁.release haP hplace
      rw [← marked_of_cleared hset] at hs₂
      exact ((Pages.of_eased (a := a) he).bytesAt_eq hQ (fun m hm => hP hm.1) hs₂ ⟨hn, hne⟩ i
        hi).trans (hp.bytesAt_eq hQ hP hs hn i hi)

end Bytes

/-! ## Accesses -/

theorem Accessed.placeAt_eq {w : Bool} (h : Accessed roots r a w s s' f g) (hn : n ∈ petmemPages) :
    placeAt s' r n = placeAt s r n := by
  unfold placeAt
  by_cases ha : n * 4096 / 4096 = a / 4096
  · rw [h.leaf_page hn ha]
    cases hl : leaf s.mem r (n * 4096) with
    | none => rfl
    | some e =>
      -- the page is in memory, where the dirty bit says nothing
      have hp : e.present = true := by
        obtain ⟨c, hc⟩ : ∃ c, tableNode s.mem r (n * 4096) 4 = some c :=
          ⟨g, (node_congr ((samePath_four_iff hn h.region).2 ha)).trans h.page⟩
        obtain ⟨e', he', hp, -⟩ := node_iff_leaf.1 hc
        rwa [Option.some.inj (hl.symm.trans he')]
      rw [Option.map_some, placeOf_present (e := { e with dirty := e.dirty || w }) hp,
        placeOf_present hp]
      rfl
  · rw [h.leaf_other h.root hn fun hc => ha hc.2]

theorem Accessed.bytesAt_eq {w : Bool} (h : Accessed roots r a w s s' f g) (hn : n ∈ petmemPages) :
    ∀ i < 4096, bytesAt s' r n i = bytesAt s r n i :=
  bytesAt_congr (h.placeAt_eq hn) (fun _ hc => h.frames h.root hn (placeAt_of_frame.1 hc))
    fun j _ i _ => by rw [h.file]

theorem Written.placeAt_eq {byte : Byte} (h : Written roots r a byte s s' g)
    (hn : n ∈ petmemPages) : placeAt s' r n = placeAt s r n := by
  unfold placeAt
  rw [h.leaf_eq h.root hn]

/-- One byte of one page changes. -/
theorem Written.bytesAt_eq {byte : Byte} (h : Written roots r a byte s s' g)
    (hn : n ∈ petmemPages) {i : ℕ} (hi : i < 4096) :
    bytesAt s' r n i = if n * 4096 + i = a then byte else bytesAt s r n i := by
  have hplace := h.placeAt_eq hn
  by_cases ha : n = a / 4096
  · subst ha
    have hg : placeAt s r (a / 4096) = .frame g := by
      rw [placeAt_of_frame, ← h.page]
      exact node_congr ((samePath_four_iff hn h.region).2 (by omega))
    rw [bytesAt_of_frame hg, bytesAt_of_frame (hplace.trans hg)]
    dsimp only
    rw [h.set.filled i hi]
    by_cases hia : i = a % 4096
    · rw [if_pos hia, if_pos (by omega)]
    · rw [if_neg hia, if_neg (by omega)]
  · rw [if_neg (by omega)]
    refine bytesAt_congr hplace (fun c hc => ?_) (fun j _ i _ => by rw [h.file]) i hi
    rw [placeAt_of_frame] at hc
    refine h.set.frames c (h.before.lt_limit h.root hn (le_refl _) hc) ?_
    rintro rfl
    obtain ⟨-, -, hp⟩ := h.before.separated r h.root r h.root _ hn a h.region 4 (le_refl _) 4
      (le_refl _) c hc h.page
    have := (samePath_four_iff hn h.region).1 hp
    omega

end OnDemand

end Petmem
