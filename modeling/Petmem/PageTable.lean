import Petmem.Basic
import Petmem.Library.RadixTree

/-!
# Page-table entries and the four-level walk (`pgtables.h`)

The entry layout of `pte64_t`, the index and address macros, and `get_valid_page_entry` and
`is_entire_page_free` of `on_demand.c`. Entries live in byte memory; the handler treats the
entries of all four levels as `pte64_t`.
-/

namespace Petmem

open ByteMemory

/-- `pte64_t`. -/
structure Pte64 where
  present : Bool
  writable : Bool
  userPage : Bool
  writeThrough : Bool
  cacheDisable : Bool
  accessed : Bool
  dirty : Bool
  pteAttr : Bool
  globalPage : Bool
  vmmInfo : BitVec 3
  pageBaseAddr : BitVec 40
  available : BitVec 11
  noExecute : Bool
deriving DecidableEq, Repr

namespace Pte64

/-- The entry in a 64-bit word, first bit field lowest. -/
def ofBits (w : BitVec 64) : Pte64 where
  present := w.getLsbD 0
  writable := w.getLsbD 1
  userPage := w.getLsbD 2
  writeThrough := w.getLsbD 3
  cacheDisable := w.getLsbD 4
  accessed := w.getLsbD 5
  dirty := w.getLsbD 6
  pteAttr := w.getLsbD 7
  globalPage := w.getLsbD 8
  vmmInfo := w.extractLsb' 9 3
  pageBaseAddr := w.extractLsb' 12 40
  available := w.extractLsb' 52 11
  noExecute := w.getLsbD 63

/-- The word of an entry. -/
def toBits (e : Pte64) : BitVec 64 :=
  BitVec.ofBool e.noExecute ++ e.available ++ e.pageBaseAddr ++ e.vmmInfo ++
    BitVec.ofBool e.globalPage ++ BitVec.ofBool e.pteAttr ++ BitVec.ofBool e.dirty ++
    BitVec.ofBool e.accessed ++ BitVec.ofBool e.cacheDisable ++ BitVec.ofBool e.writeThrough ++
    BitVec.ofBool e.userPage ++ BitVec.ofBool e.writable ++ BitVec.ofBool e.present

/-- The all-zero entry, as `memset` leaves it. -/
def zero : Pte64 := ofBits 0

/-- `page_base_addr` as a number. -/
def base (e : Pte64) : ℕ := e.pageBaseAddr.toNat

end Pte64

/-- The entry stored at an address. -/
def readPte (m : Mem) (a : ℕ) : Pte64 := Pte64.ofBits (read64 m a)

/-- Store an entry. -/
def writePte (m : Mem) (a : ℕ) (e : Pte64) : Mem := write64 m a e.toBits

/-- The table index of an address at depth `n`: `PML4E64_INDEX`, `PDPE64_INDEX`,
`PDE64_INDEX`, `PTE64_INDEX` for depth 0 to 3. -/
def tableIndex (x n : ℕ) : ℕ := (x >>> (39 - 9 * n)) &&& 0x1ff

/-- `PML4E64_INDEX`. -/
def pml4e64Index (x : ℕ) : ℕ := tableIndex x 0

/-- `PDPE64_INDEX`. -/
def pdpe64Index (x : ℕ) : ℕ := tableIndex x 1

/-- `PDE64_INDEX`. -/
def pde64Index (x : ℕ) : ℕ := tableIndex x 2

/-- `PTE64_INDEX`. -/
def pte64Index (x : ℕ) : ℕ := tableIndex x 3

/-- `PHYSICAL_OFFSET`. -/
def physicalOffset (x : ℕ) : ℕ := x &&& 0xfff

/-- `CR3_TO_PML4E64_VA`. -/
def cr3ToPml4e64Va (cr3 : ℕ) : ℕ := va (cr3 &&& 0x000ffffffffff000)

/-- The address of the level-4 entry: `CR3_TO_PML4E64_VA` is a pointer to eight-byte
entries, so adding `index * 8` to it moves on by `64 * index` bytes. -/
def pml4eVa (cr3 address : ℕ) : ℕ :=
  (cr3ToPml4e64Va cr3 + pml4e64Index address * 8 * 8) % 2 ^ 64

/-- `__va(BASE_TO_PAGE_ADDR(e->page_base_addr) + index * 8)`. -/
def entryVa (e : Pte64) (index : ℕ) : ℕ := va (e.base <<< 12 + index * 8)

/-- The addresses of the entries on the walk of an address, from the level-4 entry down, as
far as the entries above are present. -/
structure Walk where
  pml4e : ℕ
  pdpe : ℕ
  pde : ℕ
  pte : ℕ
deriving DecidableEq, Repr

/-- The walk `get_valid_page_entry` and `attempt_free_physical_address` make: `none` when
one of the four entries is not present. -/
def walk (m : Mem) (cr3 address : ℕ) : Option Walk :=
  let pml4e := pml4eVa cr3 address
  if !(readPte m pml4e).present then none else
  let pdpe := entryVa (readPte m pml4e) (pdpe64Index address)
  if !(readPte m pdpe).present then none else
  let pde := entryVa (readPte m pdpe) (pde64Index address)
  if !(readPte m pde).present then none else
  let pte := entryVa (readPte m pde) (pte64Index address)
  if !(readPte m pte).present then none else
  some ⟨pml4e, pdpe, pde, pte⟩

/-- `get_valid_page_entry`: the address of the last-level entry, or 0. -/
def getValidPageEntry (m : Mem) (cr3 address : ℕ) : ℕ :=
  match walk m cr3 address with
  | none => 0
  | some w => w.pte

/-- `is_entire_page_free`: no entry of the table is present. -/
def isEntirePageFree (m : Mem) (table : ℕ) : Bool :=
  (List.range 512).all fun i => !(readPte m (table + i * 8)).present

/-! ## The entry codec -/

namespace Pte64

@[simp] theorem ofBits_toBits (e : Pte64) : ofBits e.toBits = e := by
  obtain ⟨p, w, u, wt, cd, ac, di, pa, gl, vm, ba, av, nx⟩ := e
  simp only [ofBits, toBits, mk.injEq]
  refine ⟨?_, ?_, ?_, ?_, ?_, ?_, ?_, ?_, ?_, ?_, ?_, ?_, ?_⟩
  case refine_10 =>
    apply BitVec.eq_of_getLsbD_eq
    intro i hi
    simp only [BitVec.getLsbD_extractLsb', BitVec.getLsbD_append, BitVec.getLsbD_ofBool]
    simp [hi]
  case refine_11 =>
    apply BitVec.eq_of_getLsbD_eq
    intro i hi
    simp only [BitVec.getLsbD_extractLsb', BitVec.getLsbD_append, BitVec.getLsbD_ofBool]
    simp [hi]
  case refine_12 =>
    apply BitVec.eq_of_getLsbD_eq
    intro i hi
    simp only [BitVec.getLsbD_extractLsb', BitVec.getLsbD_append, BitVec.getLsbD_ofBool]
    simp [hi]
    simp (disch := omega) only [if_neg, if_pos, ← BitVec.getLsbD_eq_getElem hi]
    congr 1
    omega
  all_goals
    simp only [BitVec.getLsbD_append, BitVec.getLsbD_ofBool]
    simp

theorem ofBool_getLsbD (w : BitVec 64) (i : ℕ) :
    BitVec.ofBool (w.getLsbD i) = w.extractLsb' i 1 := by
  apply BitVec.eq_of_getLsbD_eq
  intro j hj
  obtain rfl : j = 0 := by omega
  simp

/-- The fields of an entry are all of its word. -/
@[simp] theorem toBits_ofBits (w : BitVec 64) : (ofBits w).toBits = w := by
  unfold toBits ofBits
  simp only [ofBool_getLsbD, BitVec.extractLsb'_append_extractLsb'_eq_extractLsb',
    BitVec.extractLsb'_eq_self]

@[simp] theorem zero_present : zero.present = false := rfl

@[simp] theorem zero_dirty : zero.dirty = false := rfl

end Pte64

/-! ## Frames -/

/-- The kernel address of byte `i` of frame `f`. -/
def frameVa (f i : ℕ) : ℕ := va (f * 4096 + i)

/-- Entry `i` of the table in frame `f`. -/
def pteAt (m : Mem) (f i : ℕ) : Pte64 := readPte m (frameVa f (i * 8))

/-- The frame entry `i` of the table in frame `f` refers to, if it is present. -/
def child (m : Mem) (f i : ℕ) : Option ℕ :=
  if (pteAt m f i).present then some (pteAt m f i).base else none

/-- The number of frames of the direct map; irreducible, so that comparisons with it are
never computed in unary. -/
@[irreducible] def frameLimit : ℕ := 2 ^ 34

/-- Frame `f` holds the same bytes in `m'` as in `m`. -/
def SameFrame (m m' : Mem) (f : ℕ) : Prop := ∀ i < 4096, m' (frameVa f i) = m (frameVa f i)

/-- The frame of a process's top-level table. -/
def rootFrame (cr3 : ℕ) : ℕ := (cr3 &&& 0x000ffffffffff000) / 4096

theorem frameVa_eq {f i : ℕ} (hf : f < frameLimit) (hi : i < 4096) :
    frameVa f i = f * 4096 + i + pageOffset := by
  unfold frameVa frameLimit at *
  exact va_of_lt (by unfold physLimit; omega)

theorem frameVa_inj {f i f' i' : ℕ} (hf : f < frameLimit) (hi : i < 4096) (hf' : f' < frameLimit)
    (hi' : i' < 4096) (h : frameVa f i = frameVa f' i') : f = f' ∧ i = i' := by
  rw [frameVa_eq hf hi, frameVa_eq hf' hi'] at h
  omega

theorem entryVa_eq (e : Pte64) (i : ℕ) : entryVa e i = frameVa e.base (i * 8) := by
  unfold entryVa frameVa
  rw [Nat.shiftLeft_eq]

theorem tableIndex_eq (x n : ℕ) : tableIndex x n = x / 2 ^ (39 - 9 * n) % 512 := by
  unfold tableIndex
  rw [Nat.shiftRight_eq_div_pow, show 0x1ff = 2 ^ 9 - 1 from rfl, Nat.and_two_pow_sub_one_eq_mod]

theorem tableIndex_lt (x n : ℕ) : tableIndex x n < 512 := by
  rw [tableIndex_eq]
  exact Nat.mod_lt _ (by norm_num)

theorem cr3_mask_eq (cr3 : ℕ) : cr3 &&& 0x000ffffffffff000 = rootFrame cr3 * 4096 := by
  unfold rootFrame
  rw [Nat.div_mul_cancel]
  refine Nat.dvd_of_mod_eq_zero ?_
  rw [show 4096 = 2 ^ 12 from rfl, ← Nat.and_two_pow_sub_one_eq_mod, Nat.and_assoc]
  simp

theorem pml4eVa_eq {cr3 a : ℕ} (h : tableIndex a 0 = 0) :
    pml4eVa cr3 a = frameVa (rootFrame cr3) (tableIndex a 0 * 8) := by
  unfold pml4eVa pml4e64Index cr3ToPml4e64Va frameVa
  rw [h, cr3_mask_eq, Nat.zero_mul, Nat.add_zero, Nat.add_zero, Nat.mod_eq_of_lt (va_lt _)]

theorem child_eq_some {m : Mem} {f i g : ℕ} :
    child m f i = some g ↔ (pteAt m f i).present = true ∧ (pteAt m f i).base = g := by
  unfold child
  split <;> simp_all

theorem child_eq_none {m : Mem} {f i : ℕ} :
    child m f i = none ↔ (pteAt m f i).present = false := by
  unfold child
  split <;> simp_all

namespace SameFrame

variable {m m' m'' : Mem} {f : ℕ}

theorem refl (m : Mem) (f : ℕ) : SameFrame m m f := fun _ _ => rfl

theorem trans (h : SameFrame m m' f) (h' : SameFrame m' m'' f) : SameFrame m m'' f :=
  fun i hi => (h' i hi).trans (h i hi)

theorem pteAt (h : SameFrame m m' f) {i : ℕ} (hf : f < frameLimit) (hi : i < 512) :
    Petmem.pteAt m' f i = Petmem.pteAt m f i := by
  unfold Petmem.pteAt readPte
  rw [read64_congr]
  intro j hj
  have := h (i * 8 + j) (by omega)
  rw [frameVa_eq hf (by omega)] at this ⊢
  rwa [show f * 4096 + i * 8 + pageOffset + j = f * 4096 + (i * 8 + j) + pageOffset by omega]

end SameFrame

/-! ## Stores into frames -/

/-- `m'` is `m` with entry `i` of the table in frame `f` set to `e`. -/
structure EntrySet (m : Mem) (f i : ℕ) (e : Pte64) (m' : Mem) : Prop where
  entry : pteAt m' f i = e
  others : ∀ f' i', f' < frameLimit → i' < 512 → ¬ (f' = f ∧ i' = i) →
    pteAt m' f' i' = pteAt m f' i'
  frames : ∀ f', f' < frameLimit → f' ≠ f → SameFrame m m' f'
  bytes : ∀ x, (∀ j < 4096, x ≠ frameVa f j) → m' x = m x

/-- `m'` is `m` with frame `f` filled from `src`. -/
structure FrameSet (m : Mem) (f : ℕ) (src : ℕ → Byte) (m' : Mem) : Prop where
  filled : ∀ i < 4096, m' (frameVa f i) = src i
  frames : ∀ f', f' < frameLimit → f' ≠ f → SameFrame m m' f'
  bytes : ∀ x, (∀ j < 4096, x ≠ frameVa f j) → m' x = m x

theorem entrySet_writePte (m : Mem) {f i : ℕ} (e : Pte64) (hf : f < frameLimit) (hi : i < 512) :
    EntrySet m f i e (writePte m (frameVa f (i * 8)) e) where
  entry := by
    unfold pteAt readPte writePte
    rw [read64_write64_same, Pte64.ofBits_toBits]
  others f' i' hf' hi' hne := by
    unfold pteAt readPte writePte
    rw [frameVa_eq hf (by omega), frameVa_eq hf' (by omega), read64_write64_disjoint]
    omega
  frames f' hf' hne j hj := by
    unfold writePte
    rw [frameVa_eq hf (by omega), frameVa_eq hf' hj, write64_of_notMem]
    omega
  bytes x hx := by
    unfold writePte
    refine write64_of_notMem ?_
    by_contra hin
    rw [frameVa_eq hf (by omega)] at hin
    refine hx (x - (f * 4096 + pageOffset)) (by omega) ?_
    rw [frameVa_eq hf (by omega)]
    omega

/-- Where an entry is unchanged, its bytes are. -/
theorem byte_eq_of_pteAt {m m' : Mem} {f i j : ℕ} (hf : f < frameLimit) (hi : i < 512)
    (h : pteAt m' f i = pteAt m f i) (hj : j < 8) :
    m' (frameVa f (i * 8 + j)) = m (frameVa f (i * 8 + j)) := by
  have hword : read64 m' (frameVa f (i * 8)) = read64 m (frameVa f (i * 8)) := by
    rw [← Pte64.toBits_ofBits (read64 m' _), ← Pte64.toBits_ofBits (read64 m _)]
    exact congrArg Pte64.toBits h
  have haddr : frameVa f (i * 8 + j) = frameVa f (i * 8) + j := by
    rw [frameVa_eq hf (by omega), frameVa_eq hf (by omega)]
    omega
  rw [haddr, ← extractLsb'_read64 (m := m') hj, hword, extractLsb'_read64 hj]

theorem frameSet_blit (m : Mem) {f : ℕ} (src : ℕ → Byte) (hf : f < frameLimit) :
    FrameSet m f src (blit m (frameVa f 0) src 4096) where
  filled i hi := by
    rw [frameVa_eq hf (by omega), frameVa_eq hf hi,
      show f * 4096 + i + pageOffset = f * 4096 + 0 + pageOffset + i by omega, blit_apply hi]
  frames f' hf' hne j hj := by
    rw [frameVa_eq hf (by omega), frameVa_eq hf' hj, blit_of_notMem]
    omega
  bytes x hx := by
    refine blit_of_notMem ?_
    by_contra hin
    rw [frameVa_eq hf (by omega)] at hin
    refine hx (x - (f * 4096 + pageOffset)) (by omega) ?_
    rw [frameVa_eq hf (by omega)]
    omega

theorem pteAt_of_zero {m : Mem} {f i : ℕ} (hf : f < frameLimit) (hi : i < 512)
    (h : ∀ j < 4096, m (frameVa f j) = 0) : pteAt m f i = Pte64.zero := by
  have hzero : SameFrame (fun _ => 0) m f := h
  rw [hzero.pteAt hf hi]
  unfold pteAt readPte
  rw [read64_of_zero fun _ _ => rfl]
  rfl

/-! ## The walk as a lookup -/

open RadixTree

/-- The frame reached after `ℓ` levels of the walk of `a` from the table in frame `r`. -/
abbrev tableNode (m : Mem) (r a ℓ : ℕ) : Option ℕ := node tableIndex (child m) r a ℓ

theorem pte_of_node {m : Mem} {r a ℓ g : ℕ} (h : tableNode m r a (ℓ + 1) = some g) :
    ∃ f, tableNode m r a ℓ = some f ∧ (pteAt m f (tableIndex a ℓ)).present = true ∧
      (pteAt m f (tableIndex a ℓ)).base = g := by
  obtain ⟨f, hf, hg⟩ := node_succ_eq_some.1 h
  exact ⟨f, hf, child_eq_some.1 hg⟩

/-- The tables on the way to a page. -/
theorem exists_tables {m : Mem} {r a g : ℕ} (h4 : tableNode m r a 4 = some g) :
    ∃ f₁ f₂ f₃, tableNode m r a 1 = some f₁ ∧ tableNode m r a 2 = some f₂ ∧
      tableNode m r a 3 = some f₃ := by
  obtain ⟨f₁, h1⟩ := exists_node_of_le h4 (show 1 ≤ 4 by omega)
  obtain ⟨f₂, h2⟩ := exists_node_of_le h4 (show 2 ≤ 4 by omega)
  obtain ⟨f₃, h3⟩ := exists_node_of_le h4 (show 3 ≤ 4 by omega)
  exact ⟨f₁, f₂, f₃, h1, h2, h3⟩

/-- The entries on a walk that reaches a page. -/
theorem walk_of_node {m : Mem} {cr3 a f₁ f₂ f₃ f₄ : ℕ} (h0 : tableIndex a 0 = 0)
    (h1 : tableNode m (rootFrame cr3) a 1 = some f₁)
    (h2 : tableNode m (rootFrame cr3) a 2 = some f₂)
    (h3 : tableNode m (rootFrame cr3) a 3 = some f₃)
    (h4 : tableNode m (rootFrame cr3) a 4 = some f₄) :
    walk m cr3 a = some ⟨frameVa (rootFrame cr3) (tableIndex a 0 * 8),
      frameVa f₁ (tableIndex a 1 * 8), frameVa f₂ (tableIndex a 2 * 8),
      frameVa f₃ (tableIndex a 3 * 8)⟩ := by
  obtain ⟨p1, b1⟩ := child_eq_some.1 ((node_succ_of_eq (ℓ := 0) rfl).symm.trans h1)
  obtain ⟨p2, b2⟩ := child_eq_some.1 ((node_succ_of_eq h1).symm.trans h2)
  obtain ⟨p3, b3⟩ := child_eq_some.1 ((node_succ_of_eq h2).symm.trans h3)
  obtain ⟨p4, -⟩ := child_eq_some.1 ((node_succ_of_eq h3).symm.trans h4)
  unfold pteAt at p1 b1 p2 b2 p3 b3 p4
  unfold walk
  simp only [pml4eVa_eq h0, entryVa_eq, pdpe64Index, pde64Index, pte64Index, p1, b1, p2, b2,
    p3, b3, p4, Bool.not_true, Bool.false_eq_true, if_false]

/-- A walk that does not reach a page stops at an entry that is not present. -/
theorem walk_of_node_none {m : Mem} {cr3 a : ℕ} (h0 : tableIndex a 0 = 0)
    (h : tableNode m (rootFrame cr3) a 4 = none) : walk m cr3 a = none := by
  by_contra hne
  obtain ⟨w, hw⟩ := Option.ne_none_iff_exists'.1 hne
  unfold walk at hw
  simp only [pml4eVa_eq h0, entryVa_eq, pdpe64Index, pde64Index, pte64Index] at hw
  by_cases p1 : (readPte m (frameVa (rootFrame cr3) (tableIndex a 0 * 8))).present
  case neg => simp [p1] at hw
  set f₁ := (readPte m (frameVa (rootFrame cr3) (tableIndex a 0 * 8))).base with hf₁
  by_cases p2 : (readPte m (frameVa f₁ (tableIndex a 1 * 8))).present
  case neg => simp [p1, p2] at hw
  set f₂ := (readPte m (frameVa f₁ (tableIndex a 1 * 8))).base with hf₂
  by_cases p3 : (readPte m (frameVa f₂ (tableIndex a 2 * 8))).present
  case neg => simp [p1, p2, p3] at hw
  set f₃ := (readPte m (frameVa f₂ (tableIndex a 2 * 8))).base with hf₃
  by_cases p4 : (readPte m (frameVa f₃ (tableIndex a 3 * 8))).present
  case neg => simp [p1, p2, p3, p4] at hw
  have h1 : tableNode m (rootFrame cr3) a 1 = some f₁ :=
    (node_succ_of_eq (ℓ := 0) rfl).trans (child_eq_some.2 ⟨p1, hf₁.symm⟩)
  have h2 := (node_succ_of_eq h1).trans (child_eq_some.2 ⟨p2, hf₂.symm⟩)
  have h3 := (node_succ_of_eq h2).trans (child_eq_some.2 ⟨p3, hf₃.symm⟩)
  have h4 := (node_succ_of_eq h3).trans (child_eq_some.2 ⟨p4, rfl⟩)
  exact absurd (h.symm.trans h4) (by simp)

end Petmem
