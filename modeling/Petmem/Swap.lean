import Petmem.Basic
import Mathlib.Data.List.Basic

/-!
# The swap file (`swap.c`)

A swap space is a file of 4096-byte slots and a bitmap of the slots in use. `swap_init`
fills the bitmap from the first bytes of the file itself and sizes it by a rule that can
come out too short; an access past its end stops with `Stop.outOfBounds`.

Slot offsets are computed in 32 bits, signed on the way out and unsigned on the way in.
-/

namespace Petmem

open ByteMemory

/-- The file `/tmp/cs2510.swap`: its bytes and its length. -/
structure SwapFile where
  bytes : ℕ → Byte
  length : ℕ

/-- `struct swap_space`. -/
structure SwapSpace where
  size : ℕ
  allocMap : List Byte

namespace Swap

/-- `file_read` of `n` bytes into a buffer. -/
def fileRead (file : SwapFile) (offset : ℕ) : ℕ → Byte := fun i => file.bytes (offset + i)

/-- `file_write`: `vfs_write` refuses a negative offset. A slot lies inside the file, so
the length does not change. -/
def fileWrite (file : SwapFile) (page : ℕ → Byte) (n offset : ℕ) : SwapFile :=
  if offset < 2 ^ 63 then { file with bytes := blit file.bytes offset page n } else file

/-- `swap_init`. -/
def swapInit (file : SwapFile) : SwapSpace :=
  let pages := (file.length >>> 12) % 2 ^ 32
  let charMapPageSize := pages >>> 3
  let charMapPageSize := if charMapPageSize % 3 ≠ 0 then charMapPageSize + 1 else charMapPageSize
  { size := pages, allocMap := (List.range charMapPageSize).map (fileRead file 0) }

/-- A signed `char` as an `int`. -/
def promote (b : Byte) : BitVec 32 := b.signExtend 32

/-- `check_bitmap`: 0 for a free slot, 1 for a slot in use, -1 out of bounds. The byte is a signed
`char`, which masks and shifts as an `int`. -/
def checkBitmap (swap : SwapSpace) (index : ℕ) : Except Stop ℤ :=
  if index < swap.size then
    match swap.allocMap[index >>> 3]? with
    | none => .error .outOfBounds
    | some b =>
      .ok ((promote b &&& (1#32 <<< (index % 8))).sshiftRight (index % 8)).toInt
  else .ok (-1)

/-- `put_value`. -/
def putValue (swap : SwapSpace) (index : ℕ) (value : Bool) : Except Stop SwapSpace :=
  if index < swap.size then
    match swap.allocMap[index >>> 3]? with
    | none => .error .outOfBounds
    | some b =>
      let b := (promote b &&& ~~~(1#32 <<< (index % 8))).setWidth 8
      let b := (promote b ||| ((BitVec.ofBool value).setWidth 32 <<< (index % 8))).setWidth 8
      .ok { swap with allocMap := swap.allocMap.set (index >>> 3) b }
  else .ok swap

/-- The loop of `swap_out_page` from slot `i`, `n` slots being left. `*index` keeps its old
value when no slot is free. -/
def swapOutScan (index : ℕ) (page : ℕ → Byte) :
    ℕ → ℕ → SwapSpace → SwapFile → Except Stop (ℕ × SwapSpace × SwapFile)
  | 0, _, swap, file => .ok (index, swap, file)
  | n + 1, i, swap, file => do
    if (← checkBitmap swap i) = 0 then
      let swap ← putValue swap i true
      -- `i * 4096` is negative from slot 2^19 on
      return (i, swap, fileWrite file page 4096 (sext32 (i * 4096)))
    swapOutScan index page n (i + 1) swap file

/-- `swap_out_page`; the loop variable is a signed 32-bit integer. -/
def swapOutPage (index : ℕ) (page : ℕ → Byte) (swap : SwapSpace) (file : SwapFile) :
    Except Stop (ℕ × SwapSpace × SwapFile) :=
  swapOutScan index page (min swap.size (2 ^ 31)) 0 swap file

/-- `swap_in_page`: the page that is read, and the bitmap with the slot released. -/
def swapInPage (index : ℕ) (swap : SwapSpace) (file : SwapFile) :
    Except Stop ((ℕ → Byte) × SwapSpace) := do
  let page := fileRead file (index * 4096 % 2 ^ 32)
  let swap ← putValue swap index false
  return (page, swap)

/-! ## Slots -/

/-- The bitmap bit of slot `i`. -/
def slotBit (swap : SwapSpace) (i : ℕ) : Bool :=
  (swap.allocMap.getD (i / 8) 0).getLsbD (i % 8)

/-- Slot `i` exists and its bit is inside the bitmap. -/
structure InMap (swap : SwapSpace) (i : ℕ) : Prop where
  lt_size : i < swap.size
  lt_map : i / 8 < swap.allocMap.length

instance (swap : SwapSpace) (i : ℕ) : Decidable (InMap swap i) :=
  decidable_of_iff (i < swap.size ∧ i / 8 < swap.allocMap.length)
    ⟨fun h => ⟨h.1, h.2⟩, fun h => ⟨h.lt_size, h.lt_map⟩⟩

/-- `swap_out_page` has room: a slot inside the bitmap is free, and its offset fits in 31
bits. -/
def HasRoom (swap : SwapSpace) : Prop :=
  ∃ i, InMap swap i ∧ i < 2 ^ 19 ∧ slotBit swap i = false

/-- `swap'` is `swap` with the bit of slot `i` set to `v`. -/
structure SetSlot (swap : SwapSpace) (i : ℕ) (v : Bool) (swap' : SwapSpace) : Prop where
  size : swap'.size = swap.size
  length : swap'.allocMap.length = swap.allocMap.length
  bit : ∀ j, slotBit swap' j = if j = i then v else slotBit swap j

theorem SetSlot.inMap {swap swap' : SwapSpace} {i j : ℕ} {v : Bool}
    (h : SetSlot swap i v swap') (hj : InMap swap j) : InMap swap' j :=
  ⟨h.size ▸ hj.lt_size, h.length ▸ hj.lt_map⟩

/-- Promotion keeps the bits of the byte; the sign fills the others. -/
theorem getLsbD_promote (b : Byte) {i : ℕ} (hi : i < 8) : (promote b).getLsbD i = b.getLsbD i := by
  rw [promote, BitVec.getLsbD_signExtend, if_pos hi]
  simp [show i < 32 by omega]

/-- What is masked and shifted out of a signed byte is 0 or 1, the sign bit included. -/
theorem toInt_masked (b : Byte) {i : ℕ} (hi : i < 8) :
    ((promote b &&& (1#32 <<< i)).sshiftRight i).toInt = if b.getLsbD i then 1 else 0 := by
  have hpow : ∀ i < 8, ((BitVec.twoPow 32 i).sshiftRight i).toInt = 1 := by decide
  rw [← BitVec.twoPow_eq, BitVec.and_twoPow, getLsbD_promote b hi]
  cases b.getLsbD i with
  | false => simp
  | true => exact hpow i hi

theorem checkBitmap_of_inMap {swap : SwapSpace} {i : ℕ} (h : InMap swap i) :
    checkBitmap swap i = .ok (if slotBit swap i then 1 else 0) := by
  unfold checkBitmap slotBit
  rw [if_pos h.lt_size, show i >>> 3 = i / 8 from Nat.shiftRight_eq_div_pow i 3,
    List.getElem?_eq_getElem h.lt_map]
  simp only [toInt_masked _ (Nat.mod_lt i (by norm_num))]
  simp [List.getD, List.getElem?_eq_getElem h.lt_map]

/-- A check that answers has looked inside the bitmap. -/
theorem inMap_of_checkBitmap {swap : SwapSpace} {i : ℕ} {z : ℤ} (hi : i < swap.size)
    (h : checkBitmap swap i = .ok z) : InMap swap i := by
  refine ⟨hi, ?_⟩
  by_contra hge
  unfold checkBitmap at h
  rw [if_pos hi, show i >>> 3 = i / 8 from Nat.shiftRight_eq_div_pow i 3,
    List.getElem?_eq_none (by omega)] at h
  cases h

/-- The byte `put_value` stores. -/
theorem getLsbD_putValue (b : Byte) (v : Bool) {i j : ℕ} (hj : j < 8) :
    ((promote ((promote b &&& ~~~(1#32 <<< i)).setWidth 8) |||
      ((BitVec.ofBool v).setWidth 32 <<< i)).setWidth 8).getLsbD j
      = if j = i then v else b.getLsbD j := by
  have hone : (1#32 <<< i).getLsbD j = decide (j = i) := by
    rw [BitVec.getLsbD_shiftLeft, BitVec.getLsbD_one]
    by_cases hlt : j < i
    · simp [hlt, show j ≠ i by omega]
    · by_cases heq : j = i
      · simp [heq, show i < 32 by omega]
      · simp [hlt, heq, show ¬ (j - i = 0) by omega]
  have hval : ((BitVec.ofBool v).setWidth 32 <<< i).getLsbD j = (decide (j = i) && v) := by
    rw [BitVec.getLsbD_shiftLeft, BitVec.getLsbD_setWidth, BitVec.getLsbD_ofBool]
    by_cases hlt : j < i
    · simp [hlt, show j ≠ i by omega]
    · by_cases heq : j = i
      · simp [heq, show i < 32 by omega]
      · simp [hlt, heq, show ¬ (j - i = 0) by omega]
  have hmask : ((promote b &&& ~~~(1#32 <<< i)).setWidth 8).getLsbD j
      = (b.getLsbD j && !decide (j = i)) := by
    rw [BitVec.getLsbD_setWidth, BitVec.getLsbD_and, BitVec.getLsbD_not, getLsbD_promote b hj, hone]
    simp [hj, show j < 32 by omega]
  rw [BitVec.getLsbD_setWidth, BitVec.getLsbD_or, getLsbD_promote _ hj, hmask, hval]
  by_cases heq : j = i
  · simp [heq, show i < 8 by omega]
  · simp [heq, hj]

/-- `put_value` sets one bit of the bitmap and leaves the others. -/
theorem putValue_spec {swap : SwapSpace} {i : ℕ} (v : Bool) (h : InMap swap i) :
    ∃ swap', putValue swap i v = .ok swap' ∧ SetSlot swap i v swap' := by
  have hm := h.lt_map
  have hshift : i >>> 3 = i / 8 := Nat.shiftRight_eq_div_pow i 3
  unfold putValue
  rw [if_pos h.lt_size, hshift, List.getElem?_eq_getElem hm]
  refine ⟨_, rfl, rfl, by simp, fun j => ?_⟩
  unfold slotBit
  simp only [List.getD_eq_getElem?_getD, List.getElem?_set]
  by_cases hb : i / 8 = j / 8
  · rw [if_pos hb, if_pos hm, Option.getD_some, getLsbD_putValue _ _ (Nat.mod_lt _ (by norm_num)),
      ← hb, List.getElem?_eq_getElem hm, Option.getD_some]
    by_cases hij : j = i
    · simp [hij]
    · rw [if_neg hij, if_neg (by omega)]
  · rw [if_neg hb, if_neg (by rintro rfl; exact hb rfl)]

/-! ## Swapping out -/

/-- What `swap_out_page` can do: take the first free slot and write the page there, or find
every slot in use and do nothing. -/
inductive OutCase (index : ℕ) (page : ℕ → Byte) (swap : SwapSpace) (file : SwapFile) :
    ℕ × SwapSpace × SwapFile → Prop
  | taken {s : ℕ} {swap' : SwapSpace} : InMap swap s → s < 2 ^ 31 → slotBit swap s = false →
      (∀ i < s, slotBit swap i = true) → SetSlot swap s true swap' →
      OutCase index page swap file (s, swap', fileWrite file page 4096 (sext32 (s * 4096)))
  | full : (∀ i < min swap.size (2 ^ 31), slotBit swap i = true) →
      OutCase index page swap file (index, swap, file)

/-- One round of the scan: a free slot is taken, a slot in use is passed over. -/
theorem swapOutScan_succ (index n : ℕ) (page : ℕ → Byte) {swap : SwapSpace} (file : SwapFile)
    {i : ℕ} (h : InMap swap i) :
    (slotBit swap i = false ∧ ∃ swap', SetSlot swap i true swap' ∧
      swapOutScan index page (n + 1) i swap file
        = .ok (i, swap', fileWrite file page 4096 (sext32 (i * 4096)))) ∨
    (slotBit swap i = true ∧ swapOutScan index page (n + 1) i swap file
      = swapOutScan index page n (i + 1) swap file) := by
  have hcheck := checkBitmap_of_inMap h
  cases hbit : slotBit swap i with
  | false =>
    obtain ⟨swap', hput, hset⟩ := putValue_spec true h
    refine .inl ⟨rfl, swap', hset, ?_⟩
    rw [swapOutScan]
    simp [hcheck, hbit, hput, bind, Except.bind, pure, Except.pure]
  | true =>
    refine .inr ⟨rfl, ?_⟩
    rw [swapOutScan]
    simp [hcheck, hbit, bind, Except.bind]

theorem swapOutScan_cases {index : ℕ} {page : ℕ → Byte} {swap : SwapSpace} {file : SwapFile}
    {res : ℕ × SwapSpace × SwapFile} :
    ∀ n i, i + n = min swap.size (2 ^ 31) → (∀ j < i, slotBit swap j = true) →
      swapOutScan index page n i swap file = .ok res → OutCase index page swap file res := by
  intro n
  induction n with
  | zero =>
    intro i hn hbits h
    cases h
    exact .full (by rwa [← hn])
  | succ n ih =>
    intro i hn hbits h
    have hmap : InMap swap i := by
      cases hc : checkBitmap swap i with
      | error e =>
        rw [swapOutScan, hc] at h
        cases h
      | ok z => exact inMap_of_checkBitmap (by omega) hc
    rcases swapOutScan_succ index n page file hmap with
      ⟨hbit, swap', hset, hrun⟩ | ⟨hbit, hrun⟩
    · rw [hrun] at h
      cases h
      exact .taken hmap (by omega) hbit hbits hset
    · rw [hrun] at h
      refine ih (i + 1) (by omega) (fun j hj => ?_) h
      by_cases hij : j = i
      · rw [hij, hbit]
      · exact hbits j (by omega)

theorem swapOutPage_cases {index : ℕ} {page : ℕ → Byte} {swap : SwapSpace} {file : SwapFile}
    {res : ℕ × SwapSpace × SwapFile} (h : swapOutPage index page swap file = .ok res) :
    OutCase index page swap file res :=
  swapOutScan_cases _ 0 (by omega) (by omega) h

/-- With room the scan returns, having taken a slot whose offset fits in 31 bits. -/
theorem swapOutScan_of_room {index : ℕ} {page : ℕ → Byte} {swap : SwapSpace} {file : SwapFile}
    {k : ℕ} (hk : InMap swap k) (hk3 : k < 2 ^ 19) (hfree : slotBit swap k = false) :
    ∀ n i, i ≤ k → k < i + n →
      ∃ s swap', swapOutScan index page n i swap file
          = .ok (s, swap', fileWrite file page 4096 (s * 4096)) ∧
        InMap swap s ∧ s < 2 ^ 19 ∧ slotBit swap s = false ∧ SetSlot swap s true swap' := by
  intro n
  induction n with
  | zero =>
    intro i h1 h2
    omega
  | succ n ih =>
    intro i h1 h2
    have hmap : InMap swap i :=
      ⟨lt_of_le_of_lt h1 hk.lt_size, lt_of_le_of_lt (Nat.div_le_div_right h1) hk.lt_map⟩
    rcases swapOutScan_succ index n page file hmap with
      ⟨hbit, swap', hset, hrun⟩ | ⟨hbit, hrun⟩
    · refine ⟨i, swap', ?_, hmap, by omega, hbit, hset⟩
      rw [hrun, sext32_of_lt (by omega)]
    · have hne : i ≠ k := by
        rintro rfl
        rw [hbit] at hfree
        cases hfree
      rw [hrun]
      exact ih (i + 1) (by omega) (by omega)

theorem swapOutPage_of_room (index : ℕ) (page : ℕ → Byte) {swap : SwapSpace} (file : SwapFile)
    (h : HasRoom swap) :
    ∃ s swap', swapOutPage index page swap file
        = .ok (s, swap', fileWrite file page 4096 (s * 4096)) ∧
      InMap swap s ∧ s < 2 ^ 19 ∧ slotBit swap s = false ∧ SetSlot swap s true swap' := by
  obtain ⟨k, hk, hk3, hfree⟩ := h
  have h1 := hk.lt_size
  exact swapOutScan_of_room hk hk3 hfree _ 0 (by omega) (by omega)

/-! ## Slot contents -/

/-- The bytes of the page in slot `i`. -/
def slotBytes (file : SwapFile) (i : ℕ) : ℕ → Byte := fun n => file.bytes (i * 4096 + n)

theorem slotBytes_fileWrite_same {file : SwapFile} {page : ℕ → Byte} {s n : ℕ}
    (hs : s < 2 ^ 19) (hn : n < 4096) :
    slotBytes (fileWrite file page 4096 (s * 4096)) s n = page n := by
  unfold slotBytes fileWrite
  rw [if_pos (by omega)]
  exact blit_apply hn

theorem slotBytes_fileWrite_of_ne {file : SwapFile} {page : ℕ → Byte} {s i n : ℕ}
    (hs : s < 2 ^ 19) (hne : i ≠ s) (hn : n < 4096) :
    slotBytes (fileWrite file page 4096 (s * 4096)) i n = slotBytes file i n := by
  unfold slotBytes fileWrite
  rw [if_pos (by omega)]
  exact blit_of_notMem (by omega)

/-! ## Swapping in -/

/-- `swap_in_page` of a slot in the bitmap clears its bit. -/
theorem swapInPage_spec {swap : SwapSpace} (file : SwapFile) {i : ℕ} (h : InMap swap i) :
    ∃ swap', swapInPage i swap file = .ok (fileRead file (i * 4096 % 2 ^ 32), swap') ∧
      SetSlot swap i false swap' := by
  obtain ⟨swap', hput, hset⟩ := putValue_spec false h
  refine ⟨swap', ?_, hset⟩
  unfold swapInPage
  simp only [hput, bind, Except.bind, pure, Except.pure]

/-- Below 2^19 the offset computed on the way in is the slot's. -/
theorem fileRead_slot (file : SwapFile) {i : ℕ} (h : i < 2 ^ 19) :
    fileRead file (i * 4096 % 2 ^ 32) = slotBytes file i := by
  rw [Nat.mod_eq_of_lt (by omega)]
  rfl

end Swap

end Petmem
