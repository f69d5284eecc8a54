import Petmem.SwapRoundTrip

/-!
# The swap bitmap

Eight slots share each byte of `alloc_map`, and the bytes are signed. Where every slot has its bit
in the map, `swap_out_page` and `swap_in_page` set and clear the bit of one slot and leave all the
other bits alone, those of the same byte and the sign bit included.

`swap_init` gives every slot a bit only for some sizes of the file: it rounds the number of bytes
up where it is no multiple of 3, and not where the number of pages is no multiple of 8.
-/

namespace Petmem
namespace Swap

open ByteMemory

variable {swap swap' : SwapSpace} {i j : ℕ} {v : Bool}

/-! ## Checks and bits -/

theorem checkBitmap_of_used (h : InMap swap i) (hb : slotBit swap i = true) :
    checkBitmap swap i = .ok 1 := by
  rw [checkBitmap_of_inMap h, hb]
  rfl

/-- In a full bitmap a slot that is not free is in use. -/
theorem FullMap.check (h : FullMap swap) (hi : i < swap.size) :
    checkBitmap swap i = .ok 0 ∨ checkBitmap swap i = .ok 1 := by
  cases hb : slotBit swap i with
  | false => exact .inl (checkBitmap_of_free (h i hi) hb)
  | true => exact .inr (checkBitmap_of_used (h i hi) hb)

theorem FullMap.bit_of_not_free (h : FullMap swap) (hi : i < swap.size)
    (hne : checkBitmap swap i ≠ .ok 0) : slotBit swap i = true := by
  by_contra hb
  exact hne (checkBitmap_of_free (h i hi) (Bool.eq_false_of_not_eq_true hb))

/-- What is checked of the slot that was set. -/
theorem SetSlot.check_self (hset : SetSlot swap i v swap') (h : InMap swap i) :
    checkBitmap swap' i = .ok (if v then 1 else 0) := by
  rw [checkBitmap_of_inMap (hset.inMap h), hset.bit, if_pos rfl]

/-- The check of any other slot is what it was, also past the end. -/
theorem SetSlot.check_of_ne (hset : SetSlot swap i v swap') (h : FullMap swap) (hne : j ≠ i) :
    checkBitmap swap' j = checkBitmap swap j := by
  by_cases hj : j < swap.size
  · rw [checkBitmap_of_inMap (hset.inMap (h j hj)), checkBitmap_of_inMap (h j hj), hset.bit,
      if_neg hne]
  · unfold checkBitmap
    rw [if_neg hj, if_neg (by rwa [hset.size])]

/-- A bitmap is its bits. -/
theorem allocMap_ext (hlen : swap'.allocMap.length = swap.allocMap.length)
    (hbit : ∀ j, slotBit swap' j = slotBit swap j) : swap'.allocMap = swap.allocMap := by
  refine List.ext_getElem hlen fun n hn hn' => BitVec.eq_of_getLsbD_eq fun b hb => ?_
  have h := hbit (8 * n + b)
  unfold slotBit at h
  rw [show (8 * n + b) / 8 = n by omega, show (8 * n + b) % 8 = b by omega,
    List.getD_eq_getElem _ _ hn, List.getD_eq_getElem _ _ hn'] at h
  exact h

/-- Setting a free slot and clearing it again gives the same bytes. -/
theorem SetSlot.undo {swap'' : SwapSpace} (hset : SetSlot swap i true swap')
    (hclear : SetSlot swap' i false swap'') (hfree : slotBit swap i = false) :
    swap''.allocMap = swap.allocMap := by
  refine allocMap_ext (hclear.length.trans hset.length) fun j => ?_
  rw [hclear.bit, hset.bit]
  by_cases hj : j = i
  · rw [if_pos hj, hj, hfree]
  · rw [if_neg hj, if_neg hj]

/-! ## The operations on a full bitmap -/

/-- `swap_out_page` sets the bit of the first free slot. -/
theorem swapOutPage_first (h : FullMap swap) (hsize : swap.size ≤ 2 ^ 31)
    (hfirst : IsFirstFree swap i) (index : ℕ) (page : ℕ → Byte) (file : SwapFile) :
    ∃ swap', swapOutPage index page swap file
        = .ok (i, swap', fileWrite file page 4096 (sext32 (i * 4096))) ∧
      SetSlot swap i true swap' := by
  obtain ⟨hmap, hbit⟩ := inMap_of_free hfirst.1
  have hi := hmap.lt_size
  obtain ⟨s, swap', hsi, hrun, hs, -, hset⟩ :=
    swapOutPage_of_free h hi (by omega) hbit index page file
  obtain rfl : s = i := by
    by_contra hne
    exact hfirst.2 s (by omega) (checkBitmap_of_free (h s (by omega)) hs)
  exact ⟨swap', hrun, hset⟩

/-- Without a free slot it changes nothing. -/
theorem swapOutPage_none_free (h : FullMap swap)
    (hnone : ∀ i < swap.size, checkBitmap swap i ≠ .ok 0) (index : ℕ) (page : ℕ → Byte)
    (file : SwapFile) : swapOutPage index page swap file = .ok (index, swap, file) := by
  obtain ⟨res, hrun⟩ := swapOutPage_returns h index page file
  cases swapOutPage_cases hrun with
  | @taken s swap' hmap _ hbit _ _ =>
    rw [h.bit_of_not_free hmap.lt_size (hnone s hmap.lt_size)] at hbit
    cases hbit
  | full _ => exact hrun

/-- The first free slot, if there is a free one. -/
theorem exists_firstFree (hfree : ∃ i, checkBitmap swap i = .ok 0) : ∃ i, IsFirstFree swap i := by
  classical
  exact ⟨Nat.find hfree, Nat.find_spec hfree, fun j hj => Nat.find_min hfree hj⟩

/-- **The bitmap is an array of independent bits.** Where every slot has its bit in the map, a
check gives 0 or 1; `swap_out_page` takes the first free slot and changes the check of that slot
only, or finds none and changes nothing; `swap_in_page` frees its slot and changes no other; and
the two after one another give the bytes of the map back. -/
theorem bitmap_slots_independent (h : FullMap swap) (hsize : swap.size < 2 ^ 31) :
    (∀ i < swap.size, checkBitmap swap i = .ok 0 ∨ checkBitmap swap i = .ok 1) ∧
    ((∃ i, checkBitmap swap i = .ok 0) → ∀ index page file, ∃ i swap' file',
      swapOutPage index page swap file = .ok (i, swap', file') ∧ IsFirstFree swap i ∧
      checkBitmap swap' i = .ok 1 ∧ (∀ j ≠ i, checkBitmap swap' j = checkBitmap swap j) ∧
      ∃ got swap'', swapInPage i swap' file' = .ok (got, swap'') ∧
        swap''.allocMap = swap.allocMap) ∧
    ((∀ i < swap.size, checkBitmap swap i ≠ .ok 0) → ∀ index page file,
      swapOutPage index page swap file = .ok (index, swap, file)) ∧
    (∀ i < swap.size, ∀ file, ∃ got swap', swapInPage i swap file = .ok (got, swap') ∧
      checkBitmap swap' i = .ok 0 ∧ ∀ j ≠ i, checkBitmap swap' j = checkBitmap swap j) := by
  refine ⟨fun i hi => h.check hi, fun hfree index page file => ?_, swapOutPage_none_free h,
    fun i hi file => ?_⟩
  · obtain ⟨i, hfirst⟩ := exists_firstFree hfree
    obtain ⟨hmap, hbit⟩ := inMap_of_free hfirst.1
    obtain ⟨swap', hout, hset⟩ := swapOutPage_first h (by omega) hfirst index page file
    obtain ⟨swap'', hin, hclear⟩ := swapInPage_spec _ (hset.inMap hmap)
    exact ⟨i, swap', _, hout, hfirst, hset.check_self hmap, fun j hj => hset.check_of_ne h hj,
      _, swap'', hin, hset.undo hclear hbit⟩
  · obtain ⟨swap', hin, hclear⟩ := swapInPage_spec file (h i hi)
    exact ⟨_, swap', hin, hclear.check_self (h i hi), fun j hj => hclear.check_of_ne h hj⟩

/-- Only the slot of the sign bit is free in the one byte of this map. -/
theorem bitmap_slots_independent_of_sign_bit :
    ∃ swap' file', swapOutPage 0 (fun _ => 1) ⟨8, [0x7f]⟩ smallFile = .ok (7, swap', file') ∧
      checkBitmap swap' 7 = .ok 1 ∧ (∀ j ≠ 7, checkBitmap swap' j = checkBitmap ⟨8, [0x7f]⟩ j) ∧
      ∃ got swap'', swapInPage 7 swap' file' = .ok (got, swap'') ∧ swap''.allocMap = [0x7f] := by
  have hfull : FullMap ⟨8, [0x7f]⟩ := fun j hj => ⟨hj, by
    simp only [List.length_singleton] at hj ⊢
    omega⟩
  obtain ⟨i, swap', file', hout, hfirst, hrest⟩ :=
    (bitmap_slots_independent hfull (by norm_num)).2.1 ⟨7, by decide⟩ 0 (fun _ => 1) smallFile
  obtain rfl : i = 7 := hfirst.eq ⟨by decide, by decide⟩
  exact ⟨swap', file', hout, hrest⟩

/-! ## The size of the map -/

/-- The slots of a swap file, and the bytes of the map that `swap_init` allocates for them. -/
theorem swapInit_size (file : SwapFile) :
    (swapInit file).size = file.length / 4096 % 2 ^ 32 ∧
      (swapInit file).allocMap.length = (swapInit file).size / 8
        + if (swapInit file).size / 8 % 3 = 0 then 0 else 1 := by
  have hpages : file.length >>> 12 = file.length / 4096 := Nat.shiftRight_eq_div_pow _ 12
  have hbytes : ∀ n, n >>> 3 = n / 8 := fun n => Nat.shiftRight_eq_div_pow n 3
  unfold swapInit
  simp only [List.length_map, List.length_range, hpages, hbytes]
  refine ⟨trivial, ?_⟩
  by_cases h3 : file.length / 4096 % 2 ^ 32 / 8 % 3 = 0
  · rw [if_neg (not_not.2 h3), if_pos h3]
    rfl
  · rw [if_pos h3, if_neg h3]

/-- Every slot has its bit exactly when the slots fill their bytes or the number of bytes was
rounded up. -/
theorem swapInit_covers_iff (file : SwapFile) :
    (∀ i < (swapInit file).size, i >>> 3 < (swapInit file).allocMap.length) ↔
      (swapInit file).size % 8 = 0 ∨ (swapInit file).size / 8 % 3 ≠ 0 := by
  have hlen := (swapInit_size file).2
  have hbytes : ∀ n, n >>> 3 = n / 8 := fun n => Nat.shiftRight_eq_div_pow n 3
  simp only [hbytes]
  constructor
  · intro h
    by_contra hnot
    obtain ⟨h8, h3⟩ := not_or.1 hnot
    rw [if_pos (not_not.1 h3)] at hlen
    -- the last slot is in a byte of its own
    have := h ((swapInit file).size - 1) (by omega)
    omega
  · rintro (h8 | h3) i hi
    · omega
    · rw [if_neg h3] at hlen
      omega

/-- The swap space after `swap_init` and any calls of `swap_out_page` and `swap_in_page`. -/
inductive SwapCalls (file : SwapFile) : SwapSpace → SwapFile → Prop
  | init : SwapCalls file (swapInit file) file
  | out {swap swap' : SwapSpace} {file₁ file₂ : SwapFile} {index j : ℕ} {page : ℕ → Byte} :
      SwapCalls file swap file₁ → swapOutPage index page swap file₁ = .ok (j, swap', file₂) →
      SwapCalls file swap' file₂
  | swapIn {swap swap' : SwapSpace} {file₁ : SwapFile} {j : ℕ} {page : ℕ → Byte} :
      SwapCalls file swap file₁ → swapInPage j swap file₁ = .ok (page, swap') →
      SwapCalls file swap' file₁

/-- No call of `swap_out_page`, and none of `swap_in_page` on a slot, leaves the map. -/
def StaysInMap (file : SwapFile) : Prop :=
  ∀ swap file', SwapCalls file swap file' →
    (∀ index page, swapOutPage index page swap file' ≠ .error .outOfBounds) ∧
    ∀ i < swap.size, swapInPage i swap file' ≠ .error .outOfBounds

/-- The calls keep a full map full. -/
theorem SwapCalls.fullMap {file file' : SwapFile} (hinit : FullMap (swapInit file))
    (h : SwapCalls file swap file') : FullMap swap := by
  induction h with
  | init => exact hinit
  | @out swap₁ swap₂ file₁ file₂ index j page _ hrun ih =>
    generalize hres : (j, swap₂, file₂) = res at hrun
    cases swapOutPage_cases hrun with
    | @taken s swap' _ _ _ _ hset =>
      obtain ⟨rfl, hrest⟩ := Prod.mk.inj hres
      obtain ⟨rfl, -⟩ := Prod.mk.inj hrest
      exact ih.setSlot hset
    | full _ =>
      obtain ⟨rfl, hrest⟩ := Prod.mk.inj hres
      obtain ⟨rfl, -⟩ := Prod.mk.inj hrest
      exact ih
  | @swapIn swap₁ swap₂ file₁ j page _ hrun ih =>
    unfold swapInPage at hrun
    obtain ⟨swap₃, hput, hrun⟩ := bind_eq_ok.1 hrun
    obtain ⟨-, rfl⟩ := Prod.mk.inj (Except.ok.inj hrun)
    rcases putValue_cases hput with rfl | hset
    · exact ih
    · exact ih.setSlot hset

theorem staysInMap_of_fullMap {file : SwapFile} (hinit : FullMap (swapInit file)) :
    StaysInMap file := by
  intro swap file' hcalls
  have hfull := hcalls.fullMap hinit
  refine ⟨fun index page hstop => ?_, fun i hi hstop => ?_⟩
  · obtain ⟨res, hrun⟩ := swapOutPage_returns hfull index page file'
    rw [hrun] at hstop
    cases hstop
  · obtain ⟨swap', hrun, -⟩ := swapInPage_spec file' (hfull i hi)
    rw [hrun] at hstop
    cases hstop

/-- **Every slot has a bit, and no call leaves the map**, exactly for the files whose number of
pages is a multiple of 8, or comes to a number of whole bytes that is no multiple of 3. -/
theorem swap_slots_in_map_iff (file : SwapFile) (hpages : file.length / 4096 < 2 ^ 32) :
    (∀ i < (swapInit file).size, i >>> 3 < (swapInit file).allocMap.length) ∧ StaysInMap file ↔
      file.length / 4096 % 8 = 0 ∨ file.length / 4096 / 8 % 3 ≠ 0 := by
  have hsize := (swapInit_size file).1
  rw [Nat.mod_eq_of_lt hpages] at hsize
  rw [← hsize, ← swapInit_covers_iff]
  refine ⟨fun h => h.1, fun h => ⟨h, staysInMap_of_fullMap fun i hi => ⟨hi, ?_⟩⟩⟩
  rw [← Nat.shiftRight_eq_div_pow i 3]
  exact h i hi

/-- A file of nine pages, the last of which has the first bit of the second byte. -/
theorem swap_slots_in_map_of_nine_pages :
    StaysInMap ⟨fun _ => 0, 9 * 4096⟩ ∧ (swapInit ⟨fun _ => 0, 9 * 4096⟩).allocMap.length = 2 :=
  ⟨((swap_slots_in_map_iff ⟨fun _ => 0, 9 * 4096⟩ (by norm_num)).2
    (.inr (by norm_num))).2, rfl⟩

/-- A file of one page gets a map without bytes, and `swap_out_page` reads the first one. -/
theorem swap_slot_out_of_map :
    ∃ file : SwapFile, file.length = 1 * 4096 ∧ (swapInit file).size = 1 ∧
      ¬ 0 >>> 3 < (swapInit file).allocMap.length ∧
      ∀ page, swapOutPage 0 page (swapInit file) file = .error .outOfBounds :=
  ⟨⟨fun _ => 0, 1 * 4096⟩, rfl, rfl, by decide, fun _ => rfl⟩

/-! ## The end of the map -/

variable {e : Stop}

/-- Slot `i` exists, and its bit would be behind the end of the bitmap. -/
def OffMap (swap : SwapSpace) (i : ℕ) : Prop := i < swap.size ∧ swap.allocMap.length ≤ i / 8

theorem not_offMap_of_inMap (h : InMap swap i) : ¬ OffMap swap i := fun hoff =>
  absurd h.lt_map (Nat.not_lt.2 hoff.2)

theorem checkBitmap_of_offMap (h : OffMap swap i) : checkBitmap swap i = .error .outOfBounds := by
  unfold checkBitmap
  rw [if_pos h.1, show i >>> 3 = i / 8 from Nat.shiftRight_eq_div_pow i 3,
    List.getElem?_eq_none h.2]

theorem putValue_eq_error {v : Bool} :
    putValue swap i v = .error e ↔ e = .outOfBounds ∧ OffMap swap i := by
  by_cases hi : i < swap.size
  · by_cases hmap : i / 8 < swap.allocMap.length
    · obtain ⟨swap', hput, -⟩ := putValue_spec v ⟨hi, hmap⟩
      rw [hput]
      simp [OffMap, hmap]
    · unfold putValue OffMap
      rw [if_pos hi, show i >>> 3 = i / 8 from Nat.shiftRight_eq_div_pow i 3,
        List.getElem?_eq_none (by omega)]
      simp [hi, Nat.not_lt.1 hmap, eq_comm]
  · unfold putValue OffMap
    rw [if_neg hi]
    simp [hi]

theorem swapInPage_eq_error {file : SwapFile} :
    swapInPage i swap file = .error e ↔ e = .outOfBounds ∧ OffMap swap i := by
  unfold swapInPage
  rw [bind_eq_error, putValue_eq_error]
  constructor
  · rintro (h | ⟨swap', -, h⟩)
    · exact h
    · cases h
  · exact .inl

theorem swapInPage_returns {file : SwapFile} :
    (∃ res, swapInPage i swap file = .ok res) ↔ ¬ OffMap swap i := by
  constructor
  · rintro ⟨res, hrun⟩ hoff
    rw [swapInPage_eq_error.2 ⟨rfl, hoff⟩] at hrun
    cases hrun
  · intro hoff
    cases hrun : swapInPage i swap file with
    | error e => exact absurd (swapInPage_eq_error.1 hrun).2 hoff
    | ok res => exact ⟨res, rfl⟩

/-- The scan of `swap_out_page` comes to the end of the bitmap: every slot that has a bit is in
use, and there is another slot. -/
def PassesEnd (swap : SwapSpace) : Prop :=
  ∃ i < 2 ^ 31, OffMap swap i ∧ ∀ j < i, slotBit swap j = true

theorem swapOutScan_eq_error {index : ℕ} {page : ℕ → Byte} {file : SwapFile} :
    ∀ n i, i + n ≤ swap.size → (swapOutScan index page n i swap file = .error e ↔
      e = .outOfBounds ∧ ∃ j, i ≤ j ∧ j < i + n ∧ OffMap swap j ∧
        ∀ k, i ≤ k → k < j → slotBit swap k = true) := by
  intro n
  induction n with
  | zero =>
    intro i _
    constructor
    · intro h
      cases h
    · rintro ⟨-, j, h1, h2, -⟩
      omega
  | succ n ih =>
    intro i hn
    by_cases hmap : InMap swap i
    · -- the slots behind this one decide, unless it is taken
      rcases swapOutScan_succ index n page file hmap with ⟨hbit, swap', -, hrun⟩ | ⟨hbit, hrun⟩
      · rw [hrun]
        constructor
        · intro h
          cases h
        · rintro ⟨-, j, h1, -, hoff, hused⟩
          rcases Nat.eq_or_lt_of_le h1 with rfl | hlt
          · exact absurd hoff (not_offMap_of_inMap hmap)
          · rw [hused i (le_refl i) hlt] at hbit
            cases hbit
      · rw [hrun, ih (i + 1) (by omega)]
        refine and_congr_right fun _ => exists_congr fun j => ?_
        constructor
        · rintro ⟨h1, h2, hoff, hused⟩
          refine ⟨by omega, by omega, hoff, fun k hk1 hk2 => ?_⟩
          rcases Nat.eq_or_lt_of_le hk1 with rfl | hlt
          · exact hbit
          · exact hused k hlt hk2
        · rintro ⟨h1, h2, hoff, hused⟩
          have hne : i ≠ j := by
            rintro rfl
            exact not_offMap_of_inMap hmap hoff
          exact ⟨by omega, by omega, hoff, fun k hk1 hk2 => hused k (by omega) hk2⟩
    · have hoff : OffMap swap i := by
        refine ⟨by omega, ?_⟩
        by_contra hlt
        exact hmap ⟨by omega, by omega⟩
      rw [swapOutScan, checkBitmap_of_offMap hoff]
      simp only [bind, Except.bind, Except.error.injEq]
      constructor
      · rintro rfl
        exact ⟨rfl, i, le_refl i, by omega, hoff, fun k h1 h2 => by omega⟩
      · exact fun h => h.1.symm

theorem swapOutPage_eq_error {index : ℕ} {page : ℕ → Byte} {file : SwapFile} :
    swapOutPage index page swap file = .error e ↔ e = .outOfBounds ∧ PassesEnd swap := by
  unfold swapOutPage
  rw [swapOutScan_eq_error _ 0 (by omega)]
  refine and_congr_right fun _ => exists_congr fun j => ?_
  constructor
  · rintro ⟨-, h2, hoff, hused⟩
    exact ⟨by omega, hoff, fun k hk => hused k (Nat.zero_le k) hk⟩
  · rintro ⟨h2, hoff, hused⟩
    have := hoff.1
    exact ⟨Nat.zero_le j, by omega, hoff, fun k _ hk => hused k hk⟩

theorem SetSlot.offMap {k : ℕ} (hset : SetSlot swap i v swap') :
    OffMap swap' k ↔ OffMap swap k := by
  unfold OffMap
  rw [hset.size, hset.length]

theorem swapInPage_offMap {page : ℕ → Byte} {file : SwapFile} {k : ℕ}
    (h : swapInPage i swap file = .ok (page, swap')) : OffMap swap' k ↔ OffMap swap k := by
  unfold swapInPage at h
  obtain ⟨swap₁, hput, h⟩ := bind_eq_ok.1 h
  obtain ⟨-, rfl⟩ := Prod.mk.inj (Except.ok.inj h)
  rcases putValue_cases hput with rfl | hset
  · exact Iff.rfl
  · exact hset.offMap

/-- `swap_out_page` keeps the size of the map, and names a slot that has a bit, or slot 0. -/
theorem OutCase.offMap {page : ℕ → Byte} {file file' : SwapFile}
    (h : OutCase 0 page swap file (j, swap', file')) :
    (∀ i, OffMap swap' i ↔ OffMap swap i) ∧ ¬ OffMap swap (j % 2 ^ 32) := by
  generalize hres : (j, swap', file') = res at h
  cases h with
  | @taken s swap₁ hmap hs _ _ hset =>
    obtain ⟨rfl, hrest⟩ := Prod.mk.inj hres
    obtain ⟨rfl, -⟩ := Prod.mk.inj hrest
    refine ⟨fun i => hset.offMap, ?_⟩
    rw [Nat.mod_eq_of_lt (by omega)]
    exact not_offMap_of_inMap hmap
  | full hused =>
    obtain ⟨rfl, hrest⟩ := Prod.mk.inj hres
    obtain ⟨rfl, -⟩ := Prod.mk.inj hrest
    refine ⟨fun i => Iff.rfl, ?_⟩
    rw [Nat.zero_mod]
    rintro ⟨hpos, hlen⟩
    -- slot 0 is in use, so it has a bit
    have hbit := hused 0 (by omega)
    unfold slotBit at hbit
    rw [List.getD_eq_default _ _ hlen] at hbit
    cases hbit

/-- The size of the file decides which slots have no bit. -/
theorem swapInit_offMap {file file' : SwapFile} (h : file'.length = file.length) :
    OffMap (swapInit file') i ↔ OffMap (swapInit file) i := by
  have hsize : (swapInit file').size = (swapInit file).size := by
    rw [(swapInit_size file').1, (swapInit_size file).1, h]
  unfold OffMap
  rw [(swapInit_size file').2, (swapInit_size file).2, hsize]

theorem fileWrite_length (file : SwapFile) (page : ℕ → Byte) (n offset : ℕ) :
    (fileWrite file page n offset).length = file.length := by
  unfold fileWrite
  split <;> rfl

theorem OutCase.length {index : ℕ} {page : ℕ → Byte} {file file' : SwapFile}
    (h : OutCase index page swap file (j, swap', file')) : file'.length = file.length := by
  generalize hres : (j, swap', file') = res at h
  cases h with
  | taken _ _ _ _ _ =>
    rw [(Prod.mk.inj (Prod.mk.inj hres).2).2, fileWrite_length]
  | full _ => rw [(Prod.mk.inj (Prod.mk.inj hres).2).2]

end Swap

end Petmem
