import Petmem.SwapRuns
import Mathlib.Data.Finset.Card
import Mathlib.Data.Finset.Range

/-!
# Swapping out and in again

`swap_out_page` computes the offset of a slot as an `int`, `swap_in_page` as a `u32`. Both come to
the slot number modulo 2^20 times the page size, except that the `int` is negative from the middle
on and the write is then refused. So a page comes back from its slot, whatever the other slots are
used for, exactly when the slot is in the first half and no other slot shares its offset.
-/

namespace Petmem
namespace Swap

open ByteMemory

/-- Further calls on the same swap space, after a page was stored in slot `i`: pages are swapped
out, and pages in other slots are swapped in. -/
inductive OtherCalls (i : ℕ) (swap : SwapSpace) (file : SwapFile) : SwapSpace → SwapFile → Prop
  | refl : OtherCalls i swap file swap file
  | out {swap₁ swap₂ : SwapSpace} {file₁ file₂ : SwapFile} {index j : ℕ} {page : ℕ → Byte} :
      OtherCalls i swap file swap₁ file₁ →
      swapOutPage index page swap₁ file₁ = .ok (j, swap₂, file₂) →
      OtherCalls i swap file swap₂ file₂
  | swapIn {swap₁ swap₂ : SwapSpace} {file₁ : SwapFile} {j : ℕ} {page : ℕ → Byte} :
      OtherCalls i swap file swap₁ file₁ → j ≠ i → checkBitmap swap₁ j = .ok 1 →
      swapInPage j swap₁ file₁ = .ok (page, swap₂) → OtherCalls i swap file swap₂ file₁

/-- Every page that is stored in slot `i` comes back, after any further calls. -/
def ComesBack (swap : SwapSpace) (file : SwapFile) (i : ℕ) : Prop :=
  ∀ index page swap₁ file₁, swapOutPage index page swap file = .ok (i, swap₁, file₁) →
    ∀ swap₂ file₂, OtherCalls i swap₁ file₁ swap₂ file₂ →
      ∃ got swap₃, swapInPage i swap₂ file₂ = .ok (got, swap₃) ∧ ∀ n < 4096, got n = page n

/-- Every slot has its bit in the bitmap. -/
def FullMap (swap : SwapSpace) : Prop := ∀ j < swap.size, InMap swap j

variable {swap swap' : SwapSpace} {file : SwapFile} {i j : ℕ} {page : ℕ → Byte}

theorem FullMap.setSlot {v : Bool} (h : FullMap swap) (hset : SetSlot swap i v swap') :
    FullMap swap' := fun j hj => hset.inMap (h j (hset.size ▸ hj))

/-! ## Offsets -/

/-- The offset a page is read from. -/
theorem fileRead_offset (file : SwapFile) (i n : ℕ) :
    fileRead file (i * 4096 % 2 ^ 32) n = file.bytes (i % 2 ^ 20 * 4096 + n) := by
  unfold fileRead
  congr 2
  omega

/-- In the first half a page is written to the offset it is read from. -/
theorem fileWrite_offset (file : SwapFile) (page : ℕ → Byte) (h : i % 2 ^ 20 < 2 ^ 19) :
    fileWrite file page 4096 (sext32 (i * 4096))
      = { file with bytes := blit file.bytes (i % 2 ^ 20 * 4096) page 4096 } := by
  have hoff : sext32 (i * 4096) = i % 2 ^ 20 * 4096 := by
    unfold sext32
    rw [if_pos (by omega)]
    omega
  unfold fileWrite
  rw [hoff, if_pos (by omega)]

/-- In the second half the write is refused. -/
theorem fileWrite_refused (file : SwapFile) (page : ℕ → Byte) (h : 2 ^ 19 ≤ i % 2 ^ 20) :
    fileWrite file page 4096 (sext32 (i * 4096)) = file := by
  have hoff : 2 ^ 63 ≤ sext32 (i * 4096) := by
    unfold sext32
    rw [if_neg (by omega)]
    omega
  unfold fileWrite
  rw [if_neg (by omega)]

/-! ## `swap_out_page` with a full bitmap -/

theorem swapOutPage_returns (h : FullMap swap) (index : ℕ) (page : ℕ → Byte) (file : SwapFile) :
    ∃ res, swapOutPage index page swap file = .ok res := by
  have hscan : ∀ n i, i + n ≤ swap.size →
      ∃ res, swapOutScan index page n i swap file = .ok res := by
    intro n
    induction n with
    | zero => exact fun _ _ => ⟨_, rfl⟩
    | succ n ih =>
      intro i hi
      rcases swapOutScan_succ index n page file (h i (by omega)) with ⟨-, _, -, hrun⟩ | ⟨-, hrun⟩
      · exact ⟨_, hrun⟩
      · rw [hrun]
        exact ih (i + 1) (by omega)
  exact hscan _ 0 (by omega)

/-- With a free slot in reach the first free slot is taken. -/
theorem swapOutPage_of_free (h : FullMap swap) (hj : j < swap.size) (hj' : j < 2 ^ 31)
    (hfree : slotBit swap j = false) (index : ℕ) (page : ℕ → Byte) (file : SwapFile) :
    ∃ s swap', s ≤ j ∧ swapOutPage index page swap file
        = .ok (s, swap', fileWrite file page 4096 (sext32 (s * 4096))) ∧
      slotBit swap s = false ∧ (∀ t < s, slotBit swap t = true) ∧ SetSlot swap s true swap' := by
  obtain ⟨res, hrun⟩ := swapOutPage_returns h index page file
  have hcase := swapOutPage_cases hrun
  cases hcase with
  | @taken s swap' _ _ hbit hbelow hset =>
    refine ⟨s, swap', ?_, hrun, hbit, hbelow, hset⟩
    by_contra hlt
    rw [hbelow j (by omega)] at hfree
    cases hfree
  | full hall =>
    rw [hall j (by omega)] at hfree
    cases hfree

/-- Any slot other than `i` can be made to be written. -/
theorem exists_write (hj' : j < 2 ^ 31) (page : ℕ → Byte)
    (h19 : j % 2 ^ 20 < 2 ^ 19) {swap₀ : SwapSpace} {file₀ : SwapFile} :
    ∀ (n : ℕ) {swap : SwapSpace} {file : SwapFile}, OtherCalls i swap₀ file₀ swap file →
      FullMap swap → j < swap.size → slotBit swap j = false →
      ((Finset.range j).filter fun t => slotBit swap t = false).card = n →
      ∃ swap' file', OtherCalls i swap₀ file₀ swap' file' ∧ swap'.size = swap.size ∧
        FullMap swap' ∧ ∀ n < 4096, file'.bytes (j % 2 ^ 20 * 4096 + n) = page n := by
  intro n
  induction n using Nat.strong_induction_on with
  | _ n ih =>
    intro swap file hcalls hfull hlt hfree hcard
    obtain ⟨s, swap', hsj, hrun, hbit, -, hset⟩ :=
      swapOutPage_of_free hfull hlt hj' hfree 0 page file
    have hcalls' := hcalls.out hrun
    rcases Nat.lt_or_eq_of_le hsj with hsj | rfl
    · -- a slot below `j` was free: one less is left
      have hfree' : slotBit swap' j = false := by
        rw [hset.bit, if_neg (by omega), hfree]
      have hless : ((Finset.range j).filter fun t => slotBit swap' t = false).card < n := by
        rw [← hcard]
        refine Finset.card_lt_card ⟨fun t ht => ?_, fun hsub => ?_⟩
        · simp only [Finset.mem_filter, Finset.mem_range] at ht ⊢
          rw [hset.bit] at ht
          by_cases hts : t = s
          · rw [if_pos hts] at ht
            cases ht.2
          · rwa [if_neg hts] at ht
        · have := hsub (Finset.mem_filter.2 ⟨Finset.mem_range.2 hsj, hbit⟩)
          simp only [Finset.mem_filter, hset.bit, if_true] at this
          cases this.2
      obtain ⟨swap₂, file₂, h1, h2, h3⟩ := ih _ hless hcalls' (hfull.setSlot hset)
        (by rw [hset.size]; exact hlt) hfree' rfl
      exact ⟨swap₂, file₂, h1, h2.trans hset.size, h3⟩
    · refine ⟨swap', _, hcalls', hset.size, hfull.setSlot hset, fun n hn => ?_⟩
      rw [fileWrite_offset _ _ h19]
      exact blit_apply hn

/-! ## Round trips -/

/-- What is known of the swap space while the page is in slot `i`. -/
structure Storing (swap₀ : SwapSpace) (i : ℕ) (page : ℕ → Byte) (swap : SwapSpace)
    (file : SwapFile) : Prop where
  size : swap.size = swap₀.size
  full : FullMap swap
  used : slotBit swap i = true
  bytes : ∀ n < 4096, file.bytes (i % 2 ^ 20 * 4096 + n) = page n

/-- Where no other slot shares the offset, the page stays in the file. -/
theorem storing_of_calls {swap₀ swap₁ : SwapSpace} {file₁ : SwapFile} (hi : i < 2 ^ 19)
    (hsize : swap₀.size ≤ i + 2 ^ 20) (hstart : Storing swap₀ i page swap₁ file₁)
    (h : OtherCalls i swap₁ file₁ swap file) : Storing swap₀ i page swap file := by
  induction h with
  | refl => exact hstart
  | @out swap₂ swap₃ file₂ file₃ index j page' _ hrun ih =>
    generalize hres : (j, swap₃, file₃) = res at hrun
    cases swapOutPage_cases hrun with
    | @taken s swap' hin hlt hbit _ hset =>
      obtain ⟨rfl, hrest⟩ := Prod.mk.inj hres
      obtain ⟨rfl, rfl⟩ := Prod.mk.inj hrest
      have hne : j ≠ i := by
        rintro rfl
        rw [ih.used] at hbit
        cases hbit
      have hjs := hin.lt_size
      have hsz := ih.size
      refine ⟨hset.size.trans ih.size, ih.full.setSlot hset, ?_, fun n hn => ?_⟩
      · rw [hset.bit, if_neg (Ne.symm hne), ih.used]
      · by_cases hhalf : j % 2 ^ 20 < 2 ^ 19
        · rw [fileWrite_offset _ _ hhalf, ← ih.bytes n hn]
          exact blit_of_notMem (by omega)
        · rw [fileWrite_refused _ _ (by omega)]
          exact ih.bytes n hn
    | full _ =>
      obtain ⟨rfl, hrest⟩ := Prod.mk.inj hres
      obtain ⟨rfl, rfl⟩ := Prod.mk.inj hrest
      exact ih
  | @swapIn swap₂ swap₃ file₂ j page' _ hne hcheck hrun ih =>
    unfold swapInPage at hrun
    obtain ⟨swap₄, hput, hrun⟩ := bind_eq_ok.1 hrun
    obtain ⟨-, rfl⟩ := Prod.mk.inj (Except.ok.inj hrun)
    rcases putValue_cases hput with rfl | hset
    · exact ih
    · refine ⟨hset.size.trans ih.size, ih.full.setSlot hset, ?_, ih.bytes⟩
      rw [hset.bit, if_neg (Ne.symm hne), ih.used]

/-- A slot whose offset is negative keeps what the file had before. -/
theorem swapIn_of_refused (h : FullMap swap) (hi : i < swap.size) (h31 : i < 2 ^ 31)
    (hfree : slotBit swap i = false) (hbelow : ∀ t < i, slotBit swap t = true)
    (hhalf : 2 ^ 19 ≤ i % 2 ^ 20) (page : ℕ → Byte) (file : SwapFile) :
    ∃ swap₁, swapOutPage 0 page swap file = .ok (i, swap₁, file) ∧
      ∃ got swap₂, swapInPage i swap₁ file = .ok (got, swap₂) ∧
        ∀ n, got n = file.bytes (i % 2 ^ 20 * 4096 + n) := by
  obtain ⟨s, swap₁, hsi, hrun, hbit, -, hset⟩ := swapOutPage_of_free h hi h31 hfree 0 page file
  obtain rfl : s = i := by
    by_contra hne
    rw [hbelow s (by omega)] at hbit
    cases hbit
  rw [fileWrite_refused _ _ hhalf] at hrun
  obtain ⟨swap₂, hin, -⟩ := swapInPage_spec file (hset.inMap (h s hi))
  exact ⟨swap₁, hrun, _, swap₂, hin, fun n => fileRead_offset file s n⟩

/-- Another slot with the same offset can be written in between. -/
theorem not_comesBack_of_shared (h : FullMap swap) (hi : i < swap.size) (h31 : i < 2 ^ 31)
    (hfree : slotBit swap i = false) (hbelow : ∀ t < i, slotBit swap t = true)
    (hhalf : i % 2 ^ 20 < 2 ^ 19) (hj : j < swap.size) (hj31 : j < 2 ^ 31) (hne : j ≠ i)
    (hshare : j % 2 ^ 20 = i % 2 ^ 20) : ¬ ComesBack swap file i := by
  intro hback
  obtain ⟨s, swap₁, hsi, hrun, hbit, -, hset⟩ :=
    swapOutPage_of_free h hi h31 hfree 0 (fun _ => 0) file
  obtain rfl : s = i := by
    by_contra hne
    rw [hbelow s (by omega)] at hbit
    cases hbit
  have hfull := h.setSlot hset
  have hjmap := hfull j (by rw [hset.size]; exact hj)
  -- the other slot is emptied if need be, and a page of ones is stored there
  obtain ⟨swap₂, hcalls, hsize₂, hfull₂, hfree₂⟩ : ∃ swap₂, OtherCalls s swap₁
      (fileWrite file (fun _ => 0) 4096 (sext32 (s * 4096))) swap₂
      (fileWrite file (fun _ => 0) 4096 (sext32 (s * 4096))) ∧ swap₂.size = swap.size ∧
      FullMap swap₂ ∧ slotBit swap₂ j = false := by
    cases hb : slotBit swap₁ j with
    | false => exact ⟨swap₁, .refl, hset.size, hfull, hb⟩
    | true =>
      obtain ⟨swap₂, hin, hset₂⟩ := swapInPage_spec
        (fileWrite file (fun _ => 0) 4096 (sext32 (s * 4096))) hjmap
      have hcheck : checkBitmap swap₁ j = .ok 1 := by
        rw [checkBitmap_of_inMap hjmap, hb]
        rfl
      exact ⟨swap₂, .swapIn .refl hne hcheck hin, hset₂.size.trans hset.size, hfull.setSlot hset₂,
        by rw [hset₂.bit, if_pos rfl]⟩
  obtain ⟨swap₃, file₃, hcalls₃, hsize₃, hfull₃, hbytes⟩ := exists_write hj31 (fun _ => 1)
    (by rw [hshare]; exact hhalf) _ hcalls hfull₂ (by rw [hsize₂]; exact hj) hfree₂ rfl
  obtain ⟨got, swap₄, hin, hgot⟩ := hback 0 (fun _ => 0) _ _ hrun _ _ hcalls₃
  obtain ⟨swap₅, hin', -⟩ := swapInPage_spec file₃ (hfull₃ s (by rw [hsize₃, hsize₂]; exact hi))
  rw [hin] at hin'
  obtain ⟨rfl, -⟩ := Prod.mk.inj (Except.ok.inj hin')
  have h0 := hgot 0 (by norm_num)
  rw [fileRead_offset, ← hshare, hbytes 0 (by norm_num)] at h0
  cases h0

/-- A page that `swap_out_page` stores in slot `i` comes back from it after any further calls
exactly when the slot is below 2^19 and no slot lies 2^20 above it. -/
theorem swap_in_undoes_out_iff (file : SwapFile) (h : FullMap swap) (hfirst : IsFirstFree swap i)
    (h31 : i < 2 ^ 31) : ComesBack swap file i ↔ i < 2 ^ 19 ∧ swap.size ≤ i + 2 ^ 20 := by
  obtain ⟨hmap, hfree⟩ := inMap_of_free hfirst.1
  have hi := hmap.lt_size
  have hbelow : ∀ t < i, slotBit swap t = true := fun t ht => by
    by_contra hb
    exact hfirst.2 t ht (checkBitmap_of_free (h t (by omega)) (Bool.eq_false_of_not_eq_true hb))
  constructor
  · intro hback
    by_contra hcond
    by_cases hhalf : i % 2 ^ 20 < 2 ^ 19
    · -- a slot 2^20 below or above shares the offset
      by_cases hhigh : 2 ^ 20 ≤ i
      · exact not_comesBack_of_shared h hi h31 hfree hbelow hhalf (j := i - 2 ^ 20) (by omega)
          (by omega) (by omega) (by omega) hback
      · exact not_comesBack_of_shared h hi h31 hfree hbelow hhalf (j := i + 2 ^ 20) (by omega)
          (by omega) (by omega) (by omega) hback
    · obtain ⟨swap₁, hout, got, swap₂, hin, hgot⟩ := swapIn_of_refused h hi h31 hfree hbelow
        (by omega) (fun _ => file.bytes (i % 2 ^ 20 * 4096) + 1) file
      obtain ⟨got', swap₂', hin', hgot'⟩ := hback _ _ _ _ hout _ _ .refl
      rw [hin] at hin'
      obtain ⟨rfl, -⟩ := Prod.mk.inj (Except.ok.inj hin')
      have h0 := hgot' 0 (by norm_num)
      rw [hgot 0, Nat.add_zero] at h0
      simp at h0
  · rintro ⟨hi19, hsize⟩ index page swap₁ file₁ hout swap₂ file₂ hcalls
    obtain ⟨s, swap', hsi, hrun, hbit, -, hset⟩ :=
      swapOutPage_of_free h hi h31 hfree index page file
    rw [hout] at hrun
    obtain ⟨rfl, hrest⟩ := Prod.mk.inj (Except.ok.inj hrun)
    obtain ⟨rfl, rfl⟩ := Prod.mk.inj hrest
    have hstart : Storing swap i page swap₁ (fileWrite file page 4096 (sext32 (i * 4096))) := by
      refine ⟨hset.size, h.setSlot hset, by rw [hset.bit, if_pos rfl], fun n hn => ?_⟩
      rw [fileWrite_offset _ _ (by omega)]
      exact blit_apply hn
    have hend := storing_of_calls hi19 hsize hstart hcalls
    obtain ⟨swap₃, hin, -⟩ := swapInPage_spec file₂ (hend.full i (by rw [hend.size]; exact hi))
    refine ⟨_, swap₃, hin, fun n hn => ?_⟩
    rw [fileRead_offset]
    exact hend.bytes n hn

/-- In a swap space of eight free slots every page that is stored in slot 0 comes back. -/
theorem swap_in_undoes_out_of_eight_slots :
    FullMap ⟨8, [0]⟩ ∧ IsFirstFree ⟨8, [0]⟩ 0 ∧ ComesBack ⟨8, [0]⟩ smallFile 0 := by
  have hfull : FullMap ⟨8, [0]⟩ := fun j hj => ⟨hj, by
    simp only [List.length_singleton] at hj ⊢
    omega⟩
  have hfirst : IsFirstFree ⟨8, [0]⟩ 0 := ⟨rfl, by omega⟩
  exact ⟨hfull, hfirst, (swap_in_undoes_out_iff smallFile hfull hfirst (by norm_num)).2
    ⟨by norm_num, by norm_num⟩⟩

/-- The first 2^19 slots are in use, and a page of ones goes to the slot after them: it is not
written, and a page of zeros comes back. -/
theorem page_lost_in_high_slot :
    ∃ swap : SwapSpace, ∃ swap₁ swap₂ got, FullMap swap ∧ swap.size = 2 ^ 19 + 1 ∧
      checkBitmap swap (2 ^ 19) = .ok 0 ∧
      swapOutPage 0 (fun _ => 1) swap smallFile = .ok (2 ^ 19, swap₁, smallFile) ∧
      swapInPage (2 ^ 19) swap₁ smallFile = .ok (got, swap₂) ∧ got 0 = 0 := by
  obtain ⟨map, hlen, hbelow, hfree⟩ : ∃ map : List Byte, map.length = 2 ^ 16 + 1 ∧
      (∀ t < 2 ^ 19, slotBit ⟨2 ^ 19 + 1, map⟩ t = true) ∧
      slotBit ⟨2 ^ 19 + 1, map⟩ (2 ^ 19) = false := by
    refine ⟨List.replicate (2 ^ 16) 0xff ++ [0], ?_, fun t ht => ?_, ?_⟩
    · rw [List.length_append, List.length_replicate, List.length_singleton]
    · unfold slotBit
      simp only [List.getD_eq_getElem?_getD]
      rw [List.getElem?_append_left (by rw [List.length_replicate]; omega),
        List.getElem?_replicate, if_pos (by omega), Option.getD_some]
      have hones : ∀ b < 8, (0xff : Byte).getLsbD b = true := by decide
      exact hones _ (Nat.mod_lt _ (by norm_num))
    · unfold slotBit
      simp only [List.getD_eq_getElem?_getD]
      rw [List.getElem?_append_right (by rw [List.length_replicate]; norm_num),
        List.length_replicate]
      rfl
  have hfull : FullMap ⟨2 ^ 19 + 1, map⟩ := fun j hj => ⟨hj, by
    simp only at hj ⊢
    omega⟩
  obtain ⟨swap₁, hout, got, swap₂, hin, hgot⟩ := swapIn_of_refused hfull (i := 2 ^ 19)
    (by norm_num) (by norm_num) hfree hbelow (by norm_num) (fun _ => 1) smallFile
  exact ⟨_, swap₁, swap₂, got, hfull, rfl,
    checkBitmap_of_free (hfull _ (by norm_num)) hfree, hout, hin, hgot 0⟩

end Swap

end Petmem
