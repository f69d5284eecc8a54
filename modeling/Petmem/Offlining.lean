import Petmem.Basic
import Petmem.Library.Windows
import Mathlib.Data.List.Basic
import Mathlib.Data.Finset.Card
import Mathlib.Data.Finset.Range

/-!
# The offlining tool (`user/petmem.c`)

`main` looks for `num_blocks` consecutive memory blocks that are removable, takes them offline
through the files under `/sys/devices/system/memory`, reads back whether they are offline, and
hands the range to the driver with `ADD_MEMORY`. When a block is found online it is struck off the
bitmap, the blocks in front of it are put back online, and the search begins again; `reg_start`
keeps its value from the search before.

The files are a parameter (`Sysfs`): what a block does when it is written to, and what is read of
it, is up to the kernel.
-/

namespace Petmem
namespace Offlining

open ByteMemory Windows

/-! ## The bitmap of removable blocks -/

/-- The bytes that are allocated for `entries` bits. -/
def bitmapSize (entries : ℕ) : ℕ := if entries % 8 ≠ 0 then entries / 8 + 1 else entries / 8

/-- `bitmap` and `bitmap_entries`. -/
structure Bitmap where
  entries : ℕ
  bytes : List Byte
  length_eq : bytes.length = bitmapSize entries

namespace Bitmap

/-- `bitmap[i / 8] & (0x1 << i % 8)`; the bytes are unsigned. -/
def bit (bitmap : Bitmap) (i : ℕ) : Bool :=
  ((bitmap.bytes.getD (i / 8) 0).setWidth 32 &&& (1#32 <<< (i % 8))) != 0

/-- `bitmap[i / 8] &= ~(0x1 << i % 8)`. -/
def clear (bitmap : Bitmap) (i : ℕ) : Bitmap where
  entries := bitmap.entries
  bytes := bitmap.bytes.set (i / 8)
    (((bitmap.bytes.getD (i / 8) 0).setWidth 32 &&& ~~~(1#32 <<< (i % 8))).setWidth 8)
  length_eq := by rw [List.length_set, bitmap.length_eq]

/-- The blocks whose bits are set. -/
def blocks (bitmap : Bitmap) : Set ℕ := {b | b < bitmap.entries ∧ bitmap.bit b = true}

/-- The number of bits that are set. -/
def count (bitmap : Bitmap) : ℕ :=
  ((Finset.range bitmap.entries).filter fun b => bitmap.bit b = true).card

@[simp] theorem entries_clear (bitmap : Bitmap) (i : ℕ) :
    (bitmap.clear i).entries = bitmap.entries := rfl

/-- Every entry has its bit in the allocated bytes. -/
theorem div_lt_length (bitmap : Bitmap) {i : ℕ} (hi : i < bitmap.entries) :
    i / 8 < bitmap.bytes.length := by
  rw [bitmap.length_eq]
  unfold bitmapSize
  split <;> omega

theorem bit_eq (bitmap : Bitmap) (i : ℕ) :
    bitmap.bit i = (bitmap.bytes.getD (i / 8) 0).getLsbD (i % 8) := by
  have hpow : ∀ j < 8, (BitVec.twoPow 32 j != 0) = true := by decide
  have hj : i % 8 < 8 := Nat.mod_lt _ (by norm_num)
  unfold bit
  rw [← BitVec.twoPow_eq, BitVec.and_twoPow, BitVec.getLsbD_setWidth]
  cases hb : (bitmap.bytes.getD (i / 8) 0).getLsbD (i % 8) with
  | false => simp
  | true => simpa [show i % 8 < 32 by omega] using hpow _ hj

/-- `&= ~` clears one bit and leaves the others. -/
theorem bit_clear (bitmap : Bitmap) {b : ℕ} (hb : b < bitmap.entries) (i : ℕ) :
    (bitmap.clear b).bit i = (bitmap.bit i && !decide (i = b)) := by
  have hlt := bitmap.div_lt_length hb
  have hi8 : i % 8 < 8 := Nat.mod_lt _ (by norm_num)
  rw [bit_eq, bit_eq]
  unfold clear
  simp only [List.getD_eq_getElem?_getD, List.getElem?_set]
  by_cases hdiv : b / 8 = i / 8
  · rw [if_pos hdiv, if_pos hlt, Option.getD_some, BitVec.getLsbD_setWidth, BitVec.getLsbD_and,
      BitVec.getLsbD_not, BitVec.getLsbD_setWidth, ← BitVec.twoPow_eq, BitVec.getLsbD_twoPow, hdiv]
    by_cases heq : i = b
    · simp [heq]
    · simp [heq, hi8, show i % 8 < 32 by omega, show b % 8 ≠ i % 8 by omega]
  · rw [if_neg hdiv]
    simp [show i ≠ b by rintro rfl; exact hdiv rfl]

/-- A clear takes one block out of the set. -/
theorem blocks_clear (bitmap : Bitmap) {b : ℕ} (hb : b < bitmap.entries) :
    (bitmap.clear b).blocks = bitmap.blocks \ {b} := by
  ext i
  simp only [blocks, Set.mem_ofPred_eq, entries_clear, bit_clear bitmap hb, Set.mem_sdiff,
    Set.mem_singleton_iff, Bool.and_eq_true, Bool.not_eq_true', decide_eq_false_iff_not]
  tauto

/-- A clear of a bit that was set leaves one less. -/
theorem count_clear (bitmap : Bitmap) {b : ℕ} (hb : b ∈ bitmap.blocks) :
    (bitmap.clear b).count + 1 = bitmap.count := by
  obtain ⟨hlt, hbit⟩ := hb
  have herase : ((Finset.range bitmap.entries).filter fun i => (bitmap.clear b).bit i = true)
      = ((Finset.range bitmap.entries).filter fun i => bitmap.bit i = true).erase b := by
    ext i
    simp only [Finset.mem_filter, Finset.mem_erase, Finset.mem_range, bit_clear bitmap hlt,
      Bool.and_eq_true, Bool.not_eq_true', decide_eq_false_iff_not]
    tauto
  unfold count
  rw [entries_clear, herase]
  exact Finset.card_erase_add_one (Finset.mem_filter.2 ⟨Finset.mem_range.2 hlt, hbit⟩)

end Bitmap

/-! ## The files -/

/-- What is written to the `state` file of a block. -/
inductive Request
  | offline
  | online

/-- The `state` files of the blocks; `none` where a file cannot be opened or read. -/
structure Sysfs (σ : Type) where
  /-- `fopen`, `fprintf` and `fclose`. -/
  request : ℕ → Request → σ → Option σ
  /-- `open` and `read`. -/
  status : ℕ → σ → Option (List Char × σ)

/-- `strncmp(status_buf, "offline", strlen("offline")) == 0`. -/
def isOffline (text : List Char) : Bool := "offline".toList.isPrefixOf text

variable {σ : Type}

/-- The loop that writes a request to `left` blocks from `regStart + i` on. -/
def requestBlocks (sys : Sysfs σ) (request : Request) (regStart : ℕ) :
    ℕ → ℕ → σ → Except σ σ
  | 0, _, s => .ok s
  | left + 1, i, s =>
    match sys.request (i + regStart) request s with
    | none => .error s
    | some s => requestBlocks sys request regStart left (i + 1) s

/-- The loop that verifies `left` blocks from `regStart + i` on: the bitmap, `mem_ready` and the
files afterwards. The blocks before the first one that is not offline are put back online. -/
def verifyBlocks (sys : Sysfs σ) (regStart : ℕ) :
    ℕ → ℕ → Bitmap → σ → Except σ (Bitmap × Bool × σ)
  | 0, _, bitmap, s => .ok (bitmap, true, s)
  | left + 1, i, bitmap, s =>
    match sys.status (i + regStart) s with
    | none => .error s
    | some (text, s) =>
      if isOffline text then
        verifyBlocks sys regStart left (i + 1) bitmap s
      else do
        -- blocks 0 to i - 1 go back online; those behind this one are not touched
        let s ← requestBlocks sys .online regStart i 0 s
        return (bitmap.clear (i + regStart), false, s)

/-! ## The search -/

/-- The loop over the bitmap from entry `i`, `left` entries being left: `reg_start` and
`run_len`. -/
def scanBitmap (bitmap : Bitmap) (numBlocks : ℕ) : ℕ → ℕ → ℕ → ℕ → ℕ × ℕ
  | 0, _, regStart, runLen => (regStart, runLen)
  | left + 1, i, regStart, runLen =>
    if bitmap.bit i = false then
      -- the run ends here, the next one can start behind this block
      scanBitmap bitmap numBlocks left (i + 1) (i + 1) 0
    else if numBlocks ≤ runLen + 1 then (regStart, runLen + 1)
    else scanBitmap bitmap numBlocks left (i + 1) regStart (runLen + 1)

/-- The variables of the `while` loop, and the state of the files. -/
structure Search (σ : Type) where
  bitmap : Bitmap
  regStart : ℕ
  sys : σ

/-- How a pass of the `while` loop ends: a file cannot be opened, no run is long enough, a block
is not offline (`mem_ready` is 0), or all are. -/
inductive Pass (σ : Type)
  | fileError (s : σ)
  | notFound (st : Search σ)
  | again (st : Search σ)
  | ready (st : Search σ)

/-- What the passes have scanned: `reg_start` and `run_len` after the loop over the bitmap. -/
def Search.scan (st : Search σ) (numBlocks : ℕ) : ℕ × ℕ :=
  scanBitmap st.bitmap numBlocks st.bitmap.entries 0 st.regStart 0

/-- One pass of the `while` loop. -/
def pass (sys : Sysfs σ) (numBlocks : ℕ) (st : Search σ) : Pass σ :=
  if (st.scan numBlocks).2 < numBlocks then
    .notFound { st with regStart := (st.scan numBlocks).1 }
  else
    match requestBlocks sys .offline (st.scan numBlocks).1 numBlocks 0 st.sys with
    | .error s => .fileError s
    | .ok s =>
      match verifyBlocks sys (st.scan numBlocks).1 numBlocks 0 st.bitmap s with
      | .error s => .fileError s
      | .ok (bitmap, memReady, s) =>
        if memReady then .ready ⟨bitmap, (st.scan numBlocks).1, s⟩
        else .again ⟨bitmap, (st.scan numBlocks).1, s⟩

/-- The `while` loop, for at most `fuel` passes. -/
def search (sys : Sysfs σ) (numBlocks : ℕ) : ℕ → Search σ → Option (Pass σ)
  | 0, _ => none
  | fuel + 1, st =>
    match pass sys numBlocks st with
    | .again st => search sys numBlocks fuel st
    | p => some p

/-- `struct memory_range`. -/
structure MemoryRange where
  baseAddr : ℕ
  pages : ℕ

/-- The range of the blocks, as it is handed to `ADD_MEMORY`. -/
def memoryRange (regStart numBlocks blockSizeBytes : ℕ) : MemoryRange where
  baseAddr := regStart * blockSizeBytes % 2 ^ 64
  pages := numBlocks * blockSizeBytes % 2 ^ 64 / 4096

end Offlining

end Petmem
