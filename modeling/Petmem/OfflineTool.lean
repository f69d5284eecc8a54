import Petmem.Library.Numerals
import Petmem.OfflineSearch
import Mathlib.Data.List.Sort

/-!
# The offlining tool from its command line on (`main` of `user/petmem.c`)

`main` turns the size it is given into a number of blocks, reads which blocks there are and which
of them are removable from the directories under `/sys/devices/system/memory`, and searches. The
directories come sorted by number, and the loop over them stops when the number it has read last
is the last one. It begins with the number 0, so that a machine whose only block is block 0 has no
removable block.
-/

namespace Petmem
namespace Offlining

open ByteMemory Numerals Windows

variable {σ : Type} {bitmap : Bitmap} {names : List (List Char)} {blocks : List ℕ} {b i n : ℕ}

/-! ## The bitmap -/

namespace Bitmap

/-- The bitmap after `memset`. -/
def zero (entries : ℕ) : Bitmap where
  entries := entries
  bytes := List.replicate (bitmapSize entries) 0
  length_eq := List.length_replicate

/-- `bitmap[i / 8] |= (0x1 << i % 8)`. -/
def mark (bitmap : Bitmap) (i : ℕ) : Bitmap where
  entries := bitmap.entries
  bytes := bitmap.bytes.set (i / 8)
    (((bitmap.bytes.getD (i / 8) 0).setWidth 32 ||| (1#32 <<< (i % 8))).setWidth 8)
  length_eq := by rw [List.length_set, bitmap.length_eq]

theorem bit_zero (entries i : ℕ) : (zero entries).bit i = false := by
  rw [bit_eq]
  unfold zero
  rw [List.getD_eq_getElem?_getD, List.getElem?_replicate]
  split <;> exact BitVec.getLsbD_zero

/-- `|=` sets one bit and leaves the others. -/
theorem bit_mark (bitmap : Bitmap) (hb : b < bitmap.entries) (i : ℕ) :
    (bitmap.mark b).bit i = (bitmap.bit i || decide (i = b)) := by
  have hlt := bitmap.div_lt_length hb
  have hi8 : i % 8 < 8 := Nat.mod_lt _ (by norm_num)
  rw [bit_eq, bit_eq]
  unfold mark
  simp only [List.getD_eq_getElem?_getD, List.getElem?_set]
  by_cases hdiv : b / 8 = i / 8
  · rw [if_pos hdiv, if_pos hlt, Option.getD_some, BitVec.getLsbD_setWidth, BitVec.getLsbD_or,
      BitVec.getLsbD_setWidth, ← BitVec.twoPow_eq, BitVec.getLsbD_twoPow, hdiv]
    by_cases heq : i = b
    · simp [heq, show b % 8 < 8 by omega, show b % 8 < 32 by omega]
    · simp [heq, hi8, show i % 8 < 32 by omega, show b % 8 ≠ i % 8 by omega]
  · rw [if_neg hdiv]
    simp [show i ≠ b by rintro rfl; exact hdiv rfl]

/-- A bitmap has no more bits than its blocks are. -/
theorem count_le (h : ∀ b ∈ bitmap.blocks, b ∈ blocks) : bitmap.count ≤ blocks.length := by
  unfold count
  refine le_trans (Finset.card_le_card fun b hb => ?_) blocks.toFinset_card_le
  obtain ⟨hlt, hbit⟩ := Finset.mem_filter.1 hb
  exact List.mem_toFinset.2 (h b ⟨Finset.mem_range.1 hlt, hbit⟩)

end Bitmap

/-! ## The directories -/

/-- How `main` ends: it returns -1, it divides by 0 or reads a directory that is not there, or it
hands a range to the driver. -/
inductive Ending
  | failed
  | crashed
  | handed (range : MemoryRange)

/-- `dir_filter`. -/
def dirFilter (dName : List Char) : Bool := "memory".toList.isPrefixOf dName

/-- `atoi(d_name + 6)`. -/
def blockNumber (dName : List Char) : ℤ := atoi (dName.drop 6)

/-- `dir_cmp`. -/
def dirCmp (dir1 dir2 : List Char) : ℤ := blockNumber dir1 - blockNumber dir2

/-- `scandir` with `dir_filter` and `dir_cmp`. -/
def scandir (names : List (List Char)) : List (List Char) :=
  (names.filter dirFilter).insertionSort fun dir1 dir2 => dirCmp dir1 dir2 ≤ 0

/-- The loop over `namelist`; `removable` is what is read of the file of that name, `j` the number
that was read last. -/
def scanNames (removable : List Char → Option (List Char)) (entries : ℤ) :
    List (List Char) → ℤ → Bitmap → Except Ending Bitmap
  | [], j, bitmap => if j < entries - 1 then .error .crashed else .ok bitmap
  | dName :: namelist, j, bitmap =>
    if j < entries - 1 then
      match removable dName with
      | none => .error .failed
      | some status =>
        let j := blockNumber dName
        scanNames removable entries namelist j
          (if atoi status = 1 then bitmap.mark j.toNat else bitmap)
    else .ok bitmap

/-- The bitmap of the blocks that can be taken offline. -/
def scanDirectories (names : List (List Char)) (removable : List Char → Option (List Char)) :
    Except Ending Bitmap :=
  let namelist := scandir names
  match namelist.getLast? with
  | none => .error .crashed
  | some dName =>
    let entries := blockNumber dName + 1
    scanNames removable entries namelist 0 (Bitmap.zero entries.toNat)

/-! ## `main` -/

/-- What `main` finds: the files of the blocks, the contents of `block_size_bytes` and what is
behind it in the buffer, the directories, and whether the device can be opened. -/
structure Surroundings (σ : Type) where
  files : Sysfs σ
  blockSizeBytes : Option (List Char)
  names : List (List Char)
  removable : List Char → Option (List Char)
  device : Bool

/-- `num_blocks`: an `int`. -/
def numBlocks (memSizeBytes blockSizeBytes : ℕ) : ℤ :=
  (BitVec.ofNat 32 (memSizeBytes / blockSizeBytes
    + if memSizeBytes % blockSizeBytes ≠ 0 then 1 else 0)).toInt

/-- What `main` does behind the loop; the answer of the driver is not looked at. -/
def handOver (device : Bool) (numBlocks : ℤ) (blockSizeBytes : ℕ) : Pass σ → Ending × σ
  | .fileError s => (.failed, s)
  | .notFound st => (.failed, st.sys)
  -- not the last pass
  | .again st => (.failed, st.sys)
  | .ready st =>
    (if device then
      .handed (memoryRange st.regStart (numBlocks % 2 ^ 64).toNat blockSizeBytes)
    else .failed, st.sys)

/-- `main` with the arguments `args`, for at most `fuel` passes of the `while` loop. -/
def main (env : Surroundings σ) (fuel : ℕ) (args : List (List Char)) (s : σ) :
    Option (Ending × σ) :=
  if args.length ≠ 1 then some (.failed, s)
  else
    let memSizeBytes := (atoll (args.headD []) * (1024 * 1024) % 2 ^ 64).toNat
    match env.blockSizeBytes with
    | none => some (.failed, s)
    | some tmpBuf =>
      let blockSizeBytes := (strtoll 16 tmpBuf % 2 ^ 32).toNat
      if blockSizeBytes = 0 then some (.crashed, s)
      else
        let numBlocks := numBlocks memSizeBytes blockSizeBytes
        match scanDirectories env.names env.removable with
        | .error ending => some (ending, s)
        | .ok bitmap =>
          (search env.files numBlocks.toNat fuel ⟨bitmap, 0, s⟩).map
            (handOver env.device numBlocks blockSizeBytes)

/-! ## The scan of the directories -/

/-- The name of the directory of a block. -/
def memoryName (b : ℕ) : List Char := "memory".toList ++ Nat.toDigits 10 b

/-- The directories whose names begin with `memory` are those of the blocks. -/
structure Listed (names : List (List Char)) (blocks : List ℕ) : Prop where
  perm : (names.filter dirFilter).Perm (blocks.map memoryName)
  nodup : blocks.Nodup
  small : ∀ b ∈ blocks, b < 2 ^ 31 - 1
  ne_nil : blocks ≠ []

/-- The file of a block says that it is removable. -/
def Says (removable : List Char → Option (List Char)) (b : ℕ) : Prop :=
  ∃ status, removable (memoryName b) = some status ∧ atoi status = 1

/-- The blocks that are marked: those that say so, unless block 0 is the only one. -/
def offered (blocks : List ℕ) (removable : List Char → Option (List Char)) : Set ℕ :=
  {b | b ∈ blocks ∧ Says removable b ∧ ∃ c ∈ blocks, 0 < c}

theorem blockNumber_memoryName (hb : b < 2 ^ 31) : blockNumber (memoryName b) = b :=
  atoi_toDigits hb

instance : Std.Total fun dir1 dir2 : List Char => dirCmp dir1 dir2 ≤ 0 :=
  ⟨fun dir1 dir2 => by
    unfold dirCmp
    omega⟩

instance : IsTrans (List Char) fun dir1 dir2 => dirCmp dir1 dir2 ≤ 0 :=
  ⟨fun dir1 dir2 dir3 => by
    unfold dirCmp
    omega⟩

/-- The directories come in the order of the blocks. -/
theorem Listed.scandir (h : Listed names blocks) :
    ∃ sorted : List ℕ, scandir names = sorted.map memoryName ∧ sorted.Perm blocks ∧
      sorted.Pairwise (· < ·) := by
  have hperm : (Offlining.scandir names).Perm (blocks.map memoryName) :=
    (List.perm_insertionSort _ _).trans h.perm
  have hsorted : (Offlining.scandir names).Pairwise fun dir1 dir2 => dirCmp dir1 dir2 ≤ 0 :=
    List.pairwise_insertionSort _ _
  have hnumber : ∀ b ∈ blocks, (blockNumber (memoryName b)).toNat = b := fun b hb => by
    have hsmall := h.small b hb
    rw [blockNumber_memoryName (by omega), Int.toNat_natCast]
  have hnames : ∀ dName ∈ Offlining.scandir names,
      memoryName (blockNumber dName).toNat = dName := fun dName hd => by
    obtain ⟨b, hb, rfl⟩ := List.mem_map.1 (hperm.mem_iff.1 hd)
    rw [hnumber b hb]
  have hblocks : ((Offlining.scandir names).map fun dName => (blockNumber dName).toNat).Perm
      blocks := by
    have hid : (blocks.map memoryName).map (fun dName => (blockNumber dName).toNat) = blocks := by
      rw [List.map_map]
      exact (List.map_congr_left hnumber).trans (List.map_id blocks)
    exact hid ▸ hperm.map _
  refine ⟨_, ?_, hblocks, ?_⟩
  · rw [List.map_map]
    exact ((List.map_congr_left hnames).trans (List.map_id _)).symm
  · -- no two directories have the same number
    have hle : ((Offlining.scandir names).map fun dName => (blockNumber dName).toNat).Pairwise
        (· ≤ ·) := by
      refine List.pairwise_map.2 (hsorted.imp fun hcmp => ?_)
      unfold dirCmp at hcmp
      omega
    have hne := hblocks.nodup_iff.2 h.nodup
    exact (hle.and hne).imp fun hboth => lt_of_le_of_ne hboth.1 hboth.2

theorem le_getLast {sorted : List ℕ} {last : ℕ} (hpair : sorted.Pairwise (· < ·))
    (hlast : sorted.getLast? = some last) (hb : b ∈ sorted) : b ≤ last := by
  obtain ⟨init, rfl⟩ := List.getLast?_eq_some_iff.1 hlast
  rcases List.mem_append.1 hb with hb | hb
  · exact ((List.pairwise_append.1 hpair).2.2 b hb last (by simp)).le
  · exact (List.mem_singleton.1 hb).le

/-- The loop goes on to the last directory and marks the blocks that say so. -/
theorem scanNames_spec {removable : List Char → Option (List Char)} {last : ℕ}
    (hlast : last < 2 ^ 31) :
    ∀ (sorted : List ℕ) (j : ℕ) (bitmap : Bitmap), sorted.Pairwise (· < ·) →
      (sorted.getLast? = some last ∧ j < last ∨ sorted = [] ∧ j = last) →
      bitmap.entries = last + 1 →
      (∀ b ∈ sorted, ∃ status, removable (memoryName b) = some status) →
      ∃ bitmap', scanNames removable (last + 1) (sorted.map memoryName) j bitmap = .ok bitmap' ∧
        bitmap'.entries = last + 1 ∧
        ∀ i, bitmap'.bit i = true ↔ bitmap.bit i = true ∨ i ∈ sorted ∧ Says removable i := by
  intro sorted
  induction sorted with
  | nil =>
    intro j bitmap _ hj hentries _
    obtain rfl : j = last := by simpa using hj
    refine ⟨bitmap, ?_, hentries, fun i => by simp⟩
    rw [List.map_nil, scanNames, if_neg (by omega)]
  | cons b sorted ih =>
    intro j bitmap hpair hj hentries hread
    obtain ⟨hj, hjlast⟩ : (b :: sorted).getLast? = some last ∧ j < last := by simpa using hj
    obtain ⟨hlt, hpair'⟩ := List.pairwise_cons.1 hpair
    have hble : b ≤ last := le_getLast hpair hj List.mem_cons_self
    have hnext : sorted.getLast? = some last ∧ b < last ∨ sorted = [] ∧ b = last := by
      cases sorted with
      | nil => exact .inr ⟨rfl, Option.some.inj hj⟩
      | cons c sorted =>
        rw [List.getLast?_cons_cons] at hj
        exact .inl ⟨hj, hlt last (List.mem_of_getLast? hj)⟩
    obtain ⟨status, hstatus⟩ := hread b List.mem_cons_self
    have hmark : ∀ i, (if atoi status = 1 then bitmap.mark b else bitmap).bit i = true ↔
        bitmap.bit i = true ∨ i = b ∧ Says removable b := fun i => by
      unfold Says
      rw [hstatus]
      by_cases hone : atoi status = 1
      · rw [if_pos hone, bitmap.bit_mark (by omega), Bool.or_eq_true, decide_eq_true_eq]
        simp [hone]
      · rw [if_neg hone]
        simp [hone]
    have hnumber := blockNumber_memoryName (show b < 2 ^ 31 by omega)
    rw [List.map_cons, scanNames, if_pos (by omega), hstatus]
    simp only [hnumber, Int.toNat_natCast]
    obtain ⟨bitmap', hrun, hentries', hbits⟩ := ih b
      (if atoi status = 1 then bitmap.mark b else bitmap) hpair' hnext
      (by split <;> exact hentries) fun c hc => hread c (List.mem_cons_of_mem _ hc)
    refine ⟨bitmap', hrun, hentries', fun i => ?_⟩
    rw [hbits, hmark, List.mem_cons]
    constructor
    · rintro ((hi | ⟨rfl, hs⟩) | ⟨hi, hs⟩)
      · exact .inl hi
      · exact .inr ⟨.inl rfl, hs⟩
      · exact .inr ⟨.inr hi, hs⟩
    · rintro (hi | ⟨rfl | hi, hs⟩)
      · exact .inl (.inl hi)
      · exact .inl (.inr ⟨rfl, hs⟩)
      · exact .inr ⟨hi, hs⟩

/-- The bitmap has the blocks that are offered. -/
theorem Listed.scanDirectories (h : Listed names blocks)
    {removable : List Char → Option (List Char)}
    (hread : ∀ b ∈ blocks, ∃ status, removable (memoryName b) = some status) :
    ∃ bitmap, scanDirectories names removable = .ok bitmap ∧
      bitmap.blocks = offered blocks removable := by
  obtain ⟨sorted, hnames, hperm, hpair⟩ := h.scandir
  obtain ⟨last, hlast⟩ : ∃ last, sorted.getLast? = some last := by
    cases sorted with
    | nil => exact absurd hperm.nil_eq.symm h.ne_nil
    | cons b sorted => exact ⟨_, List.getLast?_cons⟩
  have hsmall := h.small last (hperm.mem_iff.1 (List.mem_of_getLast? hlast))
  have hle : ∀ c ∈ blocks, c ≤ last := fun c hc => le_getLast hpair hlast (hperm.mem_iff.2 hc)
  have hscan : Offlining.scanDirectories names removable = scanNames removable (last + 1)
      (sorted.map memoryName) 0 (Bitmap.zero (last + 1)) := by
    unfold Offlining.scanDirectories
    simp only [hnames, List.getLast?_map, hlast, Option.map_some,
      blockNumber_memoryName (show last < 2 ^ 31 by omega)]
    rfl
  rw [hscan]
  by_cases hzero : last = 0
  · -- the loop does not begin
    subst hzero
    cases sorted with
    | nil => cases hlast
    | cons b sorted =>
      refine ⟨Bitmap.zero 1, by rw [List.map_cons, scanNames, if_neg (by omega)], ?_⟩
      ext i
      simp only [Bitmap.blocks, offered, Set.mem_ofPred_eq, Bitmap.bit_zero]
      constructor
      · rintro ⟨-, hbit⟩
        cases hbit
      · rintro ⟨-, -, c, hc, hpos⟩
        have := hle c hc
        omega
  · obtain ⟨bitmap, hrun, hentries, hbits⟩ := scanNames_spec (show last < 2 ^ 31 by omega) sorted 0
      (Bitmap.zero (last + 1)) hpair (.inl ⟨hlast, by omega⟩) rfl
      fun b hb => hread b (hperm.mem_iff.1 hb)
    refine ⟨bitmap, hrun, ?_⟩
    ext i
    simp only [Bitmap.blocks, offered, Set.mem_ofPred_eq, hentries, hbits, Bitmap.bit_zero,
      Bool.false_eq_true, false_or, hperm.mem_iff]
    constructor
    · rintro ⟨-, hi, hs⟩
      exact ⟨hi, hs, last, hperm.mem_iff.1 (List.mem_of_getLast? hlast), by omega⟩
    · rintro ⟨hi, hs, -⟩
      have := hle i hi
      exact ⟨by omega, hi, hs⟩

/-! ## The whole tool -/

/-- The blocks that were found online on the way from `start` to `st`: in a pass in between the
block was asked to go offline with the rest of the first window, and when it was read, the blocks in
front of it being offline, it was not. -/
inductive FoundOnline (sys : Sysfs σ) (n : ℕ) (start st : Search σ) : ℕ → Prop
  | read {st₁ : Search σ} {w i : ℕ} {s s₁ s₂ : σ} {text : List Char} : Retries sys n start st₁ →
      Retries sys n st₁ st → IsLeast (windows st₁.bitmap.blocks n) w →
      requestBlocks sys .offline w n 0 st₁.sys = .ok s → i < n → Verified sys w i s s₁ →
      sys.status (i + w) s₁ = some (text, s₂) → isOffline text = false →
      FoundOnline sys n start st (i + w)

theorem FoundOnline.tail {sys : Sysfs σ} {start st st' : Search σ}
    (h : FoundOnline sys n start st b) (hstep : pass sys n st = .again st') :
    FoundOnline sys n start st' b := by
  cases h with
  | read hbefore hafter hleast hreq hi hver hread htext =>
    exact .read hbefore (hafter.tail hstep) hleast hreq hi hver hread htext

/-- What the search strikes off was found online. -/
theorem Retries.struck {sys : Sysfs σ} {start st : Search σ} (hn : 0 < n)
    (h : Retries sys n start st) (hstart : Fresh n start) :
    st.bitmap.blocks ⊆ start.bitmap.blocks ∧
      ∀ b ∈ start.bitmap.blocks \ st.bitmap.blocks, FoundOnline sys n start st b := by
  induction h with
  | refl => exact ⟨le_refl _, fun b hb => absurd hb.1 hb.2⟩
  | @tail st₁ st₂ hretries hstep ih =>
    obtain ⟨hsub, hfound⟩ := ih
    have hcase := (Retries.fresh hn hretries hstart).pass_cases sys hn
    rw [hstep] at hcase
    cases hcase with
    | @again w i s s₁ s₂ s₃ text hleast hreq hi hver hread htext _ =>
      have hmem : i + w ∈ st₁.bitmap.blocks := mem_of_mem_windows hleast.1 (by omega) (by omega)
      rw [Bitmap.blocks_clear _ hmem.1]
      refine ⟨Set.sdiff_subset.trans hsub, fun b hb => ?_⟩
      by_cases hb₁ : b ∈ st₁.bitmap.blocks
      · -- the block of this pass
        obtain rfl : b = i + w := by
          by_contra hne
          exact hb.2 ⟨hb₁, hne⟩
        exact .read hretries (.single hstep) hleast hreq hi hver hread htext
      · exact (hfound b ⟨hb.1, hb₁⟩).tail hstep

/-- The files show the blocks, of `blockSizeBytes` bytes each. -/
structure Shown (env : Surroundings σ) (blocks : List ℕ) (blockSizeBytes : ℕ) : Prop where
  listed : Listed env.names blocks
  removable : ∀ b ∈ blocks, ∃ status, env.removable (memoryName b) = some status
  files : env.files.Succeeds
  size : ∃ garbage, env.blockSizeBytes
    = some (Nat.toDigits 16 blockSizeBytes ++ ("\n".toList ++ garbage))
  pos : 0 < blockSizeBytes
  lt : blockSizeBytes < 2 ^ 32
  dvd : 4096 ∣ blockSizeBytes

/-- The search has come from `start` to `st`: it began with the blocks that are offered and the
files in state `s`, and of these blocks it has struck off some that were found online. -/
structure Reached (env : Surroundings σ) (blocks : List ℕ) (n : ℕ) (s : σ) (start st : Search σ) :
    Prop where
  bitmap : start.bitmap.blocks = offered blocks env.removable
  sys : start.sys = s
  retries : Retries env.files n start st
  sub : st.bitmap.blocks ⊆ offered blocks env.removable
  struck : ∀ b ∈ offered blocks env.removable \ st.bitmap.blocks,
    FoundOnline env.files n start st b

/-- How `main` ends, when it looks for `n` blocks: it has taken the first window of the blocks that
are left, all of them read as offline, or there is none left. -/
inductive Ended (env : Surroundings σ) (blocks : List ℕ) (blockSizeBytes n : ℕ) (s s' : σ) :
    Ending → Prop
  | taken {start st : Search σ} {w : ℕ} {s₁ : σ} : Reached env blocks n s start st →
      IsLeast (windows st.bitmap.blocks n) w →
      requestBlocks env.files .offline w n 0 st.sys = .ok s₁ → Verified env.files w n s₁ s' →
      Ended env blocks blockSizeBytes n s s'
        (if env.device then .handed ⟨w * blockSizeBytes, n * blockSizeBytes / 4096⟩ else .failed)
  | none {start st : Search σ} : Reached env blocks n s start st →
      windows st.bitmap.blocks n = ∅ → st.sys = s' →
      Ended env blocks blockSizeBytes n s s' .failed

theorem Ended.handed {env : Surroundings σ} {bs : ℕ} {s s' : σ} {range : MemoryRange}
    (h : Ended env blocks bs n s s' (.handed range)) :
    ∃ w ∈ windows (offered blocks env.removable) n, range = ⟨w * bs, n * bs / 4096⟩ := by
  generalize hending : Ending.handed range = ending at h
  cases h with
  | none _ _ _ => cases hending
  | @taken start st w s₁ hreached hleast _ _ =>
    refine ⟨w, windows_mono hreached.sub hleast.1, ?_⟩
    by_cases hdevice : env.device = true
    · rw [if_pos hdevice] at hending
      exact Ending.handed.inj hending
    · rw [if_neg hdevice] at hending
      cases hending

/-- The number of blocks is rounded up. -/
theorem numBlocks_spec {size bs : ℕ} (hbs : 0 < bs) (hsize : 0 < size)
    (hfit : size ≤ (2 ^ 31 - 1) * bs) :
    ∃ n : ℕ, numBlocks size bs = n ∧ 0 < n ∧ n < 2 ^ 31 ∧ size ≤ n * bs ∧ n * bs < size + bs := by
  have hdiv := Nat.div_add_mod' size bs
  have hmod := Nat.mod_lt size hbs
  have hle : size / bs ≤ 2 ^ 31 - 1 := by
    apply Nat.div_le_of_le_mul
    rwa [Nat.mul_comm]
  have hint : ∀ n < 2 ^ 31, (BitVec.ofNat 32 n).toInt = n := fun n hn => by
    rw [BitVec.toInt_ofNat']
    exact Int.bmod_eq_of_le (by omega) (by omega)
  unfold numBlocks
  by_cases hrest : size % bs ≠ 0
  · rw [if_pos hrest]
    have hlt : size / bs < 2 ^ 31 - 1 := by
      by_contra hge
      have : (2 ^ 31 - 1) * bs ≤ size / bs * bs := Nat.mul_le_mul_right bs (by omega)
      omega
    refine ⟨_, hint _ (by omega), Nat.succ_pos _, by omega, ?_, ?_⟩
    · rw [Nat.add_one_mul]
      omega
    · rw [Nat.add_one_mul]
      omega
  · rw [if_neg hrest, Nat.add_zero]
    have hpos : 0 < size / bs := by
      by_contra hzero
      rw [Nat.eq_zero_of_not_pos hzero, Nat.zero_mul] at hdiv
      omega
    exact ⟨_, hint _ (by omega), hpos, by omega, by omega, by omega⟩

/-- What `main` reads: the size in bytes, the size of a block, and the blocks that are offered;
the rest is the search. -/
theorem main_eq {env : Surroundings σ} {bs size : ℕ} (h : Shown env blocks bs)
    (hsize : size * 2 ^ 20 < 2 ^ 63) (hn : numBlocks (size * 2 ^ 20) bs = n) :
    ∃ bitmap : Bitmap, bitmap.blocks = offered blocks env.removable ∧
      bitmap.count ≤ blocks.length ∧ ∀ fuel s, main env fuel [Nat.toDigits 10 size] s
        = (search env.files n fuel ⟨bitmap, 0, s⟩).map (handOver env.device n bs) := by
  obtain ⟨bitmap, hscan, hblocks⟩ := h.listed.scanDirectories h.removable
  obtain ⟨garbage, htext⟩ := h.size
  have harg : atoll (Nat.toDigits 10 size) = size := by
    have hread : strtoll 10 (Nat.toDigits 10 size ++ []) = size :=
      strtoll_toDigits (.inl rfl) (by omega) (by simp)
    rwa [List.append_nil] at hread
  have hbs : strtoll 16 (Nat.toDigits 16 bs ++ ("\n".toList ++ garbage)) = bs := by
    have hlt := h.lt
    refine strtoll_toDigits (.inr rfl) (by omega) fun c hc => ?_
    obtain rfl : '\n' = c := Option.some.inj hc
    rfl
  have hmem : ((size : ℤ) * (1024 * 1024) % 2 ^ 64).toNat = size * 2 ^ 20 := by omega
  have hblock : ((bs : ℤ) % 2 ^ 32).toNat = bs := by
    have := h.lt
    omega
  have hcount : bitmap.count ≤ blocks.length :=
    Bitmap.count_le fun b hb => (hblocks ▸ hb : b ∈ offered blocks env.removable).1
  refine ⟨bitmap, hblocks, hcount, fun fuel s => ?_⟩
  unfold main
  rw [if_neg (by simp), List.headD_cons, htext]
  simp only [harg, hmem, hbs, hblock, if_neg h.pos.ne', hscan, hn, Int.toNat_natCast]

/-- The tool comes to an end after at most one pass more than there are blocks. -/
theorem main_returns {env : Surroundings σ} {bs size : ℕ} (h : Shown env blocks bs)
    (hsize : 0 < size) (hfit : size * 2 ^ 20 ≤ (2 ^ 31 - 1) * bs) (s : σ) :
    ∃ ending s', main env (blocks.length + 1) [Nat.toDigits 10 size] s = some (ending, s') := by
  have hbs := h.lt
  obtain ⟨n, hn, hpos, -⟩ := numBlocks_spec h.pos (by omega) hfit
  obtain ⟨bitmap, -, hcount, hmain⟩ := main_eq h (by omega) hn
  obtain ⟨p, hp⟩ := search_returns env.files hpos (blocks.length + 1) ⟨bitmap, 0, s⟩ (.inl rfl)
    (Nat.lt_succ_of_le hcount)
  rw [hmain, hp]
  exact ⟨_, _, rfl⟩

/-- How it ends, whenever it does. -/
theorem ended_of_main {env : Surroundings σ} {bs size fuel : ℕ} {s s' : σ} {ending : Ending}
    (h : Shown env blocks bs) (hsize : 0 < size) (hfit : size * 2 ^ 20 ≤ (2 ^ 31 - 1) * bs)
    (hrun : main env fuel [Nat.toDigits 10 size] s = some (ending, s')) :
    ∃ n, size * 2 ^ 20 ≤ n * bs ∧ n * bs < size * 2 ^ 20 + bs ∧
      Ended env blocks bs n s s' ending := by
  have hbs := h.lt
  obtain ⟨n, hn, hpos, hlt, hge, hle⟩ := numBlocks_spec h.pos (by omega) hfit
  obtain ⟨bitmap, hblocks, -, hmain⟩ := main_eq h (by omega) hn
  rw [hmain] at hrun
  obtain ⟨p, hp, hend⟩ := Option.map_eq_some_iff.1 hrun
  obtain ⟨st, hretries, hpass, hlast⟩ := retries_of_search _ _ hp
  obtain ⟨hsub, hfound⟩ := Retries.struck hpos hretries (.inl rfl)
  have hreached : Reached env blocks n s ⟨bitmap, 0, s⟩ st :=
    ⟨hblocks, rfl, hretries, hblocks ▸ hsub, hblocks ▸ hfound⟩
  have hcase := (hretries.fresh hpos (.inl rfl)).pass_cases env.files hpos
  rw [hpass] at hcase
  refine ⟨n, hge, hle, ?_⟩
  cases hcase with
  | fileError _ => exact absurd hpass (pass_ne_fileError h.files st _)
  | notFound hempty =>
    obtain ⟨rfl, rfl⟩ := Prod.mk.inj hend
    exact .none hreached hempty rfl
  | again => exact absurd rfl (hlast _)
  | @ready w s₁ s₂ hleast hreq hver =>
    -- no address wraps around
    have hlimit : w + n ≤ 2 ^ 31 - 1 := by
      have hmem : w + n - 1 ∈ st.bitmap.blocks :=
        mem_of_mem_windows hleast.1 (by omega) (by omega)
      have hsmall := h.listed.small _ (hreached.sub hmem).1
      omega
    have hrange : memoryRange w ((n : ℤ) % 2 ^ 64).toNat bs = ⟨w * bs, n * bs / 4096⟩ := by
      have hw : w * bs < 2 ^ 31 * 2 ^ 32 := Nat.mul_lt_mul'' (by omega) hbs
      have hnb : n * bs < 2 ^ 31 * 2 ^ 32 := Nat.mul_lt_mul'' hlt hbs
      have hcount : ((n : ℤ) % 2 ^ 64).toNat = n := by omega
      unfold memoryRange
      rw [hcount, Nat.mod_eq_of_lt (by omega), Nat.mod_eq_of_lt (by omega)]
    obtain ⟨rfl, rfl⟩ := Prod.mk.inj hend
    rw [hrange]
    exact .taken hreached hleast hreq hver

/-- **The tool ends, and what it hands over is what was asked for.** Where the files show blocks
of whole pages, however the blocks behave when they are written to: the number of blocks is the
size that was asked for, rounded up; the loop needs at most one pass more than there are blocks;
only blocks that were found online are struck off; and the driver gets the first window of the
removable blocks that are left, each of them read as offline, unless there is none. -/
theorem main_correct {env : Surroundings σ} {bs size : ℕ} (h : Shown env blocks bs)
    (hsize : 0 < size) (hfit : size * 2 ^ 20 ≤ (2 ^ 31 - 1) * bs) (s : σ) :
    ∃ n ending s', size * 2 ^ 20 ≤ n * bs ∧ n * bs < size * 2 ^ 20 + bs ∧
      main env (blocks.length + 1) [Nat.toDigits 10 size] s = some (ending, s') ∧
      Ended env blocks bs n s s' ending := by
  obtain ⟨ending, s', hrun⟩ := main_returns h hsize hfit s
  obtain ⟨n, hge, hle, hended⟩ := ended_of_main h hsize hfit hrun
  exact ⟨n, ending, s', hge, hle, hrun, hended⟩

/-- Blocks 0, 9, 10 and 11 of 128 MB: block 0 is not removable, and block 9 refuses. -/
def fourBlocks : Surroundings (ℕ → Bool) where
  files := blockFiles fun b => b == 9
  blockSizeBytes := some "8000000\n".toList
  names := ["memory10".toList, "power".toList, "memory0".toList, "memory9".toList,
    "memory11".toList]
  removable dName := some (if dName = "memory0".toList then "0\n" else "1\n").toList
  device := true

theorem fourBlocks_shown : Shown fourBlocks [0, 9, 10, 11] (2 ^ 27) where
  listed := ⟨by decide, by decide, by decide, by decide⟩
  removable _ _ := ⟨_, rfl⟩
  files := blockFiles_succeeds _
  size := ⟨[], by decide⟩
  pos := by norm_num
  lt := by norm_num
  dvd := by norm_num

/-- 200 MB take two blocks: block 9 is struck off, and the driver gets the blocks 10 and 11. -/
theorem fourBlocks_main : ∃ s', main fourBlocks 5 [Nat.toDigits 10 200] (fun _ => true)
    = some (.handed ⟨10 * 2 ^ 27, 2 ^ 16⟩, s') := by
  have hargs : Nat.toDigits 10 200 = "200".toList := by decide
  rw [hargs]
  exact ⟨_, rfl⟩

theorem main_correct_of_four_blocks :
    ∃ s', main fourBlocks 5 [Nat.toDigits 10 200] (fun _ => true)
        = some (.handed ⟨10 * 2 ^ 27, 2 ^ 16⟩, s') ∧
      Ended fourBlocks [0, 9, 10, 11] (2 ^ 27) 2 (fun _ => true) s'
        (.handed ⟨10 * 2 ^ 27, 2 ^ 16⟩) := by
  obtain ⟨s₁, hrun⟩ := fourBlocks_main
  obtain ⟨n, ending, s', hge, hlt, hmain, hended⟩ :=
    @main_correct _ _ fourBlocks _ 200 fourBlocks_shown (by norm_num) (by norm_num)
      (fun _ => true)
  obtain rfl : n = 2 := by omega
  obtain ⟨rfl, rfl⟩ := Prod.mk.inj (Option.some.inj (hrun.symm.trans hmain))
  exact ⟨s₁, hrun, hended⟩

end Offlining

end Petmem
