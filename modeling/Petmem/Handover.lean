import Petmem.Accounting
import Petmem.Ioctl
import Petmem.OfflineAgain
import Petmem.PageRuns

/-!
# From the tool to the driver

The tool hands its range to `ADD_MEMORY`, which makes pools of it. Neither of the two looks whether
the range is in use: the tool goes by what is removable, and the driver has no list of its ranges.
Where the blocks that are offered are not in use (`Unused`), what was asked for is there to be
allocated afterwards. Where the tool is run a second time, its range is the one that the driver has
already; the new pools come first in the list, and the next frame is one of theirs.
-/

namespace Petmem

open Buddy ByteMemory Numerals Offlining Transfer Windows

namespace Pools

variable {k k' k₀ : Kern} {base n p v : ℕ}

/-! ## Pools in front of others -/

/-- The loop of `ADD_MEMORY` does not look at the pools there are. -/
theorem addPools_append (rounds : ℕ) : ∀ (b n : ℕ) (m : Mem) (pools rest : List BuddyMempool),
    addPools rounds b n m (pools ++ rest)
      = (addPools rounds b n m pools).map fun r => (r.1, r.2 ++ rest) := by
  induction rounds with
  | zero => exact fun _ _ _ _ _ => rfl
  | succ rounds ih =>
    intro b n m pools rest
    rw [addPools, addPools]
    by_cases h0 : fls n = 0
    · simp only [if_pos h0]
      rfl
    · simp only [if_neg h0]
      cases hinit : buddyInit b (fls n + pageShift - 1) pageShift with
      | none => rfl
      | some mp =>
        simp only
        cases hfree : buddyFree m mp b (fls n + pageShift - 1) with
        | error e => rfl
        | ok r => exact ih _ _ r.1 (r.2 :: pools) rest

/-- The pools of a new range come in front of the others. -/
theorem addMemory_append (h : addMemory base n ⟨k.mem, [], k.file, []⟩ = .ok k₀) :
    addMemory base n k = .ok { k with mem := k₀.mem, pools := k₀.pools ++ k.pools } := by
  unfold addMemory at h ⊢
  obtain ⟨r, hadd, hr⟩ := bind_eq_ok.1 h
  obtain rfl := Except.ok.inj hr
  have happend := addPools_append 32 (va base) (n % 2 ^ 32) k.mem [] k.pools
  rw [List.nil_append, hadd] at happend
  rw [happend]
  rfl

theorem allocFrom_append {order : ℕ} {m m' : Mem} {pools' : List BuddyMempool} (hv : v ≠ 0)
    (rest : List BuddyMempool) : ∀ pools, allocFrom order pools m = .ok (v, m', pools') →
      ∃ pools'', allocFrom order (pools ++ rest) m = .ok (v, m', pools'') := by
  intro pools
  induction pools generalizing m pools' with
  | nil =>
    intro h
    exact absurd (Prod.mk.inj (Except.ok.inj h)).1.symm hv
  | cons mp pools ih =>
    intro h
    rw [allocFrom] at h
    rw [List.cons_append, allocFrom]
    obtain ⟨⟨v₁, m₁, mp₁⟩, halloc, h⟩ := bind_eq_ok.1 h
    rw [halloc]
    simp only at h
    by_cases hv₁ : v₁ ≠ 0
    · rw [if_pos hv₁] at h
      obtain ⟨rfl, hres⟩ := Prod.mk.inj (Except.ok.inj h)
      obtain ⟨rfl, -⟩ := Prod.mk.inj hres
      exact ⟨mp₁ :: (pools ++ rest), by simp [bind, Except.bind, hv₁, pure, Except.pure]⟩
    · -- nothing in this pool: the loop goes on
      rw [if_neg hv₁] at h
      obtain ⟨⟨v₂, m₂, pools₂⟩, hrest, h⟩ := bind_eq_ok.1 h
      obtain ⟨rfl, hres⟩ := Prod.mk.inj (Except.ok.inj h)
      obtain ⟨rfl, -⟩ := Prod.mk.inj hres
      obtain ⟨pools'', hrun⟩ := ih hrest
      exact ⟨mp₁ :: pools'', by simp [bind, Except.bind, hv₁, hrun, pure, Except.pure]⟩

/-- A page that the first pools have is the one that is allocated. -/
theorem petmemAllocPages_append (h : petmemAllocPages n k₀ = .ok (p, k')) (hp : p ≠ 0)
    (rest : List BuddyMempool) (hmem : k.mem = k₀.mem) (hpools : k.pools = k₀.pools ++ rest) :
    ∃ k', petmemAllocPages n k = .ok (p, k') := by
  unfold petmemAllocPages at h
  obtain ⟨⟨v, m', pools'⟩, hrun, h⟩ := bind_eq_ok.1 h
  simp only at h
  by_cases hv : v = 0
  · rw [if_pos hv] at h
    exact absurd (Prod.mk.inj (Except.ok.inj h)).1.symm hp
  · rw [if_neg hv] at h
    obtain ⟨rfl, -⟩ := Prod.mk.inj (Except.ok.inj h)
    obtain ⟨pools'', happend⟩ := allocFrom_append hv rest k₀.pools hrun
    rw [← hmem, ← hpools] at happend
    exact ⟨_, (petmemAllocPages_eq happend).trans (by rw [if_neg hv])⟩

/-- The first page of new pools is a page of their range. -/
theorem allocates_in_range (hnew : NewRange [] base n) (hn : 0 < n) (m : Mem) (file : SwapFile) :
    ∃ k₀ p k', addMemory base n ⟨m, [], file, []⟩ = .ok k₀ ∧ petmemAllocPages 1 k₀ = .ok (p, k') ∧
      p ≠ 0 ∧ 4096 ∣ p ∧ InRange base n p := by
  obtain ⟨k₀, hrun, hadd⟩ := addMemory_added (k := ⟨m, [], file, []⟩)
    ⟨by simp, by simp, by simp, by simp⟩ (by simp) hnew
  have hcovers : ∀ x, (∃ mp ∈ k₀.pools, Covers mp x) ↔ InRange base n x := fun x => by
    rw [hadd.covers]
    simp
  obtain ⟨mp, hmp, hcov⟩ := (hcovers base).2 ⟨le_refl _, by omega⟩
  have hfree : HasFree k₀ := hadd.inv.hasFree_of_not_held hmp hnew.dvd hcov (by simp [hadd.out])
  rcases petmemAllocPages_spec hadd.inv with ⟨-, hno⟩ | ⟨g, k', halloc, hal⟩
  · exact absurd hfree hno
  · have hpos := hal.pos
    obtain ⟨hdvd, hin⟩ := hal.inv.out (g * 4096) (by simp [hal.out])
    exact ⟨k₀, g * 4096, k', hrun, halloc, by omega, hdvd,
      (hcovers _).1 (hal.pools.covers_iff.1 hin)⟩

end Pools

namespace OnDemand

open Pools Regions

variable {σ : Type} {w w' : Machine} {m : Mem} {file : SwapFile} {offers : Set ℕ} {bs n v : ℕ}
  {range : MemoryRange} {user : Space} {arg : ℕ}

/-! ## The request -/

/-- The range that the tool has stored is the one that is added. -/
theorem petmemIoctl_addMemory {k' : Kern} {s : State} (hread : user.Readable arg 16)
    (hbase : range.baseAddr < 2 ^ 64) (hpages : range.pages < 2 ^ 64)
    (hadd : addMemory range.baseAddr range.pages s.toKern = .ok k') (env : Env) (newNode : ℕ) :
    petmemIoctl env newNode ADD_MEMORY arg (user.store arg range.toBytes) s
      = .ok ⟨0, user.store arg range.toBytes, { s with toKern := k' }⟩ := by
  have hlen : range.toBytes.length = 16 := Packed.length_pack rfl
  have hblock := Space.read_store (hlen.symm ▸ hread : user.Readable arg range.toBytes.length)
  rw [hlen] at hblock
  have hsum : memoryRangeLayout.sum = 16 := rfl
  unfold petmemIoctl ioctlAddMemory
  rw [if_pos rfl, hsum, hblock]
  simp only [MemoryRange.ofBytes_toBytes, Nat.mod_eq_of_lt hbase, Nat.mod_eq_of_lt hpages, hadd]
  rfl

/-! ## Blocks that are not in use -/

/-- The blocks are not in use: none is block 0, and they lie below 2^46, outside the ranges that
were added, and hold no page tables. -/
structure Unused (w : Machine) (offers : Set ℕ) (bs : ℕ) : Prop where
  pos : 0 ∉ offers
  limit : ∀ b ∈ offers, (b + 1) * bs ≤ physLimit
  nonempty : ∀ r ∈ w.ranges, 0 < r.2
  disjoint : ∀ b ∈ offers, ∀ r ∈ w.ranges, (b + 1) * bs ≤ r.1 ∨ r.1 + 4096 * r.2 ≤ b * bs
  tables : ∀ b ∈ offers, ∀ f, InTables w.kern w.roots f →
    ¬ (b * bs ≤ f * 4096 ∧ f * 4096 < (b + 1) * bs)

/-- A window of such blocks is outside each range. -/
theorem Unused.window_disjoint (h : Unused w offers bs) {r : ℕ × ℕ} (hr : r ∈ w.ranges) :
    ∀ n, v ∈ windows offers n → (v + n) * bs ≤ r.1 ∨ r.1 + 4096 * r.2 ≤ v * bs ∨ n = 0 := by
  intro n
  induction n with
  | zero => exact fun _ => .inr (.inr rfl)
  | succ n ih =>
    intro hwin
    have hpos := h.nonempty r hr
    rcases h.disjoint (v + n) (hwin n (Nat.lt_succ_self n)) r hr with hlast | hlast
    · exact .inl hlast
    · -- the range is below the last block, so it is below the first too
      rcases ih fun i hi => hwin i (Nat.lt_succ_of_lt hi) with hlow | hhigh | rfl
      · omega
      · exact .inr (.inl hhigh)
      · exact .inr (.inl hlast)

/-- A window of such blocks is a new range without page tables. -/
theorem Unused.newRange (h : Unused w offers bs) (hbs : 0 < bs) (hpage : 4096 ∣ bs) (hn : 0 < n)
    (hwin : v ∈ windows offers n) (hsize : n * bs < 2 ^ 31) :
    NewRange w.ranges (v * bs) (n * bs / 4096) ∧
    ∀ f, InTables w.kern w.roots f → ¬ InRange (v * bs) (n * bs / 4096) (f * 4096) := by
  have hbytes : 4096 * (n * bs / 4096) = n * bs :=
    Nat.mul_div_cancel' (Dvd.dvd.mul_left hpage n)
  have hend : v * bs + n * bs = (v + n) * bs := (Nat.add_mul v n bs).symm
  have hlast := h.limit (v + (n - 1)) (hwin (n - 1) (by omega))
  rw [show v + (n - 1) + 1 = v + n by omega] at hlast
  have hv : 0 < v := Nat.pos_of_ne_zero fun h0 => h.pos (h0 ▸ hwin 0 hn)
  refine ⟨⟨by omega, Nat.mul_pos hv hbs, Dvd.dvd.mul_left hpage v, ?_, fun r hr => ?_⟩,
    fun f hf hin => ?_⟩
  · rw [hbytes, hend]
    exact hlast
  · rw [hbytes, hend]
    rcases h.window_disjoint hr n hwin with hlow | hhigh | rfl
    · exact .inl hlow
    · exact .inr hhigh
    · omega
  · -- the block that the table would be in
    unfold InRange at hin
    rw [hbytes, hend] at hin
    have hlow : v ≤ f * 4096 / bs := (Nat.le_div_iff_mul_le hbs).2 hin.1
    have hhigh : f * 4096 / bs < v + n := (Nat.div_lt_iff_lt_mul hbs).2 hin.2
    have hblock : f * 4096 < (f * 4096 / bs + 1) * bs := by
      rw [Nat.add_one_mul]
      exact Nat.lt_div_mul_add hbs
    exact h.tables _ (mem_of_mem_windows hwin hlow hhigh) f hf ⟨Nat.div_mul_le_self _ _, hblock⟩

/-- **What was asked for is there.** Where no block that is offered is in use, a range that the
tool hands over is added by the driver, from any state that the machine has reached, and the machine
goes on from there; the pages that can be allocated are more by the size that was asked for, and by
less than one block over that. -/
theorem tool_adds_memory {env : Surroundings σ} {blocks : List ℕ} {size fuel : ℕ} {s s' : σ}
    (h : Shown env blocks bs) (hsize : 0 < size) (hfit : size * 2 ^ 20 + bs ≤ 2 ^ 31)
    (hrun : main env fuel [Nat.toDigits 10 size] s = some (.handed range, s'))
    (hw : MachineRun m file w) (hunused : Unused w (offered blocks env.removable) bs)
    (hread : user.Readable arg 16) (e : Env) (newNode : ℕ) (map : MemMap) :
    ∃ k' bytes, petmemIoctl e newNode ADD_MEMORY arg (user.store arg range.toBytes) ⟨w.kern, map⟩
        = .ok ⟨0, user.store arg range.toBytes, ⟨k', map⟩⟩ ∧
      MachineRun m file { w.update k' with ranges := (range.baseAddr, range.pages) :: w.ranges } ∧
      freeBytes k' = freeBytes w.kern + bytes ∧ size * 2 ^ 20 ≤ bytes ∧
      bytes < size * 2 ^ 20 + bs ∧ ¬ OutOfFrames k' := by
  have hpos := h.pos
  have hblocks : size * 2 ^ 20 ≤ (2 ^ 31 - 1) * bs :=
    (Nat.le_sub_one_of_lt ((Nat.lt_add_of_pos_right hpos).trans_le hfit)).trans
      (Nat.le_mul_of_pos_right _ hpos)
  obtain ⟨n, hge, hlt, hended⟩ := ended_of_main h hsize hblocks hrun
  obtain ⟨v, hwin, rfl⟩ := hended.handed
  have hn : 0 < n := Nat.pos_of_ne_zero fun h0 => by
    rw [h0, Nat.zero_mul] at hge
    omega
  have hbytes : 4096 * (n * bs / 4096) = n * bs :=
    Nat.mul_div_cancel' (Dvd.dvd.mul_left h.dvd n)
  obtain ⟨hnew, htables⟩ := hunused.newRange hpos h.dvd hn hwin (by omega)
  have hinv := MachineInv.of_run hw
  obtain ⟨k', hadd, hadded⟩ := addMemory_added hinv.owned.pools hinv.within hnew
  have hlimit := hnew.limit
  unfold physLimit at hlimit
  have hfree : freeBytes k' = freeBytes w.kern + n * bs := by
    have hbefore := hinv.owned.pools.balance
    have hafter := hadded.inv.balance
    rw [poolBytes_addMemory hnew hadd, hadded.out, hbytes] at hafter
    omega
  have hbase : v * bs < 2 ^ 64 := by omega
  have hpages : n * bs / 4096 < 2 ^ 64 := by omega
  refine ⟨k', n * bs, petmemIoctl_addMemory hread hbase hpages hadd e newNode, ?_, hfree, hge, hlt,
    ?_⟩
  · exact hw.tail (.addMemory hnew htables hadd)
  · rw [outOfFrames_iff hadded.inv]
    omega

/-- None of the blocks 9, 10 and 11 is in use when the module is loaded. -/
theorem fourBlocks_unused (m : Mem) (file : SwapFile) :
    Unused (boot m file) (offered [0, 9, 10, 11] fourBlocks.removable) (2 ^ 27) where
  pos := by
    rintro ⟨-, ⟨status, hstatus, hone⟩, -⟩
    obtain rfl : "0\n".toList = status := Option.some.inj hstatus
    exact absurd hone (by decide)
  limit := by
    rintro b ⟨hb, -⟩
    have hle : ∀ b ∈ [0, 9, 10, 11], (b + 1) * 2 ^ 27 ≤ physLimit := by decide
    exact hle b hb
  nonempty := by simp [boot]
  disjoint := by simp [boot]
  tables := by
    rintro b - f ⟨r, hr, -⟩
    exact absurd hr (Set.notMem_empty r)

/-- The 200 MB that were asked for are two blocks. -/
theorem tool_adds_memory_of_four_blocks : ∃ k',
    petmemIoctl smallEnv 2 ADD_MEMORY 0x7000
        (smallUser.store 0x7000 (MemoryRange.toBytes ⟨10 * 2 ^ 27, 2 ^ 16⟩))
        (initState (boot smallMem (eightSlots 0)).kern 1)
      = .ok ⟨0, smallUser.store 0x7000 (MemoryRange.toBytes ⟨10 * 2 ^ 27, 2 ^ 16⟩),
          ⟨k', petmemInitProcess 1 (eightSlots 0)⟩⟩ ∧
    200 * 2 ^ 20 ≤ freeBytes k' ∧ ¬ OutOfFrames k' := by
  obtain ⟨s', hrun⟩ := fourBlocks_main
  obtain ⟨k', bytes, hcall, -, hfree, hge, -, hout⟩ :=
    tool_adds_memory fourBlocks_shown (by norm_num) (by norm_num) hrun .refl
      (fourBlocks_unused smallMem (eightSlots 0)) (smallUser_readable 0x7000 16) smallEnv 2
      (petmemInitProcess 1 (eightSlots 0))
  exact ⟨k', hcall, by omega, hout⟩

/-! ## A second run -/

/-- Each range that was added is in order by itself. -/
theorem newRange_of_run (h : MachineRun m file w) : ∀ r ∈ w.ranges, NewRange [] r.1 r.2 := by
  induction h with
  | refl => exact fun r hr => absurd hr List.not_mem_nil
  | tail _ hstep ih =>
    cases hstep with
    | @addMemory base n k' hnew _ _ =>
      intro r hr
      rcases List.mem_cons.1 hr with rfl | hr
      · exact ⟨hnew.pages, hnew.pos, hnew.dvd, hnew.limit, by simp⟩
      · exact ih r hr
    | kernel _ => exact ih
    | arrive _ => exact ih
    | leave _ => exact ih
    | petmemOpen _ _ => exact ih
    | perform _ _ _ _ => exact ih
    | petmemRelease _ _ => exact ih

/-- The pools cover the ranges that were added. -/
theorem MachineInv.covers_step (h : MachineInv w) (hstep : MachineStep w w')
    (hcov : ∀ r ∈ w.ranges, ∀ x, InRange r.1 r.2 x → ∃ mp ∈ w.kern.pools, Covers mp x) :
    ∀ r ∈ w'.ranges, ∀ x, InRange r.1 r.2 x → ∃ mp ∈ w'.kern.pools, Covers mp x := by
  cases hstep with
  | @addMemory base n k' hnew _ hrun =>
    obtain ⟨k₁, hrun₁, hadd⟩ := addMemory_added h.owned.pools h.within hnew
    obtain rfl := Except.ok.inj (hrun.symm.trans hrun₁)
    intro r hr x hx
    apply (hadd.covers x).2
    rcases List.mem_cons.1 hr with rfl | hr
    · exact .inr hx
    · exact .inl (hcov r hr x hx)
  | kernel _ => exact hcov
  | arrive _ => exact hcov
  | leave _ => exact hcov
  | petmemOpen _ _ => exact hcov
  | perform hc henv hok hrun =>
    have hr := h.ready hc henv (Q := fun s => HeadAbsent _ s.mem) fun _ hq => hq
    have hsame := (step_steady hr hok hrun).pools
    exact fun r hr x hx => hsame.covers_iff.2 (hcov r hr x hx)
  | petmemRelease hc hrun =>
    obtain ⟨-, hst⟩ := petmemDeinitProcess_steady (h.root _ _ hc) (h.list _ _ hc) h.owned hrun
    exact fun r hr x hx => hst.pools.covers_iff.2 (hcov r hr x hx)

theorem covers_of_run (h : MachineRun m file w) :
    ∀ r ∈ w.ranges, ∀ x, InRange r.1 r.2 x → ∃ mp ∈ w.kern.pools, Covers mp x := by
  induction h with
  | refl => exact fun r hr => absurd hr List.not_mem_nil
  | tail hrun hstep ih => exact (MachineInv.of_run hrun).covers_step hstep ih

/-- **A second run of the tool hands out frames that are in use.** Where nothing else has changed,
for a size above 0 and of at most 2^31 - 1 blocks, the second run hands over the range of the first
one; the driver takes it once more, and the next frame that is allocated is one of that range, and
one that is outstanding if the pools had run out before. -/
theorem second_run_shares_frames {refuses : ℕ → Bool} {env : Surroundings (ℕ → Bool)}
    {blocks : List ℕ} {size fuel : ℕ} {s s' : ℕ → Bool} (h : Shown env blocks bs)
    (hfiles : env.files = blockFiles refuses) (hsize : 0 < size)
    (hfit : size * 2 ^ 20 ≤ (2 ^ 31 - 1) * bs)
    (hrun : main env fuel [Nat.toDigits 10 size] s = some (.handed range, s'))
    (hw : MachineRun m file w) (hadded : (range.baseAddr, range.pages) ∈ w.ranges)
    (hread : user.Readable arg 16) (e : Env) (newNode : ℕ) (map : MemMap) :
    (∃ s'', main env (blocks.length + 1) [Nat.toDigits 10 size] s'
      = some (.handed range, s'')) ∧
    ∃ k', petmemIoctl e newNode ADD_MEMORY arg (user.store arg range.toBytes) ⟨w.kern, map⟩
        = .ok ⟨0, user.store arg range.toBytes, ⟨k', map⟩⟩ ∧
      ∃ p k'', petmemAllocPages 1 k' = .ok (p, k'') ∧ p ≠ 0 ∧
        InRange range.baseAddr range.pages p ∧
        (OutOfFrames w.kern → p ∈ w.kern.outstanding) := by
  refine ⟨main_again h hfiles hsize hfit hrun, ?_⟩
  have hnew := newRange_of_run hw _ hadded
  have hlimit := hnew.limit
  have hpos : 0 < range.pages := by
    obtain ⟨n, hge, -, hended⟩ := ended_of_main h hsize hfit hrun
    obtain ⟨v, -, rfl⟩ := hended.handed
    exact Nat.div_pos (by omega) (by norm_num)
  obtain ⟨k₀, p, k₁, hadd, halloc, hp, hdvd, hin⟩ :=
    allocates_in_range hnew hpos w.kern.mem w.kern.file
  have hrun' := addMemory_append hadd
  obtain ⟨k'', hrun''⟩ := petmemAllocPages_append
    (k := { w.kern with mem := k₀.mem, pools := k₀.pools ++ w.kern.pools }) halloc hp
    w.kern.pools rfl rfl
  refine ⟨_, petmemIoctl_addMemory hread ?_ ?_ hrun' e newNode, p, k'', hrun'', hp, hin,
    fun hout => ?_⟩
  · unfold physLimit at hlimit
    simp only at hlimit
    omega
  · have hpages := hnew.pages
    simp only at hpages
    omega
  · -- no page of the pools is free
    have hpools := (MachineInv.of_run hw).owned.pools
    by_contra hfree
    obtain ⟨mp, hmp, hcov⟩ := covers_of_run hw _ hadded p hin
    have hbytes := hpools.hasFree_iff.1 (hpools.hasFree_of_not_held hmp hdvd hcov hfree)
    rw [(outOfFrames_iff hpools).1 hout] at hbytes
    exact absurd hbytes (Nat.lt_irrefl 0)

/-- The driver takes the blocks 10 and 11 twice. -/
theorem second_run_shares_frames_of_four_blocks :
    ∃ (w : Machine) (k' : Kern), MachineRun smallMem (eightSlots 0) w ∧
      petmemIoctl smallEnv 2 ADD_MEMORY 0x7000
          (smallUser.store 0x7000 (MemoryRange.toBytes ⟨10 * 2 ^ 27, 2 ^ 16⟩))
          ⟨w.kern, petmemInitProcess 1 (eightSlots 0)⟩
        = .ok ⟨0, smallUser.store 0x7000 (MemoryRange.toBytes ⟨10 * 2 ^ 27, 2 ^ 16⟩),
            ⟨k', petmemInitProcess 1 (eightSlots 0)⟩⟩ ∧
      ∃ p k'', petmemAllocPages 1 k' = .ok (p, k'') ∧ InRange (10 * 2 ^ 27) (2 ^ 16) p := by
  have hnew : NewRange [] (10 * 2 ^ 27) (2 ^ 16) :=
    ⟨by decide, by decide, by decide, by decide, by simp⟩
  have hinv := MachineInv.boot smallMem (eightSlots 0)
  obtain ⟨k₁, hadd, -⟩ := addMemory_added hinv.owned.pools hinv.within hnew
  have htables : ∀ f, InTables (boot smallMem (eightSlots 0)).kern ∅ f →
      ¬ InRange (10 * 2 ^ 27) (2 ^ 16) (f * 4096) := fun f ⟨r, hr, _⟩ =>
    absurd hr (Set.notMem_empty r)
  have hw : MachineRun smallMem (eightSlots 0) _ := .single (.addMemory hnew htables hadd)
  obtain ⟨s', hrun⟩ := fourBlocks_main
  obtain ⟨-, k', hcall, p, k'', halloc, -, hin, -⟩ :=
    second_run_shares_frames fourBlocks_shown rfl (by norm_num) (by norm_num) hrun hw
      List.mem_cons_self (smallUser_readable 0x7000 16) smallEnv 2
      (petmemInitProcess 1 (eightSlots 0))
  exact ⟨_, k', hw, hcall, p, k'', halloc, hin⟩

end OnDemand

end Petmem
