import Petmem.Harness

/-!
# Programs that use the harness

`HarnessRun` is a program that uses petmem through the functions of `user/harness.c` alone. Its run
is a run of the process (`run_of_harnessRun`), and what the requests promise about regions and pages
comes out as what a program wants of its blocks: they are apart from each other, an access to one of
them is not refused, and they are memory.
-/

namespace Petmem
namespace OnDemand

open ByteMemory RadixTree Regions Transfer

/-- What a program does, with what it gets; `own` is what it does to its own memory. -/
inductive Call
  | malloc (size addr : ℕ)
  | free (addr : ℕ)
  | load (a : ℕ) (b : Byte)
  | store (a : ℕ) (b : Byte)
  | own

/-- One call. A record is put where the module can read it and write to it. -/
inductive HarnessStep (env : Env) (p : Space × State) : Call → Space × State → Prop
  | malloc {newNode sp size addr : ℕ} {p' : Space × State} : p.1.Readable sp 16 →
      p.1.Writable sp 16 → size < 2 ^ 64 →
      newNode ∉ p.2.map.memoryAllocations.map VaddrReg.node →
      petMalloc env newNode sp size p.1 p.2 = .ok (addr, p') →
      HarnessStep env p (.malloc size addr) p'
  | free {newNode addr : ℕ} {p' : Space × State} : petFree env newNode addr p.1 p.2 = .ok p' →
      HarnessStep env p (.free addr) p'
  | load {newNode sp a f : ℕ} {user : Space} {s : State} : p.1.Readable sp 12 →
      Retry.Ends (accessAttempt env newNode sp a false) p (.ok (.frame f, user, s)) →
      HarnessStep env p (.load a (s.mem (frameVa f (a % 4096)))) (user, s)
  | store {newNode sp a f : ℕ} {b : Byte} {user : Space} {s : State} : p.1.Readable sp 12 →
      Retry.Ends (accessAttempt env newNode sp a true) p (.ok (.frame f, user, s)) →
      HarnessStep env p (.store a b)
        (user, { s with mem := Function.update s.mem (frameVa f (a % 4096)) b })
  | own {user : Space} : HarnessStep env p .own (user, p.2)

/-- The run of a program from `p₀`, most recent call first, has reached `p`. -/
inductive HarnessRun (env : Env) (ok : List Call → State → Call → Prop) (p₀ : Space × State) :
    List Call → Space × State → Prop
  | start : HarnessRun env ok p₀ [] p₀
  | step {cs : List Call} {c : Call} {p p' : Space × State} : HarnessRun env ok p₀ cs p →
      ok cs p.2 c → HarnessStep env p c p' → HarnessRun env ok p₀ (c :: cs) p'

/-- A run under a condition is a run under a weaker one. -/
theorem HarnessRun.mono {env : Env} {ok ok' : List Call → State → Call → Prop}
    {p₀ p : Space × State} {cs : List Call} (hok : ∀ cs s c, ok cs s c → ok' cs s c)
    (h : HarnessRun env ok p₀ cs p) : HarnessRun env ok' p₀ cs p := by
  induction h with
  | start => exact .start
  | step _ hc hstep ih => exact .step ih (hok _ _ _ hc) hstep

/-- The operation of the process that a call is. -/
def Call.event : Call → Option Event
  | .malloc size addr => some (.alloc addr (requestPages size))
  | .free addr => some (.free addr)
  | .load a b => some (.read a b)
  | .store a b => some (.write a b)
  | .own => none

/-- The blocks that the program has: address and size. -/
def blocks : List Call → List (ℕ × ℕ)
  | [] => []
  | .malloc size addr :: cs => if addr = noRegion then blocks cs else (addr, size) :: blocks cs
  | .free addr :: cs => (blocks cs).filter fun b => b.1 ≠ addr
  | _ :: cs => blocks cs

/-- The program asks for at least one byte, and no more than can be rounded to pages, and frees its
own blocks; its accesses are to the petmem region, and find `Q` where they run out of frames. -/
def Proper (env : Env) (Q : State → Prop) (cs : List Call) (s : State) : Call → Prop
  | .malloc size _ => 1 ≤ size ∧ size ≤ 2 ^ 64 - 4096
  | .free addr => ∃ size, (addr, size) ∈ blocks cs
  | .load a _ => a ∈ Region ∧ ∀ s', RunsOut env a s s' → Q s'
  | .store a _ => a ∈ Region ∧ ∀ s', RunsOut env a s s' → Q s'
  | .own => True

section Programs

open Retry

variable {env : Env} {newNode sp a : ℕ} {p p' : Space × State} {c : Call} {cs : List Call}
  {roots : Set ℕ} {Q : State → Prop} {k : Kern} {node : ℕ} {user : Space}

theorem lt_of_region (ha : a ∈ Region) : a < 2 ^ 64 := by
  have := ha.2
  unfold petmemRegionEnd at this
  omega

/-- What an attempt ends with is what the access gives as one operation. -/
theorem userAccess_of_ends {f : ℕ} {write : Bool} {s' : State} (h : Ready env roots Q p.2)
    (hf : Flagged p.2.mem (rootFrame env.cr3)) (ha : a ∈ Region)
    (hQ : ∀ s', RunsOut env a p.2 s' → Q s') (hrec : p.1.Readable sp 12)
    (hends : Ends (accessAttempt env newNode sp a write) p (.ok (.frame f, user, s'))) :
    userAccess env a write p.2 = .ok (f, s') := by
  rcases access_settles newNode (lt_of_region ha) hrec (access_cases write h hf ha hQ) with
    ⟨r, hall, -, hv, -⟩ | ⟨hd, -⟩
  · exact (verdict_frame_iff hv).1 ⟨user, (hall _).1 hends⟩
  · exact absurd hd (not_diverges hends)

/-- The answer to a request is an address or -1, and 0 is neither. -/
theorem lazyAlloc_answer {s : State} {size : ℕ} (hl : Partition s.map.memoryAllocations) :
    (lazyAlloc newNode size s).1.getD 0 % 2 ^ 64
      = (petmemAllocVspace newNode (requestPages size) s).1 := by
  have hlt : (petmemAllocVspace newNode (requestPages size) s).1 < 2 ^ 64 := by
    have hstarts : ∀ cur ∈ s.map.memoryAllocations, cur.pageAddr < 2 ^ 64 := fun cur hcur => by
      have := hl.starts cur hcur
      unfold petmemRegionEnd at this
      omega
    have hcase := allocate_cases newNode (requestPages size) s.map.memoryAllocations
    unfold petmemAllocVspace
    generalize allocate newNode (requestPages size) s.map.memoryAllocations = res at hcase
    cases hcase with
    | full _ =>
      show noRegion < 2 ^ 64
      decide
    | exact hsplit _ _ _ => exact hstarts _ (by simp [hsplit])
    | cut hsplit _ _ _ => exact hstarts _ (by simp [hsplit])
  have hrun : lazyAlloc newNode size s =
      if (petmemAllocVspace newNode (requestPages size) s).1 = 0
      then (none, (petmemAllocVspace newNode (requestPages size) s).2)
      else (some (petmemAllocVspace newNode (requestPages size) s).1,
        (petmemAllocVspace newNode (requestPages size) s).2) := rfl
  rw [hrun]
  split
  · rename_i h0
    rw [h0]
    rfl
  · exact Nat.mod_eq_of_lt hlt

/-- A size that can be rounded is rounded to the pages that hold it. -/
theorem requestPages_bounds {size : ℕ} (h1 : 1 ≤ size) (h2 : size ≤ 2 ^ 64 - 4096) :
    1 ≤ requestPages size ∧ size ≤ 4096 * requestPages size := by
  rw [requestPages_eq, Nat.mod_eq_of_lt (by omega)]
  omega

theorem outstanding_eq (cs : List Call) :
    outstanding (cs.filterMap Call.event) = (blocks cs).map fun b => (b.1, requestPages b.2) := by
  induction cs with
  | nil => rfl
  | cons c cs ih =>
    cases c with
    | malloc size addr =>
      show outstanding (.alloc addr (requestPages size) :: cs.filterMap Call.event) = _
      rw [outstanding, blocks]
      by_cases haddr : addr = noRegion
      · rw [if_pos haddr, if_pos haddr, ih]
      · rw [if_neg haddr, if_neg haddr, ih]
        rfl
    | free addr =>
      show outstanding (.free addr :: cs.filterMap Call.event) = _
      rw [outstanding, blocks, ih, List.filter_map]
      rfl
    | load a b => exact ih
    | store a b => exact ih
    | own => exact ih

/-- A call is one operation of the process, or leaves petmem alone. -/
theorem step_of_harness (h : Ready env roots Q p.2) (hf : Flagged p.2.mem (rootFrame env.cr3))
    (hok : Proper env Q cs p.2 c) (hstep : HarnessStep env p c p') :
    (c.event = none ∧ p'.2 = p.2) ∨
    ∃ ev, c.event = some ev ∧ AtEvictions env Q (cs.filterMap Call.event) p.2 ev ∧
      VspaceOk (cs.filterMap Call.event) p.2 ev ∧ Step env p.2 ev p'.2 := by
  cases hstep with
  | @malloc newNode sp size addr _ hread hwrite hsize hnode hrun =>
    rw [petMalloc_eq hread hwrite hsize rfl, lazyAlloc_answer h.list, lazyAlloc_state] at hrun
    obtain ⟨rfl, rfl⟩ := Prod.mk.inj (Except.ok.inj hrun)
    exact .inr ⟨_, rfl, trivial, (requestPages_bounds hok.1 hok.2).1, .alloc hnode⟩
  | @free newNode addr _ hrun =>
    obtain ⟨reply, hcall, hrun⟩ := bind_eq_ok.1 hrun
    obtain ⟨s', hfree, hcall⟩ := bind_eq_ok.1
      (show (petmemFreeVspace env addr p.2 >>= fun s => pure ⟨0, p.1, s⟩) = .ok reply from hcall)
    obtain rfl := Except.ok.inj hcall
    obtain rfl := Except.ok.inj hrun
    obtain ⟨size, hmem⟩ := hok
    refine .inr ⟨_, rfl, trivial, ⟨requestPages size, ?_⟩, .free hfree⟩
    rw [outstanding_eq]
    exact List.mem_map_of_mem hmem
  | load hrec hends =>
    have hacc := userAccess_of_ends h hf hok.1 hok.2 hrec hends
    exact .inr ⟨_, rfl, hok, trivial, .read (bind_eq_ok.2 ⟨_, hacc, rfl⟩)⟩
  | store hrec hends =>
    have hacc := userAccess_of_ends h hf hok.1 hok.2 hrec hends
    exact .inr ⟨_, rfl, hok, trivial, .write (bind_eq_ok.2 ⟨_, hacc, rfl⟩)⟩
  | own => exact .inl ⟨rfl, rfl⟩

/-- The run of a program is a run of the process. -/
theorem run_of_harnessRun {ok : List Call → State → Call → Prop} (hs : Start env roots k)
    (hflags : Flagged k.mem (rootFrame env.cr3)) (hhead : ∀ s, Q s → HeadAbsent env s.mem)
    (hok : ∀ cs s c, ok cs s c → Proper env Q cs s c)
    (h : HarnessRun env ok (user, initState k node) cs p) :
    Run env (fun es s ev => AtEvictions env Q es s ev ∧ VspaceOk es s ev) (initState k node)
      (cs.filterMap Call.event) p.2 := by
  induction h with
  | start => exact .start
  | @step cs c p p' _ hc hstep ih =>
    obtain ⟨hr, hf⟩ := run_flagged hs hflags hhead (fun _ _ _ hok => hok.1) ih
    rcases step_of_harness hr hf (hok _ _ _ hc) hstep with
      ⟨hnone, heq⟩ | ⟨ev, hsome, hev, hv, hst⟩
    · rw [List.filterMap_cons_none hnone, heq]
      exact ih
    · rw [List.filterMap_cons_some hsome]
      exact .step ih ⟨hev, hv⟩ hst

/-- Two blocks have no byte in common. -/
def Apart (b b' : ℕ × ℕ) : Prop := b.1 + b.2 ≤ b'.1 ∨ b'.1 + b'.2 ≤ b.1

/-- A block that `pet_malloc` returns is apart from those that the program has. -/
theorem blocks_apart (hs : Start env roots k) (hflags : Flagged k.mem (rootFrame env.cr3))
    (hhead : ∀ s, Q s → HeadAbsent env s.mem)
    (h : HarnessRun env (Proper env Q) (user, initState k node) cs p) :
    (blocks cs).Pairwise Apart ∧ ∀ b ∈ blocks cs, b.2 ≤ 4096 * requestPages b.2 := by
  induction h with
  | start => exact ⟨.nil, by simp [blocks]⟩
  | @step cs c p p' hrun hc hstep ih =>
    obtain ⟨hpair, hsizes⟩ := ih
    cases hstep with
    | @malloc newNode sp size addr _ hread hwrite hsize hnode hcall =>
      have hprocess := run_of_harnessRun hs hflags hhead (fun _ _ _ h => h) hrun
      obtain ⟨hl, ht⟩ := run_tracks (hprocess.mono fun _ _ _ h => h.2)
      rw [petMalloc_eq hread hwrite hsize rfl, lazyAlloc_answer hl, lazyAlloc_state] at hcall
      obtain ⟨rfl, -⟩ := Prod.mk.inj (Except.ok.inj hcall)
      obtain ⟨h1, h2⟩ := requestPages_bounds hc.1 hc.2
      rw [blocks]
      split
      · exact ⟨hpair, hsizes⟩
      · rename_i hne
        obtain ⟨-, -, -, hfits⟩ := ((petmemAllocVspace_spec ht hl newNode h1).2.2 hne).1
        refine ⟨List.pairwise_cons.2 ⟨fun b hb => ?_, hpair⟩, fun b hb => ?_⟩
        · rw [outstanding_eq] at hfits
          have hclear := hfits _ (List.mem_map_of_mem hb)
          have := hsizes b hb
          unfold Apart
          dsimp only at hclear ⊢
          omega
        · rcases List.mem_cons.1 hb with rfl | hb
          · exact h2
          · exact hsizes b hb
    | free _ =>
      rw [blocks]
      exact ⟨hpair.filter _, fun b hb => hsizes b (List.mem_of_mem_filter hb)⟩
    | load _ _ => exact ⟨hpair, hsizes⟩
    | store _ _ => exact ⟨hpair, hsizes⟩
    | own => exact ⟨hpair, hsizes⟩

/-- The bytes of a block lie in a region in use. -/
theorem covered_of_block {es : List Event} {l : List VaddrReg} {b : ℕ × ℕ}
    (hes : es = cs.filterMap Call.event) (ht : Tracks (outstanding es) l) (hb : b ∈ blocks cs)
    (hsize : b.2 ≤ 4096 * requestPages b.2) (h1 : b.1 ≤ a) (h2 : a < b.1 + b.2) : Covered l a := by
  have hmem : (b.1, requestPages b.2) ∈ outstanding es := by
    rw [hes, outstanding_eq]
    exact List.mem_map_of_mem hb
  obtain ⟨r, hr, hst, heq⟩ := (ht.mem _).1 hmem
  obtain ⟨hstart, hpages⟩ := Prod.mk.inj heq
  exact ⟨r, hr, hst, by omega, by rw [hstart, hpages]; omega⟩

/-- **Blocks of a program.** In every run of a program that uses petmem through the harness alone,
the blocks that `pet_malloc` has returned and `pet_free` has not taken back start at page
boundaries of the petmem region and have no byte in common, and no access to a byte of one of them
kills the process. Frames run out only where the list head resolves to no present page. -/
theorem harness_blocks (hs : Start env roots k) (hflags : Flagged k.mem (rootFrame env.cr3))
    (h : HarnessRun env (Proper env fun s => HeadAbsent env s.mem) (user, initState k node) cs p) :
    (blocks cs).Pairwise Apart ∧
    ∀ b ∈ blocks cs, 4096 ∣ b.1 ∧ petmemRegionStart ≤ b.1 ∧ b.1 + b.2 ≤ petmemRegionEnd ∧
      ∀ a, b.1 ≤ a → a < b.1 + b.2 → (∀ s', RunsOut env a p.2 s' → HeadAbsent env s'.mem) →
        ∀ newNode sp write, p.1.Readable sp 12 → ∀ user' s',
          ¬ Ends (accessAttempt env newNode sp a write) p (.ok (.killed, user', s')) := by
  obtain ⟨hpair, hsizes⟩ := blocks_apart hs hflags (fun _ hQ => hQ) h
  have hrun := run_of_harnessRun hs hflags (fun _ hQ => hQ) (fun _ _ _ hok => hok) h
  obtain ⟨hr, hf⟩ := run_flagged hs hflags (fun _ hQ => hQ) (fun _ _ _ hok => hok.1) hrun
  obtain ⟨hl, ht⟩ := run_tracks (hrun.mono fun _ _ _ hok => hok.2)
  refine ⟨hpair, fun b hb => ?_⟩
  have hmem : (b.1, requestPages b.2) ∈ outstanding (cs.filterMap Call.event) := by
    rw [outstanding_eq]
    exact List.mem_map_of_mem hb
  obtain ⟨r, hreg, -, heq⟩ := (ht.mem _).1 hmem
  obtain ⟨hstart, hpages⟩ := Prod.mk.inj heq
  have hbounds := hl.spans.bounds hreg
  have hsize := hsizes b hb
  rw [hstart, hpages] at hbounds
  refine ⟨hstart ▸ hl.spans.dvd (by decide) hreg, hbounds.1, by omega,
    fun a h1 h2 hQ newNode sp write hrec user' s' hends => ?_⟩
  have hcov := covered_of_block rfl ht hb hsize h1 h2
  have ha := mem_region_of_range hl ((Regions.checkAddressRange_iff hl a).2 hcov)
  rcases access_settles newNode (lt_of_region ha) hrec (access_cases write hr hf ha hQ) with
    ⟨r', hall, -, hv, -⟩ | ⟨hd, -⟩
  · exact ((verdict_killed_iff hv).1 ((hall _).1 hends)).2.1 hcov
  · exact not_diverges hends hd

/-- A request that is answered, where everything can be read and written. -/
theorem exists_malloc (env : Env) {newNode size addr : ℕ} {s : State}
    (hread : ∀ x, user.readable x = true) (hwrite : ∀ x, user.writable x = true)
    (hsize : size < 2 ^ 64)
    (hnode : newNode ∉ s.map.memoryAllocations.map VaddrReg.node)
    (haddr : (lazyAlloc newNode size s).1 = some addr) (hlt : addr < 2 ^ 64) :
    ∃ user', (∀ x, user'.readable x = true) ∧ (∀ x, user'.writable x = true) ∧
      HarnessStep env (user, s) (.malloc size addr) (user', (lazyAlloc newNode size s).2) := by
  have hanswer : (lazyAlloc newNode size s).1.getD 0 = addr := by
    rw [haddr]
    rfl
  have hrun : petMalloc env newNode 0x7000 size user s = _ :=
    petMalloc_eq (fun i _ => hread _) (fun i _ => hwrite _) hsize hanswer
  rw [Nat.mod_eq_of_lt hlt] at hrun
  refine ⟨_, fun x => ?_, fun x => ?_, .malloc (fun i _ => hread _) (fun i _ => hwrite _) hsize
    hnode hrun⟩
  · rw [Space.readable_store]
    exact hread x
  · rw [Space.writable_store]
    exact hwrite x

/-- Two blocks of ten bytes. -/
theorem harness_blocks_of_two :
    ∃ cs p, HarnessRun smallEnv (Proper smallEnv fun s => HeadAbsent smallEnv s.mem)
        (smallUser, initState (smallKern (eightSlots 0)) 1) cs p ∧
      blocks cs = [(0x1000001000, 10), (0x1000000000, 10)] ∧ (blocks cs).Pairwise Apart := by
  have hread : ∀ x, smallUser.readable x = true := fun x => smallUser_readable x 1 0 (by omega)
  have hwrite : ∀ x, smallUser.writable x = true := fun x => smallUser_writable x 1 0 (by omega)
  have haddr₁ : (lazyAlloc 2 10 (initState (smallKern (eightSlots 0)) 1)).1
      = some 0x1000000000 := by decide +kernel
  have haddr₂ : (lazyAlloc 3 10 (lazyAlloc 2 10 (initState (smallKern (eightSlots 0)) 1)).2).1
      = some 0x1000001000 := by decide +kernel
  obtain ⟨user₁, hread₁, hwrite₁, hstep₁⟩ := exists_malloc smallEnv hread hwrite
    (by norm_num) (by decide) haddr₁ (by norm_num)
  obtain ⟨user₂, -, -, hstep₂⟩ := exists_malloc smallEnv hread₁ hwrite₁ (by norm_num)
    (by decide +kernel) haddr₂ (by norm_num)
  have hok : ∀ (cs : List Call) (s : State) (addr : ℕ),
      Proper smallEnv (fun s => HeadAbsent smallEnv s.mem) cs s (.malloc 10 addr) :=
    fun _ _ _ => ⟨by norm_num, by norm_num⟩
  have hrun := (HarnessRun.start.step (hok _ _ _) hstep₁).step (hok _ _ _) hstep₂
  obtain ⟨hstart, hnone⟩ := smallKern_unmapped (eightSlots 0)
  have hflags : Flagged (smallKern (eightSlots 0)).mem (rootFrame smallEnv.cr3) :=
    flagged_of_unmapped (smallKern_none _)
  exact ⟨_, _, hrun, by decide, (harness_blocks hstart hflags hrun).1⟩

end Programs

end OnDemand

end Petmem
