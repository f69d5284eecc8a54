import Petmem.Accounting
import Petmem.Harness
import Petmem.ListHead
import Petmem.SwapBitmap

/-!
# Why an operation fails

An operation of a process that does not come back has one of a few reasons, and none of them is a
`BUG_ON`: the clock finds no page, `alloc_map` is too short, the list head is merged, or the
process is killed. `Fails` lists the reasons as conditions on the state in which the operation was
asked for, and in every state of the machine the list is exact (`fails_iff`).
-/

namespace Petmem

open ByteMemory RadixTree Pools Swap Regions

namespace OnDemand

variable {env : Env} {s s' : State} {roots : Set ℕ} {Q : State → Prop} {a : ℕ} {e : Stop}

/-! ## Evictions -/

/-- The clock does not come back: its hand is on no region of the list, or no region but the one
under the hand has its first page in memory. -/
inductive ClockStops (env : Env) (s : State) : Stop → Prop
  | hand {node : ℕ} : s.map.clockHand = some node →
      (∀ reg ∈ s.map.memoryAllocations, reg.node ≠ node) → ClockStops env s .danglingHand
  | turns : (s.map.clockHand = none ∨ ∃ reg ∈ s.map.memoryAllocations,
        s.map.clockHand = some reg.node) →
      (∀ reg ∈ s.map.memoryAllocations, s.map.clockHand ≠ some reg.node →
        walk s.mem env.cr3 reg.pageAddr = none) → ClockStops env s .diverges

/-- The two turns of the clock come to nothing, or it is on a ring. -/
theorem pageReplacementClock_of_ring {ring : List (Option ℕ × VaddrReg)}
    (hring : ringAfter env.head s.map.memoryAllocations s.map.clockHand = some ring)
    (h : pageReplacementClock env s = .error e) : e = .diverges := by
  unfold pageReplacementClock at h
  rw [hring] at h
  dsimp only at h
  split at h
  · cases h
  · split at h
    · cases h
    · exact (Except.error.inj h).symm

theorem pageReplacementClock_eq_error (h : Owned s.toKern roots)
    (hr : rootFrame env.cr3 ∈ roots) (hl : Partition s.map.memoryAllocations)
    (hhead : HeadAbsent env s.mem) :
    pageReplacementClock env s = .error e ↔ ClockStops env s e := by
  have hmem : ∀ reg ∈ s.map.memoryAllocations, reg.pageAddr ∈ Region := fun reg hreg =>
    starts_subset hl ⟨reg, hreg, rfl⟩
  cases hring : ringAfter env.head s.map.memoryAllocations s.map.clockHand with
  | none =>
    have hno := hring
    rw [Option.eq_none_iff_forall_ne_some, ← not_exists, ringAfter_isSome_iff, not_or] at hno
    obtain ⟨node, hnode⟩ := Option.ne_none_iff_exists'.1 hno.1
    have hoff : ∀ reg ∈ s.map.memoryAllocations, reg.node ≠ node := by
      rintro reg hreg rfl
      exact hno.2 ⟨reg, hreg, hnode⟩
    have hrun : pageReplacementClock env s = .error .danglingHand := by
      unfold pageReplacementClock
      rw [hring]
    rw [hrun, Except.error.injEq]
    constructor
    · rintro rfl
      exact .hand hnode hoff
    · rintro (_ | ⟨hon, -⟩)
      · rfl
      · exact absurd hon (not_or.2 hno)
  | some ring =>
    have hon := ringAfter_isSome_iff.1 ⟨ring, hring⟩
    have hreturns := pageReplacementClock_returns_iff hring
    constructor
    · intro hrun
      obtain rfl := pageReplacementClock_of_ring hring hrun
      refine .turns hon fun reg hreg hhand => ?_
      by_contra hwalk
      obtain ⟨v, s', hok⟩ := hreturns.2 ⟨_, (mem_ringAfter_iff hl.nodes hring).2 ⟨hreg, hhand⟩,
        (getValidPageEntry_ne_zero_iff h hr (hmem reg hreg)).2 hwalk⟩
      rw [hok] at hrun
      cases hrun
    · rintro (⟨hnode, hoff⟩ | ⟨-, habsent⟩)
      · -- the hand of a ring is on the list
        rcases hon with hnone | ⟨reg, hreg, hhand⟩
        · cases hnone.symm.trans hnode
        · exact absurd (Option.some.inj (hhand.symm.trans hnode)) (hoff reg hreg)
      · cases hrun : pageReplacementClock env s with
        | error e => rw [pageReplacementClock_of_ring hring hrun]
        | ok res =>
          obtain ⟨it, hit, hne⟩ := hreturns.1 ⟨res.1, res.2, hrun⟩
          rcases mem_of_ringAfter hring hit with ⟨hreg, hptr⟩ | rfl
          · obtain ⟨ptr, reg⟩ := it
            obtain rfl : ptr = some reg.node := hptr
            exact absurd (habsent reg hreg ((mem_ringAfter_iff hl.nodes hring).1 hit).2)
              ((getValidPageEntry_ne_zero_iff h hr (hmem reg hreg)).1 hne)
          · -- the list head does not resolve to a page
            refine absurd ?_ hne
            unfold getValidPageEntry
            rw [show walk s.mem env.cr3 env.head.pageAddr = none from hhead]

/-- `clear_up_memory` does not come back: the clock does not, or it finds a page and
`swap_out_page` leaves the bitmap. -/
inductive EvictionStops (env : Env) (s : State) : Stop → Prop
  | clock {e : Stop} : ClockStops env s e → EvictionStops env s e
  | bitmap : (∀ e, ¬ ClockStops env s e) → PassesEnd s.map.swap → EvictionStops env s .outOfBounds

theorem clearUpMemory_eq_error (h : Owned s.toKern roots) (hr : rootFrame env.cr3 ∈ roots)
    (hl : Partition s.map.memoryAllocations) (hhead : HeadAbsent env s.mem) :
    clearUpMemory env s = .error e ↔ EvictionStops env s e := by
  have hclock := @pageReplacementClock_eq_error env s roots
  constructor
  · intro hrun
    have hrun' := hrun
    unfold clearUpMemory at hrun'
    rcases bind_eq_error.1 hrun' with hstop | ⟨⟨w, s₁⟩, hok, hrest⟩
    · exact .clock ((hclock h hr hl hhead).1 hstop)
    · have hchosen := pageReplacementClock_spec h hr hl hhead hok
      have hno : ∀ e, ¬ ClockStops env s e := fun e he => by
        rw [(hclock h hr hl hhead).2 he] at hok
        cases hok
      rcases bind_eq_error.1 hrest with hstop | ⟨res, hout, -⟩
      · rw [hchosen.swap] at hstop
        obtain ⟨rfl, hend⟩ := swapOutPage_eq_error.1 hstop
        exact .bitmap hno hend
      · -- from here on nothing stops it
        rw [hchosen.swap, show s₁.file = s.file by rw [hchosen.kern]] at hout
        obtain ⟨s', -, -, -, -, hdone, -⟩ := clearUpMemory_of_chosen h hr hl hok hchosen ⟨res, hout⟩
        rw [hrun] at hdone
        cases hdone
  · rintro (hstop | ⟨hno, hend⟩)
    · exact bind_eq_error.2 (.inl ((hclock h hr hl hhead).2 hstop))
    · cases hok : pageReplacementClock env s with
      | error e => exact absurd ((hclock h hr hl hhead).1 hok) (hno e)
      | ok res =>
        have hchosen := pageReplacementClock_spec h hr hl hhead hok
        refine bind_eq_error.2 (.inr ⟨res, hok, bind_eq_error.2 (.inl ?_)⟩)
        exact swapOutPage_eq_error.2 ⟨rfl, by rwa [hchosen.swap]⟩

/-! ## Page faults -/

theorem allocPage_eq_error (h : Ready env roots Q s) (hQ : OutOfFrames s.toKern → Q s) :
    allocPage env s = .error e ↔ OutOfFrames s.toKern ∧ EvictionStops env s e := by
  rcases petmemAllocPages_spec h.owned.pools with ⟨hnone, -⟩ | ⟨g, k, hsome, hal⟩
  · have hout : OutOfFrames s.toKern := ⟨_, hnone⟩
    have hhead := h.head s (hQ hout)
    rw [allocPage_of_none hnone, bind_eq_error,
      clearUpMemory_eq_error h.owned h.root h.list hhead]
    constructor
    · rintro (hstop | ⟨s₁, hok, hstop⟩)
      · exact ⟨hout, hstop⟩
      · -- there is a frame for the second call
        obtain ⟨v, f, g, slot, hev⟩ := clearUpMemory_spec h.owned h.root h.list hhead hok
        rcases petmemAllocPages_spec hev.owned.pools with ⟨hnone', -⟩ | ⟨c, k, hsome, -⟩
        · rw [hnone'] at hstop
          cases hstop
        · rw [hsome] at hstop
          cases hstop
    · exact fun hstop => .inl hstop.2
  · have hg := hal.pos
    rw [allocPage_of_some hsome (by omega)]
    constructor
    · intro hrun
      cases hrun
    · rintro ⟨⟨k', hnone⟩, -⟩
      have := (Prod.mk.inj (Except.ok.inj (hsome.symm.trans hnone))).1
      omega

theorem handleTableMemory_eq_error {handle : ℕ} :
    handleTableMemory env handle s = .error e ↔ allocPage env s = .error e := by
  unfold handleTableMemory
  rw [bind_eq_error]
  constructor
  · rintro (h | ⟨res, -, h⟩)
    · exact h
    · cases h
  · exact .inl

theorem pml4Stage_eq_error : pml4Stage env a s = .error e ↔
    (readPte s.mem (pml4Entry env a)).present = false ∧ allocPage env s = .error e := by
  unfold pml4Stage
  cases hp : (readPte s.mem (pml4Entry env a)).present with
  | true => simp
  | false => simp [handleTableMemory_eq_error]

theorem tableStage_eq_error {entry : ℕ} : tableStage env entry s = .error e ↔
    (readPte s.mem entry).present = false ∧ allocPage env s = .error e := by
  unfold tableStage
  cases hp : (readPte s.mem entry).present with
  | true => simp
  | false =>
    simp only [Bool.not_false, if_true, bind_eq_error, handleTableMemory_eq_error, true_and]
    constructor
    · rintro (h | ⟨s₁, -, h⟩)
      · exact h
      · cases h
    · exact .inl

theorem pteStage_eq_error {pte : ℕ} : pteStage env pte s = .error e ↔
    (readPte s.mem pte).present = false ∧
      ((readPte s.mem pte).dirty = false ∧ allocPage env s = .error e ∨
        (readPte s.mem pte).dirty = true ∧
          (swapInPage ((readPte s.mem pte).base % 2 ^ 32) s.map.swap s.file = .error e ∨
            ∃ page swap, swapInPage ((readPte s.mem pte).base % 2 ^ 32) s.map.swap s.file
                = .ok (page, swap) ∧
              allocPage env { s with map := { s.map with swap } } = .error e)) := by
  unfold pteStage
  dsimp only
  cases hp : (readPte s.mem pte).present with
  | true => simp
  | false =>
    cases hd : (readPte s.mem pte).dirty with
    | false => simp [tableStage_eq_error, hp]
    | true =>
      simp only [Bool.not_false, Bool.not_true, Bool.and_false, Bool.and_self, if_true,
        Bool.false_eq_true, if_false, bind_eq_error, swapInStage, true_and, false_and, false_or,
        reduceCtorEq]
      constructor
      · rintro (h | ⟨⟨page, swap⟩, hin, h | ⟨res, -, h⟩⟩)
        · exact .inl h
        · exact .inr ⟨page, swap, hin, h⟩
        · cases h
      · rintro (h | ⟨page, swap, hin, h⟩)
        · exact .inl h
        · exact .inr ⟨⟨page, swap⟩, hin, .inl h⟩

/-- The handler does not come back: there are no frames left and the eviction does not come back,
or the slot of the page has no bit. -/
inductive FaultStops (env : Env) (a code : ℕ) (s : State) : Stop → Prop
  | evict {s' : State} {e : Stop} : code ≠ errorPermission → RunsOut env a s s' →
      EvictionStops env s' e → FaultStops env a code s e
  | slot : code ≠ errorPermission → checkAddressRange s.map.memoryAllocations a = true →
      ¬ Readable env s a → FaultStops env a code s .outOfBounds

/-- The handler where it does not refuse. -/
theorem petmemHandlePagefault_of_range {code : ℕ} (hcode : code ≠ errorPermission)
    (hrange : checkAddressRange s.map.memoryAllocations a = true) :
    petmemHandlePagefault env a code s = pml4Stage env a s >>= fun s₁ =>
      tableStage env (pdpEntry env a s₁.mem) s₁ >>= fun s₂ =>
        tableStage env (pdEntry env a s₂.mem) s₂ >>= fun s₃ =>
          pteStage env (ptEntry env a s₃.mem) s₃ >>= fun s₄ => .ok (0, s₄) := by
  unfold petmemHandlePagefault
  rw [if_neg (by simp [hrange, hcode])]
  rfl

theorem petmemHandlePagefault_eq_error {code : ℕ} (h : Ready env roots Q s)
    (hQ : code ≠ errorPermission → ∀ s', RunsOut env a s s' → Q s') :
    petmemHandlePagefault env a code s = .error e ↔ FaultStops env a code s e := by
  by_cases hcode : code = errorPermission
  · constructor
    · intro hrun
      unfold petmemHandlePagefault at hrun
      rw [if_pos (by simp [hcode])] at hrun
      cases hrun
    · rintro (⟨hne, -, -⟩ | ⟨hne, -, -⟩)
      · exact absurd hcode hne
      · exact absurd hcode hne
  by_cases hrange : checkAddressRange s.map.memoryAllocations a = true
  swap
  · constructor
    · intro hrun
      unfold petmemHandlePagefault at hrun
      rw [if_pos (by simp [hrange])] at hrun
      cases hrun
    · rintro (⟨-, hout, -⟩ | ⟨-, hrange', -⟩)
      · exact absurd hout.range hrange
      · exact absurd hrange' hrange
  have ha := mem_region_of_range h.list hrange
  have hasked : ∀ s', Asks env a s s' → OutOfFrames s'.toKern → Q s' := fun s' hasks hout =>
    hQ hcode s' ⟨hrange, hasks, hout⟩
  -- wherever a frame is asked for
  have halloc : ∀ s', Asks env a s s' → (allocPage env s' = .error e ↔
      OutOfFrames s'.toKern ∧ EvictionStops env s' e) := fun s' hasks =>
    allocPage_eq_error (hasks.ready h ha hasked) (hasked s' hasks)
  have hevict : ∀ s', Asks env a s s' → allocPage env s' = .error e → FaultStops env a code s e :=
    fun s' hasks hrun => by
      obtain ⟨hout, hstop⟩ := (halloc s' hasks).1 hrun
      exact .evict hcode ⟨hrange, hasks, hout⟩ hstop
  rw [petmemHandlePagefault_of_range hcode hrange]
  constructor
  · intro hrun
    rcases bind_eq_error.1 hrun with h1 | ⟨s₁, h1, hrun⟩
    · obtain ⟨hp, hal⟩ := pml4Stage_eq_error.1 h1
      exact hevict s (.pml4 hp) hal
    rcases bind_eq_error.1 hrun with h2 | ⟨s₂, h2, hrun⟩
    · obtain ⟨hp, hal⟩ := tableStage_eq_error.1 h2
      exact hevict s₁ (.pdp h1 hp) hal
    rcases bind_eq_error.1 hrun with h3 | ⟨s₃, h3, hrun⟩
    · obtain ⟨hp, hal⟩ := tableStage_eq_error.1 h3
      exact hevict s₂ (.pd h1 h2 hp) hal
    rcases bind_eq_error.1 hrun with h4 | ⟨s₄, -, hrun⟩
    · obtain ⟨hp, ⟨hd, hal⟩ | ⟨hd, hin | ⟨page, swap, hin, hal⟩⟩⟩ := pteStage_eq_error.1 h4
      · exact hevict s₃ (.page h1 h2 h3 hp hd) hal
      · -- the slot had no bit before
        obtain ⟨rfl, hoff⟩ := swapInPage_eq_error.1 hin
        obtain ⟨hp₃, f₃, hf₃, hpte⟩ := stages_three h ha hasked h1 h2 h3
        rw [hpte] at hp hd hoff
        refine .slot hcode hrange fun hslot => ?_
        exact swapInPage_returns.1 (hp₃.readable ha h.root hslot f₃ hf₃ hp hd) hoff
      · exact hevict _ (.swapIn h1 h2 h3 hp hd hin) hal
    · cases hrun
  · rintro (⟨-, ⟨-, hasks, hout⟩, hstop⟩ | ⟨-, -, hslot⟩)
    · have hal := (halloc _ hasks).2 ⟨hout, hstop⟩
      cases hasks with
      | pml4 hp => exact bind_eq_error.2 (.inl (pml4Stage_eq_error.2 ⟨hp, hal⟩))
      | pdp h1 hp =>
        exact bind_eq_error.2 (.inr ⟨_, h1, bind_eq_error.2 (.inl
          (tableStage_eq_error.2 ⟨hp, hal⟩))⟩)
      | pd h1 h2 hp =>
        exact bind_eq_error.2 (.inr ⟨_, h1, bind_eq_error.2 (.inr ⟨_, h2, bind_eq_error.2 (.inl
          (tableStage_eq_error.2 ⟨hp, hal⟩))⟩)⟩)
      | page h1 h2 h3 hp hd =>
        have h4 := pteStage_eq_error.2 ⟨hp, .inl ⟨hd, hal⟩⟩
        exact bind_eq_error.2 (.inr ⟨_, h1, bind_eq_error.2 (.inr ⟨_, h2, bind_eq_error.2 (.inr
          ⟨_, h3, bind_eq_error.2 (.inl h4)⟩)⟩)⟩)
      | swapIn h1 h2 h3 hp hd hin =>
        have h4 := pteStage_eq_error.2 ⟨hp, .inr ⟨hd, .inr ⟨_, _, hin, hal⟩⟩⟩
        exact bind_eq_error.2 (.inr ⟨_, h1, bind_eq_error.2 (.inr ⟨_, h2, bind_eq_error.2 (.inr
          ⟨_, h3, bind_eq_error.2 (.inl h4)⟩)⟩)⟩)
    · -- the handler comes to the entry as it is
      simp only [Readable, not_forall] at hslot
      obtain ⟨f, hf, hp, hd, hin⟩ := hslot
      rw [swapInPage_returns, not_not] at hin
      obtain ⟨h1, h2, h3, hpte⟩ := stages_of_node ha hf
      have h4 : pteStage env (ptEntry env a s.mem) s = .error .outOfBounds := by
        rw [pteStage_eq_error, hpte]
        exact ⟨hp, .inr ⟨hd, .inl (swapInPage_eq_error.2 ⟨rfl, hin⟩)⟩⟩
      exact bind_eq_error.2 (.inr ⟨_, h1, bind_eq_error.2 (.inr ⟨_, h2, bind_eq_error.2 (.inr
        ⟨_, h3, bind_eq_error.2 (.inl h4)⟩)⟩)⟩)

/-! ## Accesses and `LAZY_FREE` -/

/-- An access does not come back: the handler does not, or it refuses the page, or the access is
not allowed on the page that it finds. -/
inductive AccessStops (env : Env) (a : ℕ) (write : Bool) (s : State) : Stop → Prop
  | fault {e : Stop} : getValidPageEntry s.mem env.cr3 a = 0 → FaultStops env a SEGV_MAPERR s e →
      AccessStops env a write s e
  | refused : getValidPageEntry s.mem env.cr3 a = 0 →
      checkAddressRange s.map.memoryAllocations a = false → AccessStops env a write s .segv
  | denied {s' : State} : faultIn env a s = .ok s' → translate s'.mem env.cr3 a write = none →
      AccessStops env a write s .segv

theorem faultIn_eq_error (h : Ready env roots Q s) (hQ : ∀ s', RunsOut env a s s' → Q s') :
    faultIn env a s = .error e ↔ getValidPageEntry s.mem env.cr3 a = 0 ∧
      (FaultStops env a SEGV_MAPERR s e ∨
        checkAddressRange s.map.memoryAllocations a = false ∧ e = .segv) := by
  have hcode : SEGV_MAPERR ≠ errorPermission := by decide
  have hfault := @petmemHandlePagefault_eq_error env s roots Q a e SEGV_MAPERR h fun _ => hQ
  unfold faultIn
  by_cases hz : getValidPageEntry s.mem env.cr3 a = 0
  · rw [if_pos hz, bind_eq_error]
    simp only [hz, true_and]
    constructor
    · rintro (hstop | ⟨⟨ret, s₁⟩, hok, hstop⟩)
      · exact .inl (hfault.1 hstop)
      · rcases petmemHandlePagefault_cases hok with ⟨-, hrange | hcode'⟩ | hret
        · refine .inr ⟨hrange, ?_⟩
          split at hstop
          · cases hstop
          · exact (Except.error.inj hstop).symm
        · exact absurd hcode' hcode
        · rw [if_pos hret] at hstop
          cases hstop
    · rintro (hstop | ⟨hrange, rfl⟩)
      · exact .inl (hfault.2 hstop)
      · refine .inr ⟨(-1, s), ?_, rfl⟩
        unfold petmemHandlePagefault
        rw [if_pos (by simp [hrange])]
        rfl
  · rw [if_neg hz]
    simp [hz]

theorem userAccess_eq_error {write : Bool} (h : Ready env roots Q s)
    (hQ : ∀ s', RunsOut env a s s' → Q s') :
    userAccess env a write s = .error e ↔ AccessStops env a write s e := by
  unfold userAccess
  rw [bind_eq_error, faultIn_eq_error h hQ]
  constructor
  · rintro (⟨hz, hstop | ⟨hrange, rfl⟩⟩ | ⟨s₁, hok, hstop⟩)
    · exact .fault hz hstop
    · exact .refused hz hrange
    · cases htr : translate s₁.mem env.cr3 a write with
      | none =>
        rw [htr] at hstop
        obtain rfl := Except.error.inj hstop
        exact .denied hok htr
      | some f =>
        rw [htr] at hstop
        cases hstop
  · rintro (⟨hz, hstop⟩ | ⟨hz, hrange⟩ | ⟨hok, htr⟩)
    · exact .inl ⟨hz, .inl hstop⟩
    · exact .inl ⟨hz, .inr ⟨hrange, rfl⟩⟩
    · refine .inr ⟨_, hok, ?_⟩
      rw [htr]

theorem mergeNext_eq_error {head : VaddrReg} {page : ℕ} {p : Position} :
    mergeNext head page p = .error e ↔
      e = .listCorrupted ∧ p.after = [] ∧ mergeable page head = true := by
  unfold mergeNext
  cases hafter : p.after with
  | nil =>
    cases hm : mergeable page head with
    | true => simp [eq_comm]
    | false => simp
  | cons next after =>
    dsimp only
    split <;> simp

theorem mergePrev_eq_error {head : VaddrReg} {page : ℕ} {p : Position} :
    mergePrev head page p = .error e ↔
      e = .listCorrupted ∧ p.before = [] ∧ mergeable page head = true := by
  unfold mergePrev
  cases hbefore : p.before with
  | nil =>
    cases hm : mergeable page head with
    | true => simp [eq_comm]
    | false => simp
  | cons prev before =>
    dsimp only
    split <;> simp

/-- The merges unlink the list head where the region has no neighbour on one side and the words in
front of the map read as a free region. -/
theorem coalesce_eq_error {head : VaddrReg} {page : ℕ} {p : Position} :
    coalesce head page p = .error e ↔
      e = .listCorrupted ∧ (p.before = [] ∨ p.after = []) ∧ mergeable page head = true := by
  unfold coalesce
  simp only [bind_eq_error, mergeNext_eq_error, mergePrev_eq_error]
  constructor
  · rintro (⟨he, hafter, hm⟩ | ⟨p₁, h1, ⟨he, hbefore, hm⟩ | ⟨p₂, -, h3⟩⟩)
    · exact ⟨he, .inr hafter, hm⟩
    · rw [mergeNext_before h1] at hbefore
      exact ⟨he, .inl hbefore, hm⟩
    · cases h3
  · rintro ⟨rfl, hedge, hm⟩
    cases hnext : mergeNext head page { p with found := { p.found with status := FREE } } with
    | error e =>
      obtain ⟨-, hafter, -⟩ := mergeNext_eq_error.1 hnext
      exact .inl ⟨rfl, hafter, hm⟩
    | ok p₁ =>
      -- there is a node behind, so there is none in front
      have hafter : p.after ≠ [] := fun hafter => by
        cases hnext.symm.trans (mergeNext_eq_error.2 ⟨rfl, hafter, hm⟩)
      refine .inr ⟨p₁, rfl, .inl ⟨rfl, ?_, hm⟩⟩
      rw [mergeNext_before hnext]
      exact hedge.resolve_right hafter

theorem petmemFreeVspace_eq_error {vaddr : ℕ} (h : Ready env roots Q s) :
    petmemFreeVspace env vaddr s = .error e ↔ e = .listCorrupted ∧
      ∃ p, findRegion vaddr [] s.map.memoryAllocations none = some p ∧
        (p.before = [] ∨ p.after = []) ∧ mergeable vaddr env.head = true := by
  unfold petmemFreeVspace freeAddress
  cases hfind : findRegion vaddr [] s.map.memoryAllocations none with
  | none => simp
  | some p =>
    have hp := isLastAt_of_findRegion hfind
    have hA := starts_subset h.list ⟨p.found, hp.mem, rfl⟩
    -- the pages are given back in any case
    obtain ⟨m', hfree, -⟩ := freeRange_spec h.root hA (List.range p.found.size) h.owned
    dsimp only
    rw [hfree]
    simp only [bind_eq_error, coalesce_eq_error, Option.some.injEq, exists_eq_left', reduceCtorEq,
      false_or]
    constructor
    · rintro ⟨k, -, hstop | ⟨l, -, hdone⟩⟩
      · exact hstop
      · cases hdone
    · exact fun hstop => ⟨_, rfl, .inl hstop⟩

/-! ## The operations of a process -/

/-- An operation, with the state it leaves when it comes back. -/
def execute (env : Env) (s : State) : Op → Except Stop State
  | .alloc newNode numPages => .ok (petmemAllocVspace newNode numPages s).2
  | .free vaddr => petmemFreeVspace env vaddr s
  | .fault addr errorCode => do
    let (_, s) ← petmemHandlePagefault env addr errorCode s
    return s
  | .read addr => do
    let (_, s) ← userRead env addr s
    return s
  | .write addr b => userWrite env addr b s

/-- Where the operation runs out of frames, `Q` holds. -/
def WhereOut (env : Env) (Q : State → Prop) (s : State) : Op → Prop
  | .alloc _ _ => True
  | .free _ => True
  | .fault addr errorCode => errorCode ≠ errorPermission → ∀ s', RunsOut env addr s s' → Q s'
  | .read addr => ∀ s', RunsOut env addr s s' → Q s'
  | .write addr _ => ∀ s', RunsOut env addr s s' → Q s'

/-- Why an operation does not come back. -/
inductive Fails (env : Env) (s : State) : Op → Stop → Prop
  | listHead {vaddr : ℕ} {p : Position} :
      findRegion vaddr [] s.map.memoryAllocations none = some p → p.before = [] ∨ p.after = [] →
      mergeable vaddr env.head = true → Fails env s (.free vaddr) .listCorrupted
  | fault {addr errorCode : ℕ} {e : Stop} : FaultStops env addr errorCode s e →
      Fails env s (.fault addr errorCode) e
  | read {addr : ℕ} {e : Stop} : AccessStops env addr false s e → Fails env s (.read addr) e
  | write {addr : ℕ} {b : Byte} {e : Stop} : AccessStops env addr true s e →
      Fails env s (.write addr b) e

theorem execute_eq_error {op : Op} (h : Ready env roots Q s) (hQ : WhereOut env Q s op) :
    execute env s op = .error e ↔ Fails env s op e := by
  cases op with
  | alloc newNode numPages =>
    constructor
    · intro hrun
      cases hrun
    · rintro ⟨⟩
  | free vaddr =>
    rw [execute, petmemFreeVspace_eq_error h]
    constructor
    · rintro ⟨rfl, p, hp, hedge, hm⟩
      exact .listHead hp hedge hm
    · rintro ⟨hp, hedge, hm⟩
      exact ⟨rfl, _, hp, hedge, hm⟩
  | fault addr errorCode =>
    rw [execute, bind_eq_error, petmemHandlePagefault_eq_error h hQ]
    constructor
    · rintro (hstop | ⟨res, -, hdone⟩)
      · exact .fault hstop
      · cases hdone
    · rintro (_ | hstop)
      exact .inl hstop
  | read addr =>
    rw [execute, userRead, bind_eq_error, bind_eq_error, userAccess_eq_error h hQ]
    constructor
    · rintro ((hstop | ⟨res, -, hdone⟩) | ⟨res, -, hdone⟩)
      · exact .read hstop
      · cases hdone
      · cases hdone
    · rintro (_ | _ | hstop)
      exact .inl (.inl hstop)
  | write addr b =>
    rw [execute, userWrite, bind_eq_error, userAccess_eq_error h hQ]
    constructor
    · rintro (hstop | ⟨res, -, hdone⟩)
      · exact .write hstop
      · cases hdone
    · rintro (_ | _ | _ | hstop)
      exact .inl hstop

/-! ## The bitmap over whole runs -/

/-- The swap file keeps its length, and the map the slots that have no bit. -/
structure SameExtent (s s' : State) : Prop where
  length : s'.file.length = s.file.length
  offMap : ∀ i, OffMap s'.map.swap i ↔ OffMap s.map.swap i

namespace SameExtent

theorem of_eq (hfile : s'.file = s.file) (hswap : s'.map.swap = s.map.swap) : SameExtent s s' :=
  ⟨by rw [hfile], fun i => by rw [hswap]⟩

theorem trans {s'' : State} (h : SameExtent s s') (h' : SameExtent s' s'') : SameExtent s s'' :=
  ⟨h'.length.trans h.length, fun i => (h'.offMap i).trans (h.offMap i)⟩

end SameExtent

theorem Evicted.sameExtent {r v f g slot : ℕ} (h : Evicted roots r s s' v f g slot) :
    SameExtent s s' := by
  obtain ⟨page, -, hcase⟩ := h.swap
  exact ⟨hcase.length, hcase.offMap.1⟩

theorem Grown.sameExtent {r ℓ f g : ℕ} {src : ℕ → Byte} {entry : Pte64}
    (h : Grown roots r a ℓ src s s' f g entry) : SameExtent s s' :=
  .of_eq h.file (by rw [h.map])

theorem Pages.sameExtent (h : Pages env roots Q a s s') : SameExtent s s' :=
  h.induct (P := SameExtent s) (.of_eq rfl rfl)
    (fun _ _ _ _ _ _ h1 _ hev => h1.trans hev.sameExtent)
    fun _ _ _ _ _ _ h1 _ hg _ => h1.trans hg.sameExtent

theorem Faulted.sameExtent (h : Faulted env roots Q a s s') : SameExtent s s' := by
  cases h with
  | resident hp _ => exact hp.sameExtent
  | fresh hp _ hg => exact hp.sameExtent.trans hg.sameExtent
  | @swapIn s₁ s₂ s₃ f g page swap hp _ _ _ hin he _ hg =>
    have hslot : SameExtent s₁ { s₁ with map := { s₁.map with swap } } :=
      ⟨rfl, fun i => swapInPage_offMap hin⟩
    refine (hp.sameExtent.trans hslot).trans (SameExtent.trans ?_ hg.sameExtent)
    rcases he with rfl | ⟨-, -, v, c, d, slot, hev⟩
    · exact .of_eq rfl rfl
    · exact hev.sameExtent

/-- Wherever the handler asks for a frame. -/
theorem Asks.sameExtent (hasks : Asks env a s s') (h : Ready env roots Q s) (ha : a ∈ Region)
    (hQ : ∀ s', Asks env a s s' → OutOfFrames s'.toKern → Q s') : SameExtent s s' := by
  cases hasks with
  | pml4 _ => exact .of_eq rfl rfl
  | pdp h1 _ => exact (stages_one h ha hQ h1).1.sameExtent
  | pd h1 h2 _ => exact (stages_two h ha hQ h1 h2).1.sameExtent
  | page h1 h2 h3 _ _ => exact (stages_three h ha hQ h1 h2 h3).1.sameExtent
  | swapIn h1 h2 h3 _ _ hin =>
    exact (stages_three h ha hQ h1 h2 h3).1.sameExtent.trans ⟨rfl, fun i => swapInPage_offMap hin⟩

theorem step_sameExtent {es : List Event} {ev : Event} (h : Ready env roots Q s)
    (hok : AtEvictions env Q es s ev) (hstep : Step env s ev s') : SameExtent s s' := by
  have hfault : ∀ {a : ℕ} {s₁ : State}, (s₁ = s ∨
      (checkAddressRange s.map.memoryAllocations a = true ∧ Faulted env roots Q a s s₁)) →
      SameExtent s s₁ := by
    rintro a s₁ (rfl | ⟨-, hft⟩)
    · exact .of_eq rfl rfl
    · exact hft.sameExtent
  cases step_cases h hok hstep with
  | alloc _ => exact .of_eq rfl rfl
  | freeNone _ => exact .of_eq rfl rfl
  | free hrel => exact .of_eq (by rw [hrel.kern]) (by rw [hrel.map])
  | refused => exact .of_eq rfl rfl
  | fault _ _ hft => exact hft.sameExtent
  | read _ hcase hacc _ => exact (hfault hcase).trans (.of_eq hacc.file (by rw [hacc.map]))
  | write _ hcase hacc hw =>
    exact ((hfault hcase).trans (.of_eq hacc.file (by rw [hacc.map]))).trans
      (.of_eq hw.file (by rw [hw.map]))

/-- All maps that processes have are as long as the first one. -/
theorem machineRun_extent {m : Mem} {file : SwapFile} {w : Machine} (h : MachineRun m file w) :
    w.kern.file.length = file.length ∧
      ∀ pid c, w.clients pid = some c → ∀ i, OffMap c.map.swap i ↔ OffMap (swapInit file) i := by
  have hupdate : ∀ {w : Machine} (pid : ℕ) (new : Option Client),
      (∀ pid c, w.clients pid = some c → ∀ i, OffMap c.map.swap i ↔ OffMap (swapInit file) i) →
      (∀ c, new = some c → ∀ i, OffMap c.map.swap i ↔ OffMap (swapInit file) i) →
      ∀ p c, Function.update w.clients pid new p = some c →
        ∀ i, OffMap c.map.swap i ↔ OffMap (swapInit file) i := by
    intro w pid new hw hnew p c hc
    by_cases hp : p = pid
    · rw [hp, Function.update_self] at hc
      exact hnew c hc
    · rw [Function.update_of_ne hp] at hc
      exact hw p c hc
  induction h with
  | refl => exact ⟨rfl, fun pid c hc => by cases hc⟩
  | tail hrun hstep ih =>
    obtain ⟨hlen, hmaps⟩ := ih
    have hinv := MachineInv.of_run hrun
    cases hstep with
    | addMemory _ _ hadd =>
      obtain ⟨res, -, hadd⟩ := bind_eq_ok.1 hadd
      obtain rfl := Except.ok.inj hadd
      exact ⟨hlen, hmaps⟩
    | kernel _ => exact ⟨hlen, hmaps⟩
    | arrive _ => exact ⟨hlen, hmaps⟩
    | leave _ => exact ⟨hlen, hmaps⟩
    | @petmemOpen pid cr3 node _ _ =>
      refine ⟨hlen, hupdate pid _ hmaps fun c hc => ?_⟩
      rw [← Option.some.inj hc]
      exact fun i => swapInit_offMap hlen
    | @perform pid c env ev s' hc henv hok hrun =>
      have hext := step_sameExtent (hinv.ready hc henv fun _ hq => hq) hok hrun
      refine ⟨hext.length.trans hlen, hupdate pid _ hmaps fun c' hc' => ?_⟩
      rw [← Option.some.inj hc']
      exact fun i => (hext.offMap i).trans (hmaps pid c hc i)
    | @petmemRelease pid c k' hc hrun =>
      obtain ⟨m', hrun', -, -⟩ := deinitRegions_spec (P := fun _ => True) (hinv.root pid c hc)
        (fun _ _ _ _ => trivial) c.map.memoryAllocations
        (fun reg hreg => starts_subset (hinv.list pid c hc) ⟨reg, hreg, rfl⟩) hinv.owned trivial
      obtain rfl := Except.ok.inj (hrun.symm.trans hrun')
      exact ⟨hlen, hupdate pid none hmaps fun c hc => by cases hc⟩

/-! ## What never happens -/

/-- A reason is no `BUG_ON`, and out of bounds only for a slot that has no bit. -/
def Harmless (s : State) (e : Stop) : Prop :=
  e ≠ .bugOn ∧ (e = .outOfBounds → ∃ i, OffMap s.map.swap i)

theorem EvictionStops.harmless (h : EvictionStops env s e) : Harmless s e := by
  cases h with
  | clock h =>
    cases h with
    | hand _ _ => exact ⟨by simp, by simp⟩
    | turns _ _ => exact ⟨by simp, by simp⟩
  | bitmap _ hend =>
    obtain ⟨i, -, hoff, -⟩ := hend
    exact ⟨by simp, fun _ => ⟨i, hoff⟩⟩

theorem FaultStops.harmless {code : ℕ} (hstop : FaultStops env a code s e)
    (h : Ready env roots Q s) (hQ : code ≠ errorPermission → ∀ s', RunsOut env a s s' → Q s') :
    Harmless s e := by
  cases hstop with
  | @evict s' e hcode hout hstop =>
    have ha := mem_region_of_range h.list hout.range
    have hext := hout.asks.sameExtent h ha fun s'' hasks hout' =>
      hQ hcode s'' ⟨hout.range, hasks, hout'⟩
    obtain ⟨hbug, hoff⟩ := hstop.harmless
    exact ⟨hbug, fun he => (hoff he).imp fun i => (hext.offMap i).1⟩
  | slot _ _ hslot =>
    simp only [Readable, not_forall, swapInPage_returns, not_not] at hslot
    obtain ⟨f, -, -, -, hoff⟩ := hslot
    exact ⟨by simp, fun _ => ⟨_, hoff⟩⟩

theorem AccessStops.harmless {write : Bool} (hstop : AccessStops env a write s e)
    (h : Ready env roots Q s) (hQ : ∀ s', RunsOut env a s s' → Q s') : Harmless s e := by
  cases hstop with
  | fault _ hstop => exact hstop.harmless h fun _ => hQ
  | refused _ _ => exact ⟨by simp, by simp⟩
  | denied _ _ => exact ⟨by simp, by simp⟩

theorem Fails.harmless {op : Op} (hstop : Fails env s op e) (h : Ready env roots Q s)
    (hQ : WhereOut env Q s op) : Harmless s e := by
  cases hstop with
  | listHead _ _ _ => exact ⟨by simp, by simp⟩
  | fault hstop => exact hstop.harmless h hQ
  | read hstop => exact hstop.harmless h hQ
  | write hstop => exact hstop.harmless h hQ

/-- **No `BUG_ON` fires, and what else can go wrong.** In every state of the machine `ADD_MEMORY`
of a new range and the release of the device come back. An operation of a process that has the
device open fails exactly for one of the listed reasons, and never with a `BUG_ON`; with a swap
file for which `swap_init` makes room for every bit, no operation leaves the bitmap. -/
theorem fails_iff {m : Mem} {file : SwapFile} {w : Machine} (h : MachineRun m file w) :
    (∀ base n, NewRange w.ranges base n → ∃ k', addMemory base n w.kern = .ok k') ∧
    ∀ pid c, w.clients pid = some c →
      (∃ k', petmemDeinitProcess c.cr3 ⟨w.kern, c.map⟩ = .ok k') ∧
      ∀ env op, env.cr3 = c.cr3 →
        WhereOut env (fun s => HeadAbsent env s.mem) ⟨w.kern, c.map⟩ op → ∀ e,
        (execute env ⟨w.kern, c.map⟩ op = .error e ↔ Fails env ⟨w.kern, c.map⟩ op e) ∧
        (execute env ⟨w.kern, c.map⟩ op = .error e → e ≠ .bugOn ∧
          ((swapInit file).size % 8 = 0 ∨ (swapInit file).size / 8 % 3 ≠ 0 →
            e ≠ .outOfBounds)) := by
  have hinv := MachineInv.of_run h
  obtain ⟨-, hmaps⟩ := machineRun_extent h
  refine ⟨fun base n hnew => ?_, fun pid c hc => ⟨?_, fun env op henv hQ e => ?_⟩⟩
  · obtain ⟨k', hrun, -⟩ := addMemory_added hinv.owned.pools hinv.within hnew
    exact ⟨k', hrun⟩
  · obtain ⟨m', hrun, -⟩ := deinitRegions_spec (P := fun _ => True) (hinv.root pid c hc)
      (fun _ _ _ _ => trivial) c.map.memoryAllocations
      (fun reg hreg => starts_subset (hinv.list pid c hc) ⟨reg, hreg, rfl⟩) hinv.owned trivial
    exact ⟨_, hrun⟩
  · have hr := hinv.ready hc henv (Q := fun s => HeadAbsent env s.mem) fun _ hq => hq
    have hiff := @execute_eq_error env ⟨w.kern, c.map⟩ w.roots _ e op hr hQ
    refine ⟨hiff, fun hrun => ?_⟩
    obtain ⟨hbug, hoff⟩ := (hiff.1 hrun).harmless hr hQ
    refine ⟨hbug, fun hcovers he => ?_⟩
    -- the slot would have been without a bit from the start
    obtain ⟨i, hi⟩ := hoff he
    obtain ⟨hlt, hlen⟩ := (hmaps pid c hc i).1 hi
    have hin := (swapInit_covers_iff file).2 hcovers i hlt
    rw [Nat.shiftRight_eq_div_pow] at hin
    exact absurd hin (Nat.not_lt.2 hlen)

/-- Only the second page of a region is in memory, no frame is left, and the fault for the first
page does not come back. -/
theorem fails_iff_of_second_page :
    ∃ w c, MachineRun smallMem (eightSlots 0) w ∧ w.clients 1 = some c ∧
      execute smallEnv ⟨w.kern, c.map⟩ (.fault 0x1000000000 1) = .error .diverges := by
  obtain ⟨w₀, h₀, hk₀, -, hc₀⟩ := machineRun_small (eightSlots 0)
  have hres : (replayCalm smallEnv [.alloc 2 2, .fault 0x1000001000 1]
      ([], initState (smallKern (eightSlots 0)) 1)).map (fun r =>
        ([(readPte r.2.mem (pml4Entry smallEnv 0x1000000000)).present,
            (readPte r.2.mem (pdpEntry smallEnv 0x1000000000 r.2.mem)).present,
            (readPte r.2.mem (pdEntry smallEnv 0x1000000000 r.2.mem)).present,
            (readPte r.2.mem (ptEntry smallEnv 0x1000000000 r.2.mem)).present,
            (readPte r.2.mem (ptEntry smallEnv 0x1000000000 r.2.mem)).dirty],
          checkAddressRange r.2.map.memoryAllocations 0x1000000000,
          (petmemAllocPages 1 r.2.toKern).toOption.map Prod.fst,
          (asked smallEnv 0x1000000000 r.2).all (headAbsent smallEnv), r.2.map.clockHand.isNone,
          r.2.map.memoryAllocations.all fun reg =>
            (walk r.2.mem smallEnv.cr3 reg.pageAddr).isNone)) =
      some ([true, true, true, false, false], true, some 0, true, true, true) := by
    decide +kernel
  obtain ⟨⟨es, s⟩, hreplay, heq⟩ := Option.map_eq_some_iff.1 hres
  obtain ⟨hflags, heq⟩ := Prod.mk.inj heq
  obtain ⟨hrange, heq⟩ := Prod.mk.inj heq
  obtain ⟨hout, heq⟩ := Prod.mk.inj heq
  obtain ⟨hhead, heq⟩ := Prod.mk.inj heq
  obtain ⟨hhand, habsent⟩ := Prod.mk.inj heq
  simp only [List.cons.injEq, and_true] at hflags
  obtain ⟨h4, h3, h2, h1, hd⟩ := hflags
  obtain ⟨⟨p, k'⟩, halloc, rfl⟩ := Option.map_eq_some_iff.1 hout
  have hrun := run_of_replayCalm (Q := fun s => HeadAbsent smallEnv s.mem) _ .start hreplay
  rw [← hk₀] at hrun
  obtain ⟨w, hw, hk, -, hc⟩ := machineRun_client h₀ hc₀ rfl hrun
  have hs : (⟨w.kern, s.map⟩ : State) = s := by rw [hk]
  have houts : RunsOut smallEnv 0x1000000000 s s :=
    ⟨hrange, asks_of_present h4 h3 h2 h1 hd, k', ok_of_toOption halloc⟩
  have hstops : ClockStops smallEnv s .diverges :=
    .turns (.inl (Option.isNone_iff_eq_none.1 hhand)) fun reg hreg _ =>
      Option.isNone_iff_eq_none.1 (List.all_eq_true.1 habsent reg hreg)
  have hwhere : WhereOut smallEnv (fun s => HeadAbsent smallEnv s.mem) ⟨w.kern, s.map⟩
      (.fault 0x1000000000 1) := by
    rw [hs]
    exact fun _ t ht => (headAbsent_iff t).1 (List.all_eq_true.1 hhead _ (mem_asked ht.asks))
  refine ⟨w, _, hw, hc, (((fails_iff hw).2 1 _ hc).2 smallEnv _ rfl hwhere .diverges).1.2 ?_⟩
  rw [hs]
  exact .fault (.evict (by decide) houts (.clock hstops))

end OnDemand

end Petmem
