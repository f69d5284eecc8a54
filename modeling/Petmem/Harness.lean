import Petmem.Ioctl
import Petmem.Library.Retry
import Petmem.Transparency

/-!
# The harness of a process (`user/harness.c`)

`pet_malloc` and the handler of SIGSEGV put a record on the stack of the process and send it. An
access that the page table does not admit raises the signal, and after the handler the instruction
is tried again: an access ends when it is admitted, or when the fault is refused and the process
kills itself. `userAccess` takes that for one operation; `access_ends_iff` says when it is one.

The handler is called again for ever where the level-4 entry does not admit the access, since
`petmem_handle_pagefault` takes the present bit of an entry for the whole of it.
-/

namespace Petmem
namespace OnDemand

open ByteMemory Packed RadixTree Regions Transfer

/-! ## Requests -/

/-- `pet_malloc`; `sp` is the address of `req`. What `ioctl` returns is not looked at. -/
def petMalloc (env : Env) (newNode sp size : ℕ) (user : Space) (s : State) :
    Except Stop (ℕ × Space × State) := do
  let user := user.store sp (List.replicate allocRequestLayout.sum 0)
  let user := user.store sp (encode 8 size)
  let reply ← petmemIoctl env newNode LAZY_ALLOC sp user s
  let req := AllocRequest.ofBytes (reply.user.block sp allocRequestLayout.sum)
  return (req.addr, reply.user, reply.state)

/-- `pet_free`. -/
def petFree (env : Env) (newNode addr : ℕ) (user : Space) (s : State) :
    Except Stop (Space × State) := do
  let reply ← petmemIoctl env newNode LAZY_FREE addr user s
  return (reply.user, reply.state)

/-- `SIGSEGV`. -/
def SIGSEGV : ℕ := 11

/-- `SEGV_MAPERR`: the address is in no mapping that the kernel knows of, as none is in the petmem
region. -/
def SEGV_MAPERR : ℕ := 1

/-- `segv_handler`, with the address of `fault` on its stack: whether the process kills itself. -/
def segvHandler (env : Env) (newNode sp signum siAddr siCode : ℕ) (user : Space) (s : State) :
    Except Stop (Bool × Space × State) :=
  if signum ≠ SIGSEGV then .ok (false, user, s)
  else do
    let user := user.store sp (encode 8 siAddr)
    let user := user.store (sp + 8) (encode 4 siCode)
    let reply ← petmemIoctl env newNode PAGE_FAULT sp user s
    return (decide (reply.ret ≠ 0), reply.user, reply.state)

/-! ## Accesses -/

/-- How an access ends. -/
inductive Outcome
  | frame (f : ℕ)
  | killed

/-- One attempt at an access: the hardware admits it, or the handler runs. -/
def accessAttempt (env : Env) (newNode sp a : ℕ) (write : Bool) (p : Space × State) :
    Except Stop (Outcome × Space × State) ⊕ Space × State :=
  match translate p.2.mem env.cr3 a write with
  | some f => .inl (.ok (.frame f, p.1, { p.2 with mem := markAccess p.2.mem env.cr3 a write }))
  | none =>
    match segvHandler env newNode sp SIGSEGV a SEGV_MAPERR p.1 p.2 with
    | .error e => .inl (.error e)
    | .ok (true, user, s) => .inl (.ok (.killed, user, s))
    | .ok (false, user, s) => .inr (user, s)

section Handler

variable {env : Env} {newNode sp a size : ℕ} {write : Bool} {user : Space} {s s' : State}

/-- The record of a page fault that the handler sends. -/
def faultRecord (user : Space) (sp a : ℕ) : Space :=
  user.store sp (PageFault.toBytes ⟨a, SEGV_MAPERR⟩)

theorem faultRecord_readable {n : ℕ} (h : user.Readable sp n) :
    (faultRecord user sp a).Readable sp n := fun i hi => by
  unfold faultRecord
  rw [Space.readable_store]
  exact h i hi

/-- What `ioctl` returns for a page fault tells whether it was refused. -/
theorem ret_ne (ret : ℤ) :
    decide ((if ret ≠ 0 then (1 : ℤ) else 0) ≠ 0) = decide (ret ≠ 0) := by
  split
  · rename_i h
    rw [decide_eq_true h]
    rfl
  · rename_i h
    rw [decide_eq_false h]
    rfl

/-- The module gets the address and the code that the handler was called with. -/
theorem segvHandler_eq (ha : a < 2 ^ 64) (h : user.Readable sp 12) :
    segvHandler env newNode sp SIGSEGV a SEGV_MAPERR user s
      = (petmemHandlePagefault env a SEGV_MAPERR s).map fun r =>
          (decide (r.1 ≠ 0), faultRecord user sp a, r.2) := by
  have hstore : (user.store sp (encode 8 a)).store (sp + 8) (encode 4 SEGV_MAPERR)
      = faultRecord user sp a := by
    unfold faultRecord PageFault.toBytes pageFaultLayout
    simp only [pack, List.append_nil]
    rw [Space.store_append, length_encode]
  have hread : (faultRecord user sp a).read sp pageFaultLayout.sum
      = some (PageFault.toBytes ⟨a, SEGV_MAPERR⟩) := by
    have hlen := PageFault.length_toBytes ⟨a, SEGV_MAPERR⟩
    unfold faultRecord
    rw [← hlen]
    exact Space.read_store (by rw [hlen]; exact h)
  have hfault : PageFault.ofBytes (PageFault.toBytes ⟨a, SEGV_MAPERR⟩) = ⟨a, SEGV_MAPERR⟩ := by
    rw [PageFault.ofBytes_toBytes, Nat.mod_eq_of_lt ha]
    rfl
  have hcall : petmemIoctl env newNode PAGE_FAULT sp (faultRecord user sp a) s
      = ioctlPageFault env sp (faultRecord user sp a) s := rfl
  unfold segvHandler
  rw [if_neg (not_not.2 rfl)]
  dsimp only
  rw [hstore, hcall]
  unfold ioctlPageFault
  rw [hread]
  dsimp only
  rw [hfault]
  cases petmemHandlePagefault env a SEGV_MAPERR s with
  | error e => rfl
  | ok r =>
    exact congrArg (fun killed => Except.ok (killed, faultRecord user sp a, r.2)) (ret_ne r.1)

/-- `pet_malloc` returns what `LAZY_ALLOC` answers, and leaves the request with the answer on the
stack. -/
theorem petMalloc_eq (hread : user.Readable sp 16) (hwrite : user.Writable sp 16)
    (hsize : size < 2 ^ 64) {answer : ℕ} (hanswer : (lazyAlloc newNode size s).1.getD 0 = answer) :
    petMalloc env newNode sp size user s = .ok (answer % 2 ^ 64,
      user.store sp (AllocRequest.toBytes ⟨size, answer⟩), (lazyAlloc newNode size s).2) := by
  have hlen : ∀ req : AllocRequest, req.toBytes.length = 16 := AllocRequest.length_toBytes
  have hstore : (user.store sp (List.replicate allocRequestLayout.sum 0)).store sp (encode 8 size)
      = user.store sp (AllocRequest.toBytes ⟨size, 0⟩) :=
    Space.store_overwrite user sp (encode 8 0) (encode 8 0) (by simp)
  have hblock : ∀ req : AllocRequest, (user.store sp req.toBytes).block sp 16 = req.toBytes :=
    fun req => by rw [← hlen req, Space.block_store]
  have hin : (user.store sp (AllocRequest.toBytes ⟨size, 0⟩)).read sp 16
      = some (AllocRequest.toBytes ⟨size, 0⟩) := by
    have h := hlen ⟨size, 0⟩
    rw [← h]
    exact Space.read_store (by rw [h]; exact hread)
  have hreq : AllocRequest.ofBytes (AllocRequest.toBytes ⟨size, 0⟩) = ⟨size, 0⟩ := by
    rw [AllocRequest.ofBytes_toBytes, Nat.mod_eq_of_lt hsize, Nat.zero_mod]
  have hcall : ioctlLazyAlloc newNode sp (user.store sp (AllocRequest.toBytes ⟨size, 0⟩)) s
      = answerLazyAlloc sp ⟨size, 0⟩ (user.store sp (AllocRequest.toBytes ⟨size, 0⟩))
        (lazyAlloc newNode size s) := by
    unfold ioctlLazyAlloc
    rw [show allocRequestLayout.sum = 16 from rfl, hin]
    dsimp only
    rw [hreq]
  have hreply : (answerLazyAlloc sp ⟨size, 0⟩ (user.store sp (AllocRequest.toBytes ⟨size, 0⟩))
      (lazyAlloc newNode size s)).user = user.store sp (AllocRequest.toBytes ⟨size, answer⟩) := by
    subst hanswer
    obtain ⟨_ | addr, s'⟩ := lazyAlloc newNode size s
    · rfl
    · -- the answer goes where the request was
      have hw : (user.store sp (AllocRequest.toBytes ⟨size, 0⟩)).Writable sp
          (AllocRequest.toBytes ⟨size, addr⟩).length := fun i hi => by
        rw [Space.writable_store]
        exact hwrite i (by rwa [hlen] at hi)
      have hcopy := Space.write_of_writable hw
      have hover := Space.store_overwrite user sp (AllocRequest.toBytes ⟨size, 0⟩) []
        ((hlen ⟨size, addr⟩).trans (hlen _).symm)
      rw [List.append_nil, List.append_nil] at hover
      exact (congrArg Prod.fst hcopy).trans hover
  have hrun : petmemIoctl env newNode LAZY_ALLOC sp (user.store sp (AllocRequest.toBytes ⟨size, 0⟩))
      s = .ok (ioctlLazyAlloc newNode sp (user.store sp (AllocRequest.toBytes ⟨size, 0⟩)) s) := rfl
  unfold petMalloc
  dsimp only
  rw [hstore, hrun, hcall]
  show Except.ok _ = Except.ok _
  rw [hreply, answerLazyAlloc_state, show allocRequestLayout.sum = 16 from rfl, hblock,
    AllocRequest.ofBytes_toBytes]

end Handler

/-! ## The level-4 entry -/

/-- The hardware follows the entry for an access of the process. -/
def admits (e : Pte64) (write : Bool) : Bool := e.userPage && (!write || e.writable)

section Rights

variable {env : Env} {s s' : State} {roots : Set ℕ} {Q : State → Prop} {r a f g ℓ : ℕ} {m : Mem}
  (write : Bool)

theorem admits_of_mask {e e' : Pte64} (h : e.mask = e'.mask) :
    admits e write = admits e' write := by
  have hw : e.mask.writable = e'.mask.writable := congrArg Pte64.writable h
  have hu : e.mask.userPage = e'.mask.userPage := congrArg Pte64.userPage h
  unfold admits
  rw [show e.writable = e'.writable from hw, show e.userPage = e'.userPage from hu]

theorem admits_of_open {e : Pte64} (h : Open e) : admits e write = true := by
  unfold admits
  rw [h.1, h.2]
  cases write <;> rfl

theorem Evicted.admits_top {v slot : ℕ} (h : Evicted roots r s s' v f g slot) :
    admits (topEntry s'.mem r) write = admits (topEntry s.mem r) write := by
  have hdepth : 0 ≤ 3 := by omega
  refine admits_of_mask write (h.pteAt_table start_mem_region hdepth rfl (by omega) ?_)
  rintro ⟨rfl, -⟩
  have := (h.before.separated r h.root r h.root petmemRegionStart start_mem_region v h.region 0
    (by omega) 3 (by omega) r rfl h.table).2.1
  omega

/-- A new table leaves the rights of the level-4 entry, also where it is the level-3 table. -/
theorem Grown.admits_top {src : ℕ → Byte} {e : Pte64} (h : Grown roots r a ℓ src s s' f g e)
    (he : ℓ = 0 → e = tableEntry (pteAt s.mem f (tableIndex a ℓ)) g) :
    admits (topEntry s'.mem r) write = admits (topEntry s.mem r) write := by
  have hroot := h.before.kept h.root h.region (show 0 ≤ 4 by omega) rfl
  unfold topEntry
  by_cases hℓ : ℓ = 0
  · subst hℓ
    have h0 := region_index_zero h.region
    obtain rfl : r = f := Option.some.inj h.table
    have hentry := h.entry
    rw [he rfl, h0] at hentry
    rw [hentry]
    rfl
  · rw [h.others r 0 hroot (by omega)]
    rintro ⟨rfl, -⟩
    have hd := h.depth
    have := (h.before.separated r h.root r h.root a h.region a h.region 0 (by omega) ℓ (by omega) r
      rfl h.table).2.1
    omega

theorem Pages.admits_top (h : Pages env roots Q a s s') :
    admits (topEntry s'.mem (rootFrame env.cr3)) write
      = admits (topEntry s.mem (rootFrame env.cr3)) write := by
  refine h.induct (P := fun s' => admits (topEntry s'.mem (rootFrame env.cr3)) write
      = admits (topEntry s.mem (rootFrame env.cr3)) write) rfl
    (fun s₁ s₂ v f g slot h1 _ he => (he.admits_top write).trans h1)
    fun s₁ s₂ ℓ f g e h1 _ hg he => ?_
  refine (hg.admits_top write fun hℓ => ?_).trans h1
  rw [he, if_pos hℓ]

/-- A fault that is served leaves the rights of the level-4 entry. -/
theorem Faulted.admits_top (h : Faulted env roots Q a s s') :
    admits (topEntry s'.mem (rootFrame env.cr3)) write
      = admits (topEntry s.mem (rootFrame env.cr3)) write := by
  cases h with
  | resident hp _ => exact hp.admits_top write
  | fresh hp _ hg =>
    exact (hg.admits_top write fun h => absurd h (by omega)).trans (hp.admits_top write)
  | swapIn hp _ _ _ _ he _ hg =>
    have heased := (Pages.of_eased (a := petmemRegionStart) he).admits_top write
    have hgrown := hg.admits_top write fun h => absurd h (by omega)
    exact hgrown.trans (heased.trans (hp.admits_top write))

/-- The level-4 entry of `a` is the one that all petmem addresses share. -/
theorem readPte_pml4Entry (ha : a ∈ Region) :
    readPte m (pml4Entry env a) = topEntry m (rootFrame env.cr3) := by
  rw [pml4Entry_eq ha, region_index_zero ha]
  rfl

theorem translate_of_walk {cr3 : ℕ} {w : Walk} (hw : walk m cr3 a = some w) :
    translate m cr3 a write
      = if admits (readPte m w.pml4e) write && admits (readPte m w.pdpe) write &&
          admits (readPte m w.pde) write && admits (readPte m w.pte) write then
        some (readPte m w.pte).base
      else none := by
  unfold translate
  rw [hw]
  rfl

/-- Where the level-4 entry does not admit an access the hardware does not. -/
theorem translate_eq_none {cr3 : ℕ} (ha : a ∈ Region)
    (h : admits (topEntry m (rootFrame cr3)) write = false) : translate m cr3 a write = none := by
  have h0 := region_index_zero ha
  cases h4 : tableNode m (rootFrame cr3) a 4 with
  | none =>
    unfold translate
    rw [walk_of_node_none h0 h4]
  | some g =>
    obtain ⟨f₁, f₂, f₃, h1, h2, h3⟩ := exists_tables h4
    have htop : admits (readPte m (frameVa (rootFrame cr3) (tableIndex a 0 * 8))) write
        = false := by
      rw [h0]
      exact h
    rw [translate_of_walk write (walk_of_node h0 h1 h2 h3 h4), htop]
    rfl

/-- On a path that is open below it, the level-4 entry decides. -/
theorem translate_eq_some {cr3 : ℕ} (ha : a ∈ Region) (hf : Flagged m (rootFrame cr3))
    (hg : tableNode m (rootFrame cr3) a 4 = some g)
    (h : admits (topEntry m (rootFrame cr3)) write = true) :
    ∃ c, translate m cr3 a write = some c := by
  have h0 := region_index_zero ha
  obtain ⟨f₁, f₂, f₃, h1, h2, h3⟩ := exists_tables hg
  have hopen : ∀ ℓ, 1 ≤ ℓ → ℓ ≤ 3 → ∀ c d, tableNode m (rootFrame cr3) a ℓ = some c →
      tableNode m (rootFrame cr3) a (ℓ + 1) = some d →
      admits (readPte m (frameVa c (tableIndex a ℓ * 8))) write = true :=
    fun ℓ hℓ hℓ' c d hc hd => admits_of_open write (hf a ha ℓ hℓ hℓ' c hc
      (child_eq_some.1 ((node_succ_of_eq hc).symm.trans hd)).1)
  have htop : admits (readPte m (frameVa (rootFrame cr3) (tableIndex a 0 * 8))) write = true := by
    rw [h0]
    exact h
  rw [translate_of_walk write (walk_of_node h0 h1 h2 h3 hg), htop,
    hopen 1 (by omega) (by omega) _ _ h1 h2, hopen 2 (by omega) (by omega) _ _ h2 h3,
    hopen 3 (by omega) (by omega) _ _ h3 hg]
  exact ⟨_, rfl⟩

/-- The handler passes over the tables that are there. -/
theorem stages_of_node {f : ℕ} (ha : a ∈ Region)
    (h3 : tableNode s.mem (rootFrame env.cr3) a 3 = some f) :
    pml4Stage env a s = .ok s ∧ tableStage env (pdpEntry env a s.mem) s = .ok s ∧
      tableStage env (pdEntry env a s.mem) s = .ok s ∧
      ptEntry env a s.mem = frameVa f (tableIndex a 3 * 8) := by
  obtain ⟨f₁, h1⟩ := exists_node_of_le h3 (show 1 ≤ 3 by omega)
  obtain ⟨f₂, h2⟩ := exists_node_of_le h3 (show 2 ≤ 3 by omega)
  have hpres : ∀ ℓ c d, tableNode s.mem (rootFrame env.cr3) a ℓ = some c →
      tableNode s.mem (rootFrame env.cr3) a (ℓ + 1) = some d →
      (readPte s.mem (frameVa c (tableIndex a ℓ * 8))).present = true := fun ℓ c d hc hd =>
    (child_eq_some.1 ((node_succ_of_eq hc).symm.trans hd)).1
  refine ⟨?_, ?_, ?_, ptEntry_eq ha h1 h2 h3⟩
  · have hp := hpres 0 _ _ rfl h1
    rw [← pml4Entry_eq ha] at hp
    simp [pml4Stage, hp]
  · rw [pdpEntry_eq ha h1]
    simp [tableStage, hpres 1 _ _ h1 h2]
  · rw [pdEntry_eq ha h1 h2]
    simp [tableStage, hpres 2 _ _ h2 h3]

/-- The handler has nothing to do for a page that is mapped. -/
theorem petmemHandlePagefault_of_mapped {code : ℕ} (hl : Partition s.map.memoryAllocations)
    (hcov : Covered s.map.memoryAllocations a) (hcode : code ≠ errorPermission)
    (hg : tableNode s.mem (rootFrame env.cr3) a 4 = some g) :
    petmemHandlePagefault env a code s = .ok (0, s) := by
  have hrange := (checkAddressRange_iff hl a).2 hcov
  have ha := mem_region_of_range hl hrange
  obtain ⟨f, h3⟩ := exists_node_of_le hg (show 3 ≤ 4 by omega)
  obtain ⟨hpml4, hpdp, hpd, hpte⟩ := stages_of_node ha h3
  have hpt : pteStage env (ptEntry env a s.mem) s = .ok s := by
    have hp : (readPte s.mem (frameVa f (tableIndex a 3 * 8))).present = true :=
      (child_eq_some.1 ((node_succ_of_eq h3).symm.trans hg)).1
    rw [hpte]
    simp [pteStage, hp]
  unfold petmemHandlePagefault
  rw [if_neg (by simp [hrange, hcode])]
  refine bind_eq_ok.2 ⟨s, hpml4, bind_eq_ok.2 ⟨s, hpdp, bind_eq_ok.2 ⟨s, hpd, ?_⟩⟩⟩
  exact bind_eq_ok.2 ⟨s, hpt, rfl⟩

end Rights

/-! ## What an access comes to -/

section Access

open Retry

variable {env : Env} {newNode sp a : ℕ} {write : Bool} {user : Space} {s s' : State}
  {roots : Set ℕ} {Q : State → Prop} {k : Kern} {node : ℕ} {es : List Event}

/-- The cases of an access to the petmem region: the page can be used, the fault is refused, the
handler does not return, the fault is served and the page can be used, or it is served in vain. -/
inductive AccessCase (env : Env) (a : ℕ) (write : Bool) (s : State) : Prop
  | admitted {f : ℕ} : translate s.mem env.cr3 a write = some f →
      admits (topEntry s.mem (rootFrame env.cr3)) write = true →
      userAccess env a write s = .ok (f, { s with mem := markAccess s.mem env.cr3 a write }) →
      AccessCase env a write s
  | refused : translate s.mem env.cr3 a write = none → ¬ Covered s.map.memoryAllocations a →
      petmemHandlePagefault env a SEGV_MAPERR s = .ok (-1, s) →
      userAccess env a write s = .error .segv → AccessCase env a write s
  | stops {e : Stop} : translate s.mem env.cr3 a write = none →
      Covered s.map.memoryAllocations a → petmemHandlePagefault env a SEGV_MAPERR s = .error e →
      userAccess env a write s = .error e → AccessCase env a write s
  | served {f : ℕ} {s' : State} : translate s.mem env.cr3 a write = none →
      Covered s.map.memoryAllocations a → admits (topEntry s.mem (rootFrame env.cr3)) write = true →
      petmemHandlePagefault env a SEGV_MAPERR s = .ok (0, s') →
      translate s'.mem env.cr3 a write = some f →
      userAccess env a write s = .ok (f, { s' with mem := markAccess s'.mem env.cr3 a write }) →
      AccessCase env a write s
  | inVain {s' : State} : translate s.mem env.cr3 a write = none →
      Covered s.map.memoryAllocations a →
      admits (topEntry s.mem (rootFrame env.cr3)) write = false →
      petmemHandlePagefault env a SEGV_MAPERR s = .ok (0, s') →
      translate s'.mem env.cr3 a write = none →
      petmemHandlePagefault env a SEGV_MAPERR s' = .ok (0, s') →
      userAccess env a write s = .error .segv → AccessCase env a write s

/-- A fault in a region in use is not refused. -/
theorem ret_of_covered {code : ℕ} {ret : ℤ} (hl : Partition s.map.memoryAllocations)
    (hcov : Covered s.map.memoryAllocations a) (hcode : code ≠ errorPermission)
    (h : petmemHandlePagefault env a code s = .ok (ret, s')) : ret = 0 := by
  rcases petmemHandlePagefault_cases h with ⟨-, hrange | hcode'⟩ | hret
  · rw [(checkAddressRange_iff hl a).2 hcov] at hrange
    cases hrange
  · exact absurd hcode' hcode
  · exact hret

theorem userAccess_of_mapped (write : Bool) (hm : getValidPageEntry s.mem env.cr3 a ≠ 0) :
    userAccess env a write s = match translate s.mem env.cr3 a write with
      | none => .error .segv
      | some f => .ok (f, { s with mem := markAccess s.mem env.cr3 a write }) := by
  unfold userAccess faultIn
  rw [if_neg hm]
  rfl

theorem userAccess_of_served (write : Bool) (hm : getValidPageEntry s.mem env.cr3 a = 0)
    (h : petmemHandlePagefault env a SEGV_MAPERR s = .ok (0, s')) :
    userAccess env a write s = match translate s'.mem env.cr3 a write with
      | none => .error .segv
      | some f => .ok (f, { s' with mem := markAccess s'.mem env.cr3 a write }) := by
  unfold userAccess faultIn
  rw [if_pos hm, show petmemHandlePagefault env a 1 s = .ok (0, s') from h]
  rfl

theorem access_cases (write : Bool) (h : Ready env roots Q s)
    (hf : Flagged s.mem (rootFrame env.cr3)) (ha : a ∈ Region)
    (hQ : ∀ s', RunsOut env a s s' → Q s') : AccessCase env a write s := by
  have hcode : SEGV_MAPERR ≠ errorPermission := by decide
  have hvalid := getValidPageEntry_cases h.owned h.root ha
  by_cases hcov : Covered s.map.memoryAllocations a
  · rcases hvalid with ⟨hz, hnone⟩ | ⟨f, g, hva, hne, -, h4⟩
    · -- a page that is not mapped
      have htr : translate s.mem env.cr3 a write = none := by
        unfold translate
        rw [walk_of_node_none (region_index_zero ha) hnone]
      cases hrun : petmemHandlePagefault env a SEGV_MAPERR s with
      | error e =>
        refine .stops htr hcov hrun ?_
        unfold userAccess faultIn
        rw [if_pos hz, show petmemHandlePagefault env a 1 s = .error e from hrun]
        rfl
      | ok res =>
        obtain ⟨ret, s'⟩ := res
        rcases petmemHandlePagefault_spec h (fun _ => hQ) hrun with ⟨rfl, -⟩ | ⟨rfl, -, -, hft⟩
        · exact absurd (ret_of_covered h.list hcov hcode hrun) (by decide)
        · have hacc := userAccess_of_served write hz hrun
          obtain ⟨hf', -, g, hg⟩ := hft.flagged hf
          have htop := hft.admits_top write
          have hl' := (hft.ready h).list
          have hcov' : Covered s'.map.memoryAllocations a := by
            rw [petmemHandlePagefault_list hrun]
            exact hcov
          cases hadm : admits (topEntry s.mem (rootFrame env.cr3)) write with
          | true =>
            obtain ⟨c, hc⟩ := translate_eq_some write ha hf' hg (htop.trans hadm)
            rw [hc] at hacc
            exact .served htr hcov hadm hrun hc hacc
          | false =>
            have hc := translate_eq_none write ha (htop.trans hadm)
            rw [hc] at hacc
            exact .inVain htr hcov hadm hrun hc
              (petmemHandlePagefault_of_mapped hl' hcov' hcode hg) hacc
    · -- a page that is mapped
      have hacc := userAccess_of_mapped write (hva.symm ▸ hne)
      cases hadm : admits (topEntry s.mem (rootFrame env.cr3)) write with
      | true =>
        obtain ⟨c, hc⟩ := translate_eq_some write ha hf h4 hadm
        rw [hc] at hacc
        exact .admitted hc hadm hacc
      | false =>
        have hc := translate_eq_none write ha hadm
        have hrun := petmemHandlePagefault_of_mapped h.list hcov hcode h4
        rw [hc] at hacc
        exact .inVain hc hcov hadm hrun hc hrun hacc
  · have hrun : petmemHandlePagefault env a SEGV_MAPERR s = .ok (-1, s) :=
      petmemHandlePagefault_refuses h.list (.inl hcov)
    cases htr : translate s.mem env.cr3 a write with
    | some c =>
      have hadm : admits (topEntry s.mem (rootFrame env.cr3)) write = true := by
        by_contra hno
        rw [translate_eq_none write ha (Bool.eq_false_iff.2 hno)] at htr
        cases htr
      have hm : getValidPageEntry s.mem env.cr3 a ≠ 0 := by
        rcases hvalid with ⟨-, hnone⟩ | ⟨f, g, hva, hne, -⟩
        · unfold translate at htr
          rw [walk_of_node_none (region_index_zero ha) hnone] at htr
          cases htr
        · exact hva.symm ▸ hne
      have hacc := userAccess_of_mapped write hm
      rw [htr] at hacc
      exact .admitted htr hadm hacc
    | none =>
      refine .refused htr hcov hrun ?_
      by_cases hm : getValidPageEntry s.mem env.cr3 a = 0
      · unfold userAccess faultIn
        rw [if_pos hm, show petmemHandlePagefault env a 1 s = .ok (-1, s) from hrun]
        rfl
      · rw [userAccess_of_mapped write hm, htr]

theorem attempt_of_admitted (newNode sp : ℕ) (user : Space) {f : ℕ}
    (h : translate s.mem env.cr3 a write = some f) :
    accessAttempt env newNode sp a write (user, s)
      = .inl (.ok (.frame f, user, { s with mem := markAccess s.mem env.cr3 a write })) := by
  unfold accessAttempt
  rw [h]

theorem attempt_of_fault (newNode : ℕ) (ha : a < 2 ^ 64) (hrec : user.Readable sp 12)
    (h : translate s.mem env.cr3 a write = none) :
    accessAttempt env newNode sp a write (user, s)
      = match petmemHandlePagefault env a SEGV_MAPERR s with
        | .error e => .inl (.error e)
        | .ok (ret, s') =>
          if ret = 0 then .inr (faultRecord user sp a, s')
          else .inl (.ok (.killed, faultRecord user sp a, s')) := by
  unfold accessAttempt
  dsimp only
  rw [h]
  dsimp only
  rw [segvHandler_eq ha hrec]
  cases petmemHandlePagefault env a SEGV_MAPERR s with
  | error e => rfl
  | ok res =>
    obtain ⟨ret, s'⟩ := res
    by_cases hret : ret = 0
    · subst hret
      rfl
    · have hkill : decide (ret ≠ 0) = true := decide_eq_true hret
      dsimp only [Except.map]
      rw [if_neg hret, hkill]

/-- The result of an access that comes to an end. -/
inductive Verdict (env : Env) (sp a : ℕ) (write : Bool) (user : Space) (s : State) :
    Except Stop (Outcome × Space × State) → Prop
  | frame {f : ℕ} {user' : Space} {s' : State} : userAccess env a write s = .ok (f, s') →
      user' = user ∨ user' = faultRecord user sp a →
      (translate s.mem env.cr3 a write = none → Covered s.map.memoryAllocations a ∧
        ∃ s', petmemHandlePagefault env a SEGV_MAPERR s = .ok (0, s')) →
      Verdict env sp a write user s (.ok (.frame f, user', s'))
  | killed : translate s.mem env.cr3 a write = none → ¬ Covered s.map.memoryAllocations a →
      userAccess env a write s = .error .segv →
      Verdict env sp a write user s (.ok (.killed, faultRecord user sp a, s))
  | stopped {e : Stop} : translate s.mem env.cr3 a write = none →
      Covered s.map.memoryAllocations a → petmemHandlePagefault env a SEGV_MAPERR s = .error e →
      userAccess env a write s = .error e → Verdict env sp a write user s (.error e)

/-- The fault is served, and the level-4 entry admits the access all the same not. -/
def InVain (env : Env) (a : ℕ) (write : Bool) (s : State) : Prop :=
  Covered s.map.memoryAllocations a ∧
    admits (topEntry s.mem (rootFrame env.cr3)) write = false ∧
    ∃ s', petmemHandlePagefault env a SEGV_MAPERR s = .ok (0, s')

/-- The attempts at an access end after the second, or never. -/
theorem access_settles (newNode : ℕ) (ha : a < 2 ^ 64) (hrec : user.Readable sp 12)
    (hcase : AccessCase env a write s) :
    (∃ r, (∀ r', Ends (accessAttempt env newNode sp a write) (user, s) r' ↔ r' = r) ∧
      loop (accessAttempt env newNode sp a write) 2 (user, s) = some r ∧
      Verdict env sp a write user s r ∧ ¬ InVain env a write s) ∨
    (Diverges (accessAttempt env newNode sp a write) (user, s) ∧
      userAccess env a write s = .error .segv ∧ InVain env a write s) := by
  cases hcase with
  | admitted htr hadm hacc =>
    have hatt := attempt_of_admitted newNode sp user htr
    have hverdict : Verdict env sp a write user s _ := .frame hacc (.inl rfl) fun hnone => by
      rw [htr] at hnone
      cases hnone
    exact .inl ⟨_, fun _ => ends_iff_of_inl hatt, loop_of_inl hatt 1, hverdict,
      fun hv => absurd (hadm.symm.trans hv.2.1) (by decide)⟩
  | refused htr hcov hrun hacc =>
    have hatt := attempt_of_fault newNode ha hrec htr
    rw [hrun] at hatt
    exact .inl ⟨_, fun _ => ends_iff_of_inl hatt, loop_of_inl hatt 1, .killed htr hcov hacc,
      fun hv => hcov hv.1⟩
  | @stops e htr hcov hrun hacc =>
    have hatt := attempt_of_fault newNode ha hrec htr
    rw [hrun] at hatt
    refine .inl ⟨_, fun _ => ends_iff_of_inl hatt, loop_of_inl hatt 1,
      .stopped htr hcov hrun hacc, fun hv => ?_⟩
    obtain ⟨-, -, s', hs'⟩ := hv
    rw [hrun] at hs'
    cases hs'
  | @served f s' htr hcov hadm hrun htr' hacc =>
    have hatt := attempt_of_fault newNode ha hrec htr
    rw [hrun] at hatt
    have hatt' := attempt_of_admitted newNode sp (faultRecord user sp a) htr'
    exact .inl ⟨_, fun _ => (ends_iff_of_inr hatt).trans (ends_iff_of_inl hatt'),
      (loop_of_inr hatt 1).trans (loop_of_inl hatt' 0),
      .frame hacc (.inr rfl) fun _ => ⟨hcov, s', hrun⟩,
      fun hv => absurd (hadm.symm.trans hv.2.1) (by decide)⟩
  | @inVain s' htr hcov hadm hrun htr' hrun' hacc =>
    have hatt := attempt_of_fault newNode ha hrec htr
    rw [hrun] at hatt
    refine .inr ⟨?_, hacc, hcov, hadm, s', hrun⟩
    -- from here on each attempt leaves the state as it is
    rw [diverges_iff_of_inr hatt]
    refine diverges_of_invariant
      (I := fun p : Space × State => p.1.Readable sp 12 ∧ p.2 = s') (fun p hp => ?_)
      ⟨faultRecord_readable hrec, rfl⟩
    obtain ⟨user', s''⟩ := p
    obtain ⟨hrec', rfl⟩ := hp
    have hatt' := attempt_of_fault newNode ha hrec' htr'
    rw [hrun'] at hatt'
    exact ⟨_, hatt', faultRecord_readable hrec', rfl⟩

section Verdict

variable {r : Except Stop (Outcome × Space × State)} (h : Verdict env sp a write user s r)

include h

theorem verdict_frame_iff {f : ℕ} :
    (∃ user', .ok (.frame f, user', s') = r) ↔ userAccess env a write s = .ok (f, s') := by
  cases h with
  | @frame f' user' s'' hacc _ _ =>
    rw [hacc]
    constructor
    · rintro ⟨user', heq⟩
      cases heq
      rfl
    · intro heq
      cases heq
      exact ⟨user', rfl⟩
  | killed _ _ hacc =>
    rw [hacc]
    exact iff_of_false (fun ⟨_, heq⟩ => by cases heq) (by simp)
  | stopped _ _ _ hacc =>
    rw [hacc]
    exact iff_of_false (fun ⟨_, heq⟩ => by cases heq) (by simp)

theorem verdict_killed_iff {user' : Space} : .ok (.killed, user', s') = r ↔
    translate s.mem env.cr3 a write = none ∧ ¬ Covered s.map.memoryAllocations a ∧
      user' = faultRecord user sp a ∧ s' = s := by
  cases h with
  | frame _ _ hfault =>
    exact iff_of_false (fun heq => by cases heq) fun hk => hk.2.1 (hfault hk.1).1
  | killed htr hcov _ =>
    constructor
    · intro heq
      cases heq
      exact ⟨htr, hcov, rfl, rfl⟩
    · rintro ⟨-, -, rfl, rfl⟩
      rfl
  | stopped _ hcov _ _ => exact iff_of_false (fun heq => by cases heq) fun hk => hk.2.1 hcov

theorem verdict_stopped_iff {e : Stop} : .error e = r ↔
    translate s.mem env.cr3 a write = none ∧ Covered s.map.memoryAllocations a ∧
      petmemHandlePagefault env a SEGV_MAPERR s = .error e := by
  cases h with
  | frame _ _ hfault =>
    refine iff_of_false (fun heq => by cases heq) fun he => ?_
    obtain ⟨-, s', hs'⟩ := hfault he.1
    cases hs'.symm.trans he.2.2
  | killed _ hcov _ => exact iff_of_false (fun heq => by cases heq) fun he => hcov he.2.1
  | stopped htr hcov hrun _ =>
    rw [hrun]
    constructor
    · intro heq
      cases heq
      exact ⟨htr, hcov, rfl⟩
    · rintro ⟨-, -, heq⟩
      cases heq
      rfl

end Verdict

/-- What the record leaves alone. -/
theorem byte_of_verdict {outcome : Outcome} {user' : Space}
    (h : Verdict env sp a write user s (.ok (outcome, user', s'))) {x : ℕ}
    (hx : user'.byte x ≠ user.byte x) : sp ≤ x ∧ x < sp + 12 := by
  have hrecord : user' = user ∨ user' = faultRecord user sp a := by
    cases h with
    | frame _ huser _ => exact huser
    | killed => exact .inr rfl
  rcases hrecord with rfl | rfl
  · exact absurd rfl hx
  · by_contra hout
    refine hx (Space.byte_store_of_notMem ?_)
    rw [PageFault.length_toBytes, show pageFaultLayout.sum = 12 from rfl]
    omega

/-- **When an access comes to an end.** In every reachable state the attempts of a process at an
access to the petmem region end with the second one, or not at all. They end with a frame exactly
when the access is one operation that gives this frame; the process kills itself exactly when the
page is not accessible and in no region in use, which leaves the state; and the attempts go on for
ever exactly when the region is in use, the handler returns, and the level-4 entry does not admit
the access. Of its own memory the process changes the record alone. Frames run out, here and on the
way, only where the list head resolves to no present page. -/
theorem access_ends_iff (hs : Start env roots k) (hflags : Flagged k.mem (rootFrame env.cr3))
    (h : Run env (AtEvictions env fun s => HeadAbsent env s.mem) (initState k node) es s)
    (ha : a ∈ Region) (hQ : ∀ s', RunsOut env a s s' → HeadAbsent env s'.mem)
    (hrec : user.Readable sp 12) (newNode : ℕ) (write : Bool) :
    (∀ f s', (∃ user', Ends (accessAttempt env newNode sp a write) (user, s)
      (.ok (.frame f, user', s'))) ↔ userAccess env a write s = .ok (f, s')) ∧
    (∀ user' s', Ends (accessAttempt env newNode sp a write) (user, s) (.ok (.killed, user', s')) ↔
      translate s.mem env.cr3 a write = none ∧ ¬ Covered s.map.memoryAllocations a ∧
        user' = faultRecord user sp a ∧ s' = s) ∧
    (∀ e, Ends (accessAttempt env newNode sp a write) (user, s) (.error e) ↔
      translate s.mem env.cr3 a write = none ∧ Covered s.map.memoryAllocations a ∧
        petmemHandlePagefault env a SEGV_MAPERR s = .error e) ∧
    (Diverges (accessAttempt env newNode sp a write) (user, s) ↔
      Covered s.map.memoryAllocations a ∧ admits (readPte s.mem (pml4Entry env a)) write = false ∧
        ∃ s', petmemHandlePagefault env a SEGV_MAPERR s = .ok (0, s')) ∧
    ∀ r, Ends (accessAttempt env newNode sp a write) (user, s) r →
      loop (accessAttempt env newNode sp a write) 2 (user, s) = some r ∧
      ∀ outcome user' s', r = .ok (outcome, user', s') →
        ∀ x, user'.byte x ≠ user.byte x → sp ≤ x ∧ x < sp + 12 := by
  have ha64 : a < 2 ^ 64 := by
    have := ha.2
    unfold petmemRegionEnd at this
    omega
  obtain ⟨hr, hf⟩ := run_flagged hs hflags (fun _ hQ => hQ) (fun _ _ _ hok => hok) h
  rw [readPte_pml4Entry ha]
  rcases access_settles newNode ha64 hrec
    (access_cases write hr hf ha hQ) with
    ⟨r, hends, hloop, hv, hnv⟩ | ⟨hd, hacc, hv⟩
  · have hnd := not_diverges ((hends r).2 rfl)
    simp only [hends]
    refine ⟨fun _ _ => verdict_frame_iff hv, fun _ _ => verdict_killed_iff hv,
      fun _ => verdict_stopped_iff hv, iff_of_false hnd hnv, fun r' hr' => ?_⟩
    subst hr'
    refine ⟨hloop, fun outcome user' s' heq x hx => ?_⟩
    subst heq
    exact byte_of_verdict hv hx
  · have hno : ∀ r, ¬ Ends (accessAttempt env newNode sp a write) (user, s) r :=
      fun r hr => not_diverges hr hd
    refine ⟨fun f s' => ?_, fun user' s' => ?_, fun e => ?_, iff_of_true hd hv,
      fun r hr => absurd hr (hno r)⟩
    · rw [hacc]
      exact iff_of_false (fun ⟨_, hr⟩ => hno _ hr) (by simp)
    · exact iff_of_false (hno _) fun hk => hk.2.1 hv.1
    · refine iff_of_false (hno _) fun he => ?_
      obtain ⟨s', hs'⟩ := hv.2.2
      rw [hs'] at he
      cases he.2.2

/-- The first touch of a page: under a level-4 entry that is open it ends with a frame, and under an
empty one it does not end. -/
theorem access_ends_iff_of_one_page :
    (∃ es s f user' s', Run smallEnv (AtEvictions smallEnv fun s => HeadAbsent smallEnv s.mem)
        (initState (smallKern (eightSlots 0)) 1) es s ∧
      Ends (accessAttempt smallEnv 0 0x7000 0x1000000000 true) (smallUser, s)
        (.ok (.frame f, user', s'))) ∧
    ∃ es s, Run smallEnv (AtEvictions smallEnv fun s => HeadAbsent smallEnv s.mem)
        (initState (bareKern (eightSlots 0)) 1) es s ∧
      Diverges (accessAttempt smallEnv 0 0x7000 0x1000000000 true) (smallUser, s) := by
  have hregion : (0x1000000000 : ℕ) ∈ Region := by
    constructor <;> decide
  constructor
  · have hres : (replayCalm smallEnv [.alloc 2 1]
        ([], initState (smallKern (eightSlots 0)) 1)).map (fun r =>
          (calm smallEnv r.2 (.fault 0x1000000000 1),
            (userAccess smallEnv 0x1000000000 true r.2).toOption.isSome)) = some (true, true) := by
      decide +kernel
    obtain ⟨⟨es, s⟩, hreplay, heq⟩ := Option.map_eq_some_iff.1 hres
    obtain ⟨hcalm, hacc⟩ := Prod.mk.inj heq
    obtain ⟨⟨f, s'⟩, hacc⟩ := Option.isSome_iff_exists.1 hacc
    obtain ⟨hstart, hnone⟩ := smallKern_unmapped (eightSlots 0)
    have hroot : rootFrame smallEnv.cr3 = 1 := by decide
    have hflags : Flagged (smallKern (eightSlots 0)).mem (rootFrame smallEnv.cr3) := by
      rw [hroot]
      exact flagged_of_unmapped fun a ha => hnone a (.inl ha)
    have hreach := run_of_replayCalm (Q := fun s => HeadAbsent smallEnv s.mem) _ .start hreplay
    obtain ⟨user', hends⟩ := ((access_ends_iff hstart hflags hreach hregion
      (fun s' hout => absurd hout (not_runsOut hcalm)) (smallUser_readable 0x7000 12) 0 true).1 f
      s').2 (ok_of_toOption hacc)
    exact ⟨es, s, f, user', s', hreach, hends⟩
  · have hres : (replayCalm smallEnv [.alloc 2 1]
        ([], initState (bareKern (eightSlots 0)) 1)).map (fun r =>
          (calm smallEnv r.2 (.fault 0x1000000000 1),
            checkAddressRange r.2.map.memoryAllocations 0x1000000000,
            admits (readPte r.2.mem (pml4Entry smallEnv 0x1000000000)) true,
            (petmemHandlePagefault smallEnv 0x1000000000 1 r.2).toOption.map Prod.fst))
        = some (true, true, false, some 0) := by
      decide +kernel
    obtain ⟨⟨es, s⟩, hreplay, heq⟩ := Option.map_eq_some_iff.1 hres
    obtain ⟨hcalm, heq⟩ := Prod.mk.inj heq
    obtain ⟨hcov, heq⟩ := Prod.mk.inj heq
    obtain ⟨hadm, hret⟩ := Prod.mk.inj heq
    obtain ⟨⟨ret, s'⟩, hrun, rfl⟩ := Option.map_eq_some_iff.1 hret
    obtain ⟨hstart, hflags⟩ := bareKern_unmapped (eightSlots 0)
    have hreach := run_of_replayCalm (Q := fun s => HeadAbsent smallEnv s.mem) _ .start hreplay
    have hcov' := (checkAddressRange_iff (run_partition hreach) _).1 hcov
    have hdiv := (access_ends_iff hstart hflags hreach hregion
      (fun s' hout => absurd hout (not_runsOut hcalm)) (smallUser_readable 0x7000 12) 0
      true).2.2.2.1.2 ⟨hcov', hadm, s', ok_of_toOption hrun⟩
    exact ⟨es, s, hreach, hdiv⟩

end Access

end OnDemand

end Petmem
