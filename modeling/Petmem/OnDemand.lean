import Petmem.PageTable
import Petmem.Pools
import Petmem.RegionTheorems

/-!
# Demand paging (`on_demand.c`)

The page-fault handler with its eviction path, `LAZY_ALLOC` and `LAZY_FREE`, and the start
and end of a process, over the shared state `Kern` and the process's own `mem_map`. The
hardware's part is at the end: an access of the process translates its address through the
page table, sets the accessed and dirty bits of the last entry, and enters the handler when
the page is not present.

The handler runs in four stages, one for each level of the page table; `Asks` names the
states in which it turns to `petmem_alloc_pages`.
-/

namespace Petmem

open ByteMemory Swap Pools Regions

/-- `struct mem_map`. The clock hand is the address of a node, or `none` for the list
head. -/
structure MemMap where
  memoryAllocations : List VaddrReg
  clockHand : Option ℕ
  swap : SwapSpace

/-- The shared state together with one process's map. -/
structure State extends Kern where
  map : MemMap

/-- What a request reads of its surroundings: the value of `cr3`, and the words in front of
the `mem_map`, which `list_entry` takes for a region when it is applied to the list head. -/
structure Env where
  cr3 : ℕ
  head : VaddrReg

namespace OnDemand

/-! ## Page replacement -/

/-- The nodes after the clock hand, in ring order, up to the hand itself; the list head
comes up as the region that `list_entry` makes of it. -/
def ringAfter (head : VaddrReg) (l : List VaddrReg) :
    Option ℕ → Option (List (Option ℕ × VaddrReg))
  | none => some (l.map fun r => (some r.node, r))
  | some hand =>
    match l.span (fun r => r.node ≠ hand) with
    -- the node of the hand was freed
    | (_, []) => none
    | (pre, _ :: post) =>
      some (post.map (fun r => (some r.node, r)) ++ (none, head) ::
        pre.map fun r => (some r.node, r))

/-- The page the clock chose: the address of its entry, the address of its memory, and the
node the clock hand moves to. -/
structure Victim where
  page : ℕ
  mem : ℕ
  next : Option ℕ

/-- `next` of `list_for_each_safe`: the node after the one that is visited. -/
def nextNode (hand : Option ℕ) : List (Option ℕ × VaddrReg) → Option ℕ
  | [] => hand
  | next :: _ => next.1

/-- One turn of the clock from `hand`: pages that were accessed get a second chance. -/
def clockScan (cr3 : ℕ) (hand : Option ℕ) :
    List (Option ℕ × VaddrReg) → Mem → Mem × Option Victim
  | [], m => (m, none)
  | (_, entry) :: rest, m =>
    let page := getValidPageEntry m cr3 entry.pageAddr
    if page ≠ 0 then
      let e := readPte m page
      if e.accessed then
        clockScan cr3 hand rest (writePte m page { e with accessed := false })
      else
        (m, some ⟨page, va (e.base <<< 12 + physicalOffset entry.pageAddr), nextNode hand rest⟩)
    else clockScan cr3 hand rest m

/-- `page_replacement_clock`. After one turn no page that is passed has its accessed bit
set, so a second turn without a victim means that there never is one. -/
def pageReplacementClock (env : Env) (s : State) : Except Stop (Victim × State) :=
  match ringAfter env.head s.map.memoryAllocations s.map.clockHand with
  | none => .error .danglingHand
  | some ring =>
    match clockScan env.cr3 s.map.clockHand ring s.mem with
    | (m, some v) => .ok (v, { s with mem := m, map := { s.map with clockHand := v.next } })
    | (m, none) =>
      -- the next turn of `while(1)`
      match clockScan env.cr3 s.map.clockHand ring m with
      | (m, some v) => .ok (v, { s with mem := m, map := { s.map with clockHand := v.next } })
      | (_, none) => .error .diverges

/-- `page->present = 0; page->dirty = 1`. -/
def markSwapped (m : Mem) (page : ℕ) : Mem :=
  writePte m page { readPte m page with present := false, dirty := true }

/-- `page->page_base_addr = base`. -/
def setBase (m : Mem) (page base : ℕ) : Mem :=
  writePte m page { readPte m page with pageBaseAddr := BitVec.ofNat 40 base }

/-- `clear_up_memory`. -/
def clearUpMemory (env : Env) (s : State) : Except Stop State := do
  let (v, s) ← pageReplacementClock env s
  let m := markSwapped s.mem v.page
  let (index, swap, file) ← swapOutPage 0 (fun i => m (v.mem + i)) s.map.swap s.file
  -- `page_base_addr` is overwritten last, when the frame is free already
  let k ← petmemFreePages (pa v.mem) 1 { s.toKern with mem := m, file := file }
  return { toKern := { k with mem := setBase k.mem v.page index }, map := { s.map with swap } }

/-! ## The page-fault handler -/

/-- How `handle_table_memory` and the swap-in path get a frame: the second call of
`petmem_alloc_pages`, after an eviction, is not checked. -/
def allocPage (env : Env) (s : State) : Except Stop (ℕ × State) := do
  let (memory, k) ← petmemAllocPages 1 s.toKern
  let s := { s with toKern := k }
  if memory = 0 then
    let s ← clearUpMemory env s
    let (memory, k) ← petmemAllocPages 1 s.toKern
    return (memory, { s with toKern := k })
  return (memory, s)

/-- `handle->present = 1; handle->page_base_addr = base`. -/
def setEntry (m : Mem) (handle base : ℕ) : Mem :=
  writePte m handle
    { readPte m handle with present := true, pageBaseAddr := BitVec.ofNat 40 base }

/-- `handle_table_memory`: a zeroed frame for the entry at `handle`. -/
def handleTableMemory (env : Env) (handle : ℕ) (s : State) : Except Stop State := do
  let (memory, s) ← allocPage env s
  let temp := va memory
  let m := memset s.mem temp 0 (512 * 8)
  return { s with mem := setEntry m handle (pa temp >>> 12) }

/-- The flags the handler sets on the entries below the top level. -/
def setFlags (m : Mem) (entry : ℕ) : Mem :=
  writePte m entry { readPte m entry with present := true, writable := true, userPage := true }

/-- The entry of a page that was swapped in. -/
def setSwappedIn (m : Mem) (pte base : ℕ) : Mem :=
  writePte m pte
    { readPte m pte with
      present := true, writable := true, userPage := true, dirty := false
      pageBaseAddr := BitVec.ofNat 40 base }

/-- The address of the level-4 entry of `address`. -/
def pml4Entry (env : Env) (address : ℕ) : ℕ := pml4eVa env.cr3 address

/-- The address of the level-3 entry, read through the level-4 entry. -/
def pdpEntry (env : Env) (address : ℕ) (m : Mem) : ℕ :=
  entryVa (readPte m (pml4Entry env address)) (pdpe64Index address)

/-- The address of the level-2 entry. -/
def pdEntry (env : Env) (address : ℕ) (m : Mem) : ℕ :=
  entryVa (readPte m (pdpEntry env address m)) (pde64Index address)

/-- The address of the last-level entry. -/
def ptEntry (env : Env) (address : ℕ) (m : Mem) : ℕ :=
  entryVa (readPte m (pdEntry env address m)) (pte64Index address)

/-- The handler at level 4: the new entry keeps its other flags. -/
def pml4Stage (env : Env) (address : ℕ) (s : State) : Except Stop State :=
  if !(readPte s.mem (pml4Entry env address)).present then
    handleTableMemory env (pml4Entry env address) s
  else .ok s

/-- The handler at level 3 or 2, for the entry at `entry`. -/
def tableStage (env : Env) (entry : ℕ) (s : State) : Except Stop State :=
  if !(readPte s.mem entry).present then do
    let s ← handleTableMemory env entry s
    return { s with mem := setFlags s.mem entry }
  else .ok s

/-- The page that was swapped out comes back. -/
def swapInStage (env : Env) (pte : ℕ) (page : ℕ → Byte) (s : State) : Except Stop State := do
  let (space, s) ← allocPage env s
  let space := va space
  let m := blit s.mem space page 4096
  return { s with mem := setSwappedIn m pte (pa space >>> 12) }

/-- The handler at the last level: a compulsory miss gets a zeroed page, an entry that is
marked dirty names the swap slot of its page. -/
def pteStage (env : Env) (pte : ℕ) (s : State) : Except Stop State :=
  let e := readPte s.mem pte
  if !e.present && !e.dirty then tableStage env pte s
  else if !e.present && e.dirty then do
    let (page, swap) ← swapInPage (e.base % 2 ^ 32) s.map.swap s.file
    swapInStage env pte page { s with map := { s.map with swap } }
  else .ok s

/-- `ERROR_PERMISSION`. -/
def errorPermission : ℕ := 2

/-- `petmem_handle_pagefault`; every `handle_table_memory` returns 0. -/
def petmemHandlePagefault (env : Env) (faultAddr errorCode : ℕ) (s : State) :
    Except Stop (ℤ × State) := do
  if !checkAddressRange s.map.memoryAllocations faultAddr || errorCode = errorPermission then
    return (-1, s)
  -- each entry is read through the one above it, as the stage before has left it
  let s ← pml4Stage env faultAddr s
  let s ← tableStage env (pdpEntry env faultAddr s.mem) s
  let s ← tableStage env (pdEntry env faultAddr s.mem) s
  let s ← pteStage env (ptEntry env faultAddr s.mem) s
  return (0, s)

/-- `Asks env a s s'`: the handler, entered for address `a` in state `s`, asks for a frame in
state `s'`. -/
inductive Asks (env : Env) (a : ℕ) (s : State) : State → Prop
  | pml4 : (readPte s.mem (pml4Entry env a)).present = false → Asks env a s s
  | pdp {s₁ : State} : pml4Stage env a s = .ok s₁ →
      (readPte s₁.mem (pdpEntry env a s₁.mem)).present = false → Asks env a s s₁
  | pd {s₁ s₂ : State} : pml4Stage env a s = .ok s₁ →
      tableStage env (pdpEntry env a s₁.mem) s₁ = .ok s₂ →
      (readPte s₂.mem (pdEntry env a s₂.mem)).present = false → Asks env a s s₂
  | page {s₁ s₂ s₃ : State} : pml4Stage env a s = .ok s₁ →
      tableStage env (pdpEntry env a s₁.mem) s₁ = .ok s₂ →
      tableStage env (pdEntry env a s₂.mem) s₂ = .ok s₃ →
      (readPte s₃.mem (ptEntry env a s₃.mem)).present = false →
      (readPte s₃.mem (ptEntry env a s₃.mem)).dirty = false → Asks env a s s₃
  | swapIn {s₁ s₂ s₃ : State} {page : ℕ → Byte} {swap : SwapSpace} :
      pml4Stage env a s = .ok s₁ → tableStage env (pdpEntry env a s₁.mem) s₁ = .ok s₂ →
      tableStage env (pdEntry env a s₂.mem) s₂ = .ok s₃ →
      (readPte s₃.mem (ptEntry env a s₃.mem)).present = false →
      (readPte s₃.mem (ptEntry env a s₃.mem)).dirty = true →
      swapInPage ((readPte s₃.mem (ptEntry env a s₃.mem)).base % 2 ^ 32) s₃.map.swap s₃.file
        = .ok (page, swap) →
      Asks env a s { s₃ with map := { s₃.map with swap } }

/-! ## `LAZY_ALLOC` and `LAZY_FREE` -/

/-- The entry of a page or table that is given up: `dirty` and `accessed` stay. -/
def clearEntry (m : Mem) (cur : ℕ) : Mem :=
  writePte m cur
    { readPte m cur with
      writable := false, userPage := false, present := false, pageBaseAddr := 0 }

/-- The loop of `attempt_free_physical_address` over the entries of the walk, last level
first, each with its table: an entry is cleared, and as long as that leaves its table
without present entries the table is given back and the entry above is cleared too. -/
def pruneEntries : List (ℕ × ℕ) → Kern → Except Stop Kern
  | [], k => .ok k
  | (cur, table) :: rest, k => do
    let k := { k with mem := clearEntry k.mem cur }
    if isEntirePageFree k.mem table then
      let k ← petmemFreePages table 1 k
      pruneEntries rest k
    -- a table with a present entry ends the walk up
    else return k

/-- `attempt_free_physical_address`. It passes kernel addresses to `petmem_free_pages`. -/
def attemptFreePhysicalAddress (cr3 address : ℕ) (k : Kern) : Except Stop Kern :=
  match walk k.mem cr3 address with
  | none => .ok k
  | some w => do
    let actualMem := va ((readPte k.mem w.pte).base <<< 12 + physicalOffset address)
    let tables := [(w.pte, entryVa (readPte k.mem w.pde) 0),
      (w.pde, entryVa (readPte k.mem w.pdpe) 0), (w.pdpe, entryVa (readPte k.mem w.pml4e) 0),
      (w.pml4e, cr3ToPml4e64Va cr3)]
    let k ← petmemFreePages actualMem 1 k
    pruneEntries tables k

/-- The address of page `i` of a region; `i * 4096` is an `int`. -/
def pageOf (pageAddr i : ℕ) : ℕ := (pageAddr + sext32 (i * 4096)) % 2 ^ 64

/-- The loop of `free_address` and `petmem_deinit_process` over the pages of a region. -/
def freeRange (cr3 pageAddr : ℕ) : List ℕ → Kern → Except Stop Kern
  | [], k => .ok k
  | i :: rest, k => do
    let k ← attemptFreePhysicalAddress cr3 (pageOf pageAddr i) k
    freeRange cr3 pageAddr rest k

/-- `free_address`. -/
def freeAddress (env : Env) (page : ℕ) (s : State) : Except Stop State :=
  match findRegion page [] s.map.memoryAllocations none with
  | none => .ok s
  | some p => do
    -- the pages go before the merges change the size of `found`
    let k ← freeRange env.cr3 p.found.pageAddr (List.range p.found.size) s.toKern
    let l ← coalesce env.head page p
    return { toKern := k, map := { s.map with memoryAllocations := l } }

/-- `petmem_free_vspace`. -/
def petmemFreeVspace (env : Env) (vaddr : ℕ) (s : State) : Except Stop State :=
  freeAddress env vaddr s

/-- `petmem_alloc_vspace`: the address of the new region (or -1), and the state. -/
def petmemAllocVspace (newNode numPages : ℕ) (s : State) : ℕ × State :=
  let r := allocate newNode numPages s.map.memoryAllocations
  (r.2, { s with map := { s.map with memoryAllocations := r.1 } })

/-! ## Start and end of a process -/

/-- `petmem_init_process`, with the address of the first node. -/
def petmemInitProcess (node : ℕ) (file : SwapFile) : MemMap where
  memoryAllocations := initRegions node
  clockHand := none
  swap := swapInit file

/-- The loop of `petmem_deinit_process` over the regions. -/
def deinitRegions (cr3 : ℕ) : List VaddrReg → Kern → Except Stop Kern
  | [], k => .ok k
  | entry :: rest, k => do
    let k ← freeRange cr3 entry.pageAddr (List.range entry.size) k
    deinitRegions cr3 rest k

/-- `petmem_deinit_process`: what is left of the state when the map is gone. -/
def petmemDeinitProcess (cr3 : ℕ) (s : State) : Except Stop Kern :=
  deinitRegions cr3 s.map.memoryAllocations s.toKern

/-! ## Accesses of the process -/

/-- The hardware's translation: the frame of `a`, when all four entries are present and
allow the access. -/
def translate (m : Mem) (cr3 a : ℕ) (write : Bool) : Option ℕ :=
  match walk m cr3 a with
  | none => none
  | some w =>
    let allows (e : Pte64) : Bool := e.userPage && (!write || e.writable)
    if allows (readPte m w.pml4e) && allows (readPte m w.pdpe) && allows (readPte m w.pde) &&
        allows (readPte m w.pte) then
      some (readPte m w.pte).base
    else none

/-- What the hardware leaves in the last entry of a page that is accessed. -/
def markAccess (m : Mem) (cr3 a : ℕ) (write : Bool) : Mem :=
  let pte := getValidPageEntry m cr3 a
  writePte m pte
    { readPte m pte with accessed := true, dirty := (readPte m pte).dirty || write }

/-- The page fault of an access to a page that is not present; when the handler refuses it the
process is killed. -/
def faultIn (env : Env) (a : ℕ) (s : State) : Except Stop State :=
  if getValidPageEntry s.mem env.cr3 a = 0 then do
    -- the signal handler of the process reports `SEGV_MAPERR`
    let (ret, s) ← petmemHandlePagefault env a 1 s
    if ret = 0 then .ok s else .error .segv
  else .ok s

/-- An access: the frame of the page, after a page fault where the page is not present. An
access that is refused all the same kills the process. -/
def userAccess (env : Env) (a : ℕ) (write : Bool) (s : State) : Except Stop (ℕ × State) := do
  let s ← faultIn env a s
  match translate s.mem env.cr3 a write with
  | none => .error .segv
  | some f => .ok (f, { s with mem := markAccess s.mem env.cr3 a write })

/-- The process reads the byte at `a`. -/
def userRead (env : Env) (a : ℕ) (s : State) : Except Stop (Byte × State) := do
  let (f, s) ← userAccess env a false s
  return (s.mem (frameVa f (a % 4096)), s)

/-- The process writes the byte `b` at `a`. -/
def userWrite (env : Env) (a : ℕ) (b : Byte) (s : State) : Except Stop State := do
  let (f, s) ← userAccess env a true s
  return { s with mem := Function.update s.mem (frameVa f (a % 4096)) b }

end OnDemand

end Petmem
