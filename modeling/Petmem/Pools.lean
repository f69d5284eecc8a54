import Petmem.Buddy
import Petmem.Swap

/-!
# Page frames (`main.c`)

`petmem_alloc_pages` and `petmem_free_pages` over the list of buddy pools, and the
`ADD_MEMORY` request that makes pools of a physical range.

Beside the state of the module, `Kern` records which physical addresses are outstanding:
returned by `petmem_alloc_pages` and not since taken back by a pool. No function reads it.
-/

namespace Petmem

open ByteMemory

/-- The state all processes share: memory, `petmem_pool_list`, the swap file, and the
record of outstanding frames. -/
structure Kern where
  mem : Mem
  pools : List BuddyMempool
  file : SwapFile
  outstanding : List ℕ

namespace Pools

/-- `get_order`. -/
def getOrder (size : ℕ) : ℕ := fls (sub64 size 1 >>> pageShift)

/-- The loop of `petmem_alloc_pages`: the first pool that has a block. -/
def allocFrom (pageOrder : ℕ) :
    List BuddyMempool → Mem → Except Stop (ℕ × Mem × List BuddyMempool)
  | [], m => .ok (0, m, [])
  | tmpPool :: rest, m => do
    let (vaddr, m, tmpPool) ← Buddy.buddyAlloc m tmpPool pageOrder
    if vaddr ≠ 0 then return (vaddr, m, tmpPool :: rest)
    let (vaddr, m, rest) ← allocFrom pageOrder rest m
    return (vaddr, m, tmpPool :: rest)

/-- `petmem_alloc_pages`: a physical address, or 0. -/
def petmemAllocPages (numPages : ℕ) (k : Kern) : Except Stop (ℕ × Kern) := do
  let pageOrder := getOrder (numPages * pageSize % 2 ^ 64) + pageShift
  let (vaddr, mem, pools) ← allocFrom pageOrder k.pools k.mem
  let k := { k with mem, pools }
  if vaddr = 0 then return (0, k)
  return (pa vaddr, { k with outstanding := pa vaddr :: k.outstanding })

/-- The range test of `petmem_free_pages`; `0x1 << pool_order` is an `int`. -/
def inPool (pageVa : ℕ) (mp : BuddyMempool) : Bool :=
  pageVa ≥ mp.baseAddr ∧ pageVa < (mp.baseAddr + sext32 (2 ^ mp.poolOrder)) % 2 ^ 64

/-- The loop of `petmem_free_pages`, and whether a pool took the block. -/
def freeTo (pageVa pageOrder : ℕ) :
    List BuddyMempool → Mem → Except Stop (Bool × Mem × List BuddyMempool)
  | [], m => .ok (false, m, [])
  | tmpPool :: rest, m => do
    if inPool pageVa tmpPool then
      let (m, tmpPool) ← Buddy.buddyFree m tmpPool pageVa pageOrder
      return (true, m, tmpPool :: rest)
    let (taken, m, rest) ← freeTo pageVa pageOrder rest m
    return (taken, m, tmpPool :: rest)

/-- `petmem_free_pages`. -/
def petmemFreePages (pageAddr numPages : ℕ) (k : Kern) : Except Stop Kern := do
  let pageOrder := getOrder (numPages * pageSize % 2 ^ 64) + pageShift
  let pageVa := va pageAddr
  let (taken, mem, pools) ← freeTo pageVa pageOrder k.pools k.mem
  return { k with
    mem, pools
    outstanding := if taken then k.outstanding.erase pageAddr else k.outstanding }

/-- The loop of `ADD_MEMORY`: the largest power of two of the pages left becomes a pool,
`n` rounds at most. -/
def addPools : ℕ → ℕ → ℕ → Mem → List BuddyMempool → Except Stop (Mem × List BuddyMempool)
  | 0, _, _, m, pools => .ok (m, pools)
  | n + 1, baseAddr, numPages, m, pools => do
    let regOrder := fls numPages
    -- no page is left
    if regOrder = 0 then return (m, pools)
    match Buddy.buddyInit baseAddr (regOrder + pageShift - 1) pageShift with
    -- `buddy_init` refused the pool
    | none => return (m, pools)
    | some tmpPool =>
      let (m, tmpPool) ← Buddy.buddyFree m tmpPool baseAddr (regOrder + pageShift - 1)
      addPools n ((baseAddr + sext32 (2 ^ (regOrder - 1)) * pageSize) % 2 ^ 64)
        ((numPages + (2 ^ 32 - 2 ^ (regOrder - 1))) % 2 ^ 32) m (tmpPool :: pools)

/-- The `ADD_MEMORY` request; `num_pages` is a `u32`, so there are at most 32 rounds. -/
def addMemory (baseAddr pages : ℕ) (k : Kern) : Except Stop Kern := do
  let (mem, pools) ← addPools 32 (va baseAddr) (pages % 2 ^ 32) k.mem k.pools
  return { k with mem, pools }

end Pools

end Petmem
