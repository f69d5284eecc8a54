import Petmem.Basic
import Mathlib.Logic.Function.Basic

/-!
# The buddy allocator (`buddy.c`)

A pool hands out blocks of `2^order` bytes from `[base_addr, base_addr + 2^pool_order)`.
The free list of each order is the list of its block addresses, first block first; the
`order` word each free block carries lives in the block's own memory, 16 bytes in, where
the block's owner can overwrite it once the block is handed out. The tag bits are one bit
for each block of `2^min_order` bytes.

Functions that the source leaves through `BUG_ON` stop with `Stop.bugOn`.
-/

namespace Petmem

open ByteMemory

/-- `struct buddy_mempool`. -/
structure BuddyMempool where
  baseAddr : ℕ
  poolOrder : ℕ
  minOrder : ℕ
  numBlocks : ℕ
  tagBits : ℕ → Bool
  avail : ℕ → List ℕ

namespace Buddy

/-- `sizeof(struct block)`: two link pointers and the order. -/
def sizeofBlock : ℕ := 24

/-- `block->order`. -/
def readOrder (m : Mem) (block : ℕ) : ℕ := (read64 m (block + 16)).toNat

/-- `block->order = order`. -/
def writeOrder (m : Mem) (block order : ℕ) : Mem :=
  write64 m (block + 16) (BitVec.ofNat 64 order)

/-- `block_to_id`. -/
def blockToId (mp : BuddyMempool) (block : ℕ) : Except Stop ℕ :=
  let blockId := sub64 block mp.baseAddr >>> mp.minOrder
  if blockId ≥ mp.numBlocks then .error .bugOn else .ok blockId

/-- `mark_available`. -/
def markAvailable (mp : BuddyMempool) (block : ℕ) : Except Stop BuddyMempool := do
  let id ← blockToId mp block
  return { mp with tagBits := Function.update mp.tagBits id true }

/-- `mark_allocated`. -/
def markAllocated (mp : BuddyMempool) (block : ℕ) : Except Stop BuddyMempool := do
  let id ← blockToId mp block
  return { mp with tagBits := Function.update mp.tagBits id false }

/-- `is_available`. -/
def isAvailable (mp : BuddyMempool) (block : ℕ) : Except Stop Bool := do
  let id ← blockToId mp block
  return mp.tagBits id

/-- `find_buddy`. -/
def findBuddy (mp : BuddyMempool) (block order : ℕ) : Except Stop ℕ :=
  if block < mp.baseAddr then .error .bugOn
  else .ok (((sub64 block mp.baseAddr ^^^ shl64 order) + mp.baseAddr) % 2 ^ 64)

/-- `list_add(&block->link, &mp->avail[order])`. -/
def listAdd (mp : BuddyMempool) (block order : ℕ) : BuddyMempool :=
  { mp with avail := Function.update mp.avail order (block :: mp.avail order) }

/-- `list_del(&block->link)`: the block leaves whichever free list it is on. -/
def listDel (mp : BuddyMempool) (block : ℕ) : Except Stop BuddyMempool :=
  if (List.range (mp.poolOrder + 1)).any (fun j => (mp.avail j).contains block) then
    -- a block is on one list at most, so the order need not be known
    .ok { mp with avail := fun j => (mp.avail j).erase block }
  else .error .listCorrupted

/-- `buddy_init`. -/
def buddyInit (baseAddr poolOrder minOrder : ℕ) : Option BuddyMempool :=
  -- smallest block size must be big enough to hold a block structure
  let minOrder := if shl64 minOrder < sizeofBlock then
    Nat.log2 (roundupPowOfTwo sizeofBlock) else minOrder
  if minOrder > poolOrder then none
  else some
    { baseAddr, poolOrder, minOrder
      numBlocks := shl64 poolOrder / shl64 minOrder
      tagBits := fun _ => false
      avail := fun _ => [] }

/-- The trim loop of `buddy_alloc`: `n` halvings bring a block of order `order + n` down to
`order`, each putting the upper half on its free list. -/
def allocTrim (block order : ℕ) : ℕ → Mem → BuddyMempool → Except Stop (Mem × BuddyMempool)
  | 0, m, mp => .ok (m, mp)
  | n + 1, m, mp => do
    let j := order + n
    let buddyBlock := (block + shl64 j) % 2 ^ 64
    let m := writeOrder m buddyBlock j
    let mp ← markAvailable mp buddyBlock
    allocTrim block order n m (listAdd mp buddyBlock j)

/-- The scan of `buddy_alloc` over the orders from `j` up, `n` orders being left. -/
def allocScan (order : ℕ) : ℕ → ℕ → Mem → BuddyMempool → Except Stop (ℕ × Mem × BuddyMempool)
  | 0, _, m, mp => .ok (0, m, mp)
  | n + 1, j, m, mp =>
    match mp.avail j with
    | [] => allocScan order n (j + 1) m mp
    | block :: rest => do
      let mp := { mp with avail := Function.update mp.avail j rest }
      let mp ← markAllocated mp block
      let (m, mp) ← allocTrim block order (j - order) m mp
      return (block, m, mp)

/-- `buddy_alloc`: the address of a block of `2^order` bytes, or 0 (`NULL`). -/
def buddyAlloc (m : Mem) (mp : BuddyMempool) (order : ℕ) :
    Except Stop (ℕ × Mem × BuddyMempool) :=
  if order > mp.poolOrder then .error .bugOn
  else
    let order := if order < mp.minOrder then mp.minOrder else order
    allocScan order (mp.poolOrder + 1 - order) order m mp

/-- The merge loop of `buddy_free`, `n` orders below the pool's order being left. -/
def freeMerge : ℕ → ℕ → ℕ → Mem → BuddyMempool → Except Stop (ℕ × ℕ × Mem × BuddyMempool)
  | 0, block, order, m, mp => .ok (block, order, m, mp)
  | n + 1, block, order, m, mp => do
    let buddy ← findBuddy mp block order
    -- make sure buddy is available and has the same size as us
    if !(← isAvailable mp buddy) then return (block, order, m, mp)
    if readOrder m buddy ≠ order then return (block, order, m, mp)
    let mp ← listDel mp buddy
    -- the merged block starts at the lower half
    let block := if buddy < block then buddy else block
    let m := writeOrder m block (order + 1)
    freeMerge n block (order + 1) m mp

/-- `buddy_free`. -/
def buddyFree (m : Mem) (mp : BuddyMempool) (addr order : ℕ) :
    Except Stop (Mem × BuddyMempool) := do
  if order > mp.poolOrder then throw .bugOn
  let order := if order < mp.minOrder then mp.minOrder else order
  -- a block that is free already
  if ← isAvailable mp addr then throw .bugOn
  let (block, order, m, mp) ← freeMerge (mp.poolOrder - order) addr order m mp
  let m := writeOrder m block order
  let mp ← markAvailable mp block
  return (m, listAdd mp block order)

/-- What `buddy_dump_mempool` prints: the orders of the pool, and the length of each free list. -/
structure MempoolDump where
  poolOrder : ℕ
  minOrder : ℕ
  numBlocks : List (ℕ × ℕ)
deriving DecidableEq, Repr

/-- `buddy_dump_mempool`. -/
def buddyDumpMempool (mp : BuddyMempool) : MempoolDump where
  poolOrder := mp.poolOrder
  minOrder := mp.minOrder
  numBlocks := (List.range' mp.minOrder (mp.poolOrder + 1 - mp.minOrder)).map fun i =>
    (i, (mp.avail i).length)

end Buddy

end Petmem
