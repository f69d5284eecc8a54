import Petmem.Basic

/-!
# The region list (`on_demand.c`: `allocate`, `free_address`, `check_address_range`)

A process's part of the petmem region is a list of `vaddr_reg` nodes in address order. The
kernel's circular list is the list of its nodes without the list head; a node is known by
its address, so that a pointer to it (the clock hand) can be followed or found dangling.

`free_address` reads the neighbours of the node it frees without asking whether a
neighbour is the list head. What it reads there are the words in front of the `mem_map`
(`head`), memory that belongs to no region.
-/

namespace Petmem

/-- `ALLOCATED`. -/
def ALLOCATED : ℕ := 0

/-- `FREE`. -/
def FREE : ℕ := 11

/-- `struct vaddr_reg`, with the address of its node. -/
structure VaddrReg where
  node : ℕ
  status : ℕ
  size : ℕ
  pageAddr : ℕ
deriving DecidableEq, Repr

namespace Regions

/-- The return value -1 of `allocate`. -/
def noRegion : ℕ := 2 ^ 64 - 1

/-- `allocate`: the first `FREE` region that is large enough becomes `ALLOCATED`; what is
left of it becomes a new node, for which `kmalloc` returned `newNode`. -/
def allocate (newNode size : ℕ) : List VaddrReg → List VaddrReg × ℕ
  | [] => ([], noRegion)
  | cur :: rest =>
    if cur.status = FREE ∧ cur.size ≥ size then
      if cur.size = size then
        ({ cur with status := ALLOCATED } :: rest, cur.pageAddr)
      else
        ({ cur with status := ALLOCATED, size := size } ::
          { node := newNode, status := FREE, size := sub64 cur.size size,
            pageAddr := (cur.pageAddr + size <<< 12) % 2 ^ 64 } :: rest, cur.pageAddr)
    else
      (cur :: (allocate newNode size rest).1, (allocate newNode size rest).2)

/-- A node of the list, with the nodes before it (nearest first) and after it. -/
structure Position where
  before : List VaddrReg
  found : VaddrReg
  after : List VaddrReg

/-- The search of `free_address`: the last region that starts at `page`. -/
def findRegion (page : ℕ) : List VaddrReg → List VaddrReg → Option Position → Option Position
  | _, [], found => found
  | before, cur :: rest, found =>
    findRegion page (cur :: before) rest
      (if cur.pageAddr = page then some ⟨before, cur, rest⟩ else found)

/-- The test `free_address` makes on a neighbour of the node it frees. -/
def mergeable (page : ℕ) (r : VaddrReg) : Bool := r.pageAddr ≠ page ∧ r.status = FREE

/-- The first merge of `free_address`: the next node, if it is free, is unlinked and its
pages are added to `found`. Unlinking the list head destroys the list. -/
def mergeNext (head : VaddrReg) (page : ℕ) (p : Position) : Except Stop Position :=
  match p.after with
  | next :: after =>
    if mergeable page next then
      .ok ⟨p.before, { p.found with size := (p.found.size + next.size) % 2 ^ 64 }, after⟩
    else .ok p
  | [] => if mergeable page head then .error .listCorrupted else .ok p

/-- The second merge of `free_address`: `found` takes over the address and the pages of a
free previous node. -/
def mergePrev (head : VaddrReg) (page : ℕ) (p : Position) : Except Stop Position :=
  match p.before with
  | prev :: before =>
    if mergeable page prev then
      .ok ⟨before, { p.found with
        pageAddr := prev.pageAddr, size := (p.found.size + prev.size) % 2 ^ 64 }, p.after⟩
    else .ok p
  | [] => if mergeable page head then .error .listCorrupted else .ok p

/-- The list part of `free_address`, for the node that was found. -/
def coalesce (head : VaddrReg) (page : ℕ) (p : Position) : Except Stop (List VaddrReg) := do
  let p := { p with found := { p.found with status := FREE } }
  let p ← mergeNext head page p
  let p ← mergePrev head page p
  return p.before.reverse ++ p.found :: p.after

/-- `check_address_range`: whether the address lies in an `ALLOCATED` region. -/
def checkAddressRange (l : List VaddrReg) (address : ℕ) : Bool :=
  l.any fun cur => cur.status = ALLOCATED ∧ cur.pageAddr ≤ address ∧
    address < (cur.pageAddr + 4096 * cur.size) % 2 ^ 64

end Regions

end Petmem
