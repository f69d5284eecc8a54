import Petmem.OnDemand

/-!
# Runs of a process

A process that has the device open sends requests and touches its memory, in any order. `Step`
is one whole operation, with the event it leaves in the history; `Run` is a sequence of steps
from a start state, each allowed by a condition on the history, the state before it and the
event.

The `LAZY_ALLOC` request of `petmem_ioctl` rounds a byte count to pages before it calls
`petmem_alloc_vspace`.
-/

namespace Petmem
namespace OnDemand

open ByteMemory Regions

/-! ## Events and steps -/

/-- What happened: a request for `numPages` pages that was answered with `addr`, a region given
up, a page fault reported, a byte read or written. -/
inductive Event
  | alloc (addr numPages : ℕ)
  | free (vaddr : ℕ)
  | fault (addr errorCode : ℕ)
  | read (addr : ℕ) (b : Byte)
  | write (addr : ℕ) (b : Byte)

/-- One operation of the process. `kmalloc` returns memory that is no node of the list. -/
inductive Step (env : Env) (s : State) : Event → State → Prop
  | alloc {newNode numPages : ℕ} : newNode ∉ s.map.memoryAllocations.map VaddrReg.node →
      Step env s (.alloc (petmemAllocVspace newNode numPages s).1 numPages)
        (petmemAllocVspace newNode numPages s).2
  | free {vaddr : ℕ} {s' : State} : petmemFreeVspace env vaddr s = .ok s' →
      Step env s (.free vaddr) s'
  | fault {addr errorCode : ℕ} {ret : ℤ} {s' : State} :
      petmemHandlePagefault env addr errorCode s = .ok (ret, s') →
      Step env s (.fault addr errorCode) s'
  | read {addr : ℕ} {b : Byte} {s' : State} : userRead env addr s = .ok (b, s') →
      Step env s (.read addr b) s'
  | write {addr : ℕ} {b : Byte} {s' : State} : userWrite env addr b s = .ok s' →
      Step env s (.write addr b) s'

/-- The run from `s₀` with the history `es`, most recent event first, has reached `s`. -/
inductive Run (env : Env) (ok : List Event → State → Event → Prop) (s₀ : State) :
    List Event → State → Prop
  | start : Run env ok s₀ [] s₀
  | step {es : List Event} {s s' : State} {ev : Event} : Run env ok s₀ es s → ok es s ev →
      Step env s ev s' → Run env ok s₀ (ev :: es) s'

/-- The invariant rule for runs. -/
theorem Run.induct {env : Env} {ok : List Event → State → Event → Prop} {s₀ : State}
    {P : List Event → State → Prop} (h0 : P [] s₀)
    (hstep : ∀ es s ev s', P es s → ok es s ev → Step env s ev s' → P (ev :: es) s')
    {es : List Event} {s : State} (h : Run env ok s₀ es s) : P es s := by
  induction h with
  | start => exact h0
  | step _ hok hs ih => exact hstep _ _ _ _ ih hok hs

/-- A run under a condition is a run under a weaker one. -/
theorem Run.mono {env : Env} {ok ok' : List Event → State → Event → Prop} {s₀ : State}
    (hok : ∀ es s ev, ok es s ev → ok' es s ev) {es : List Event} {s : State}
    (h : Run env ok s₀ es s) : Run env ok' s₀ es s := by
  induction h with
  | start => exact .start
  | step _ hk hs ih => exact .step ih (hok _ _ _ hk) hs

/-- A condition on events alone can be checked in the history. -/
theorem Run.restrict {env : Env} {ok : List Event → State → Event → Prop} {P : Event → Prop}
    {s₀ : State} {es : List Event} {s : State} (h : Run env ok s₀ es s) (hP : ∀ ev ∈ es, P ev) :
    Run env (fun es s ev => P ev ∧ ok es s ev) s₀ es s := by
  induction h with
  | start => exact .start
  | step _ hok hs ih =>
    exact .step (ih fun ev hev => hP ev (by simp [hev])) ⟨hP _ (by simp), hok⟩ hs

/-! ## Runs that are computed -/

/-- What the process can do next; `newNode` is what `kmalloc` returns. -/
inductive Op
  | alloc (newNode numPages : ℕ)
  | free (vaddr : ℕ)
  | fault (addr errorCode : ℕ)
  | read (addr : ℕ)
  | write (addr : ℕ) (b : Byte)

/-- An operation, when it comes back. -/
def perform (env : Env) (s : State) : Op → Option (Event × State)
  | .alloc newNode numPages =>
    if newNode ∈ s.map.memoryAllocations.map VaddrReg.node then none
    else
      let r := petmemAllocVspace newNode numPages s
      some (.alloc r.1 numPages, r.2)
  | .free vaddr => (petmemFreeVspace env vaddr s).toOption.map fun s' => (.free vaddr, s')
  | .fault addr errorCode =>
    (petmemHandlePagefault env addr errorCode s).toOption.map fun r => (.fault addr errorCode, r.2)
  | .read addr => (userRead env addr s).toOption.map fun r => (.read addr r.1, r.2)
  | .write addr b => (userWrite env addr b s).toOption.map fun s' => (.write addr b, s')

/-- Operations in order, when all of them come back and meet the check; the history has the last one
first. -/
def replayIf (check : List Event → State → Op → Event → Bool) (env : Env) :
    List Op → List Event × State → Option (List Event × State)
  | [], r => some r
  | op :: ops, r => (perform env r.2 op).bind fun next =>
    if check r.1 r.2 op next.1 then replayIf check env ops (next.1 :: r.1, next.2) else none

/-- Operations in order, when all of them come back. -/
def replay (env : Env) : List Op → List Event × State → Option (List Event × State) :=
  replayIf (fun _ _ _ _ => true) env

theorem perform_step {env : Env} {s s' : State} {op : Op} {ev : Event}
    (h : perform env s op = some (ev, s')) : Step env s ev s' := by
  cases op with
  | alloc newNode numPages =>
    simp only [perform] at h
    split at h
    · cases h
    · cases h
      exact .alloc ‹_›
  | free vaddr =>
    obtain ⟨x, hx, heq⟩ := Option.map_eq_some_iff.1 h
    cases heq
    exact .free (ok_of_toOption hx)
  | fault addr errorCode =>
    obtain ⟨x, hx, heq⟩ := Option.map_eq_some_iff.1 h
    cases heq
    exact .fault (ok_of_toOption hx)
  | read addr =>
    obtain ⟨x, hx, heq⟩ := Option.map_eq_some_iff.1 h
    cases heq
    exact .read (ok_of_toOption hx)
  | write addr b =>
    obtain ⟨x, hx, heq⟩ := Option.map_eq_some_iff.1 h
    cases heq
    exact .write (ok_of_toOption hx)

/-- What is computed is a run. -/
theorem run_of_replayIf {env : Env} {check : List Event → State → Op → Event → Bool}
    {ok : List Event → State → Event → Prop} {s₀ : State}
    (hok : ∀ es s op ev s', check es s op ev = true → perform env s op = some (ev, s') →
      ok es s ev) :
    ∀ (ops : List Op) {es es' : List Event} {s s' : State}, Run env ok s₀ es s →
      replayIf check env ops (es, s) = some (es', s') → Run env ok s₀ es' s' := by
  intro ops
  induction ops with
  | nil =>
    intro es es' s s' hrun h
    cases h
    exact hrun
  | cons op ops ih =>
    intro es es' s s' hrun h
    obtain ⟨⟨ev, s₁⟩, hop, h⟩ := Option.bind_eq_some_iff.1 h
    dsimp only at h
    split at h
    · exact ih (.step hrun (hok _ _ _ _ _ ‹_› hop) (perform_step hop)) h
    · cases h

theorem run_of_replay {env : Env} {s₀ : State} (ops : List Op) {es es' : List Event}
    {s s' : State} (hrun : Run env (fun _ _ _ => True) s₀ es s)
    (h : replay env ops (es, s) = some (es', s')) : Run env (fun _ _ _ => True) s₀ es' s' :=
  run_of_replayIf (fun _ _ _ _ _ _ _ => trivial) ops hrun h

/-- Memory in which a process has its top-level table in frame 1, with an empty level-3 table in
frame 2. -/
def smallMem : Mem :=
  writePte (fun _ => 0) (frameVa 1 0)
    { Pte64.zero with present := true, writable := true, userPage := true, pageBaseAddr := 2 }

/-- `smallMem`, with `n` frames from 0x10000 on added as petmem memory. -/
def wideKern (n : ℕ) (file : SwapFile) : Kern :=
  match Pools.addMemory 0x10000 n ⟨smallMem, [], file, []⟩ with
  | .ok k => k
  | .error _ => ⟨smallMem, [], file, []⟩

/-- Three frames are enough for one page and the tables above it. -/
def smallKern (file : SwapFile) : Kern := wideKern 3 file

/-- The surroundings of the process in `smallMem`; the list head reads as a region in use. -/
def smallEnv : Env := ⟨0x1000, ⟨0, ALLOCATED, 0, 0⟩⟩

/-- A swap file with eight slots, of which the bits set in `b` are in use. -/
def eightSlots (b : Byte) : SwapFile := ⟨fun i => if i = 0 then b else 0, 8 * 4096⟩

/-! ## The `LAZY_ALLOC` request -/

/-- The number of pages `LAZY_ALLOC` asks for; the sum is an `unsigned long long`. -/
def requestPages (size : ℕ) : ℕ :=
  (((size + (pageSize - 1)) % 2 ^ 64) &&& (2 ^ 64 - pageSize)) >>> pageShift

/-- The `LAZY_ALLOC` branch of `petmem_ioctl`: the address that is reported, `none` on its
failure branch. -/
def lazyAlloc (newNode size : ℕ) (s : State) : Option ℕ × State :=
  let r := petmemAllocVspace newNode (requestPages size) s
  -- the request takes 0 for a failure, `allocate` reports one as -1
  if r.1 = 0 then (none, r.2) else (some r.1, r.2)

theorem requestPages_eq (size : ℕ) : requestPages size = (size + 4095) % 2 ^ 64 / 4096 := by
  unfold requestPages pageSize pageShift
  set x := (size + (4096 - 1)) % 2 ^ 64 with hx
  have hlt : x < 2 ^ 64 := Nat.mod_lt _ (by norm_num)
  -- the mask of whole pages is 52 ones above twelve zeros
  have hmask : 2 ^ 64 - 4096 = (2 ^ 52 - 1) <<< 12 := by decide
  rw [hmask, Nat.shiftRight_and_distrib, Nat.shiftLeft_shiftRight, Nat.and_two_pow_sub_one_eq_mod,
    Nat.shiftRight_eq_div_pow, Nat.mod_eq_of_lt (by omega)]

/-! ## What the handler does to the map

Of the process's map the handler changes the swap bitmap, and what `clear_up_memory` changes.
What both keep is kept by every page fault and access; the region list is changed by `allocate`
and `free_address` alone. -/

variable {env : Env} {s s' : State}

section Keeps

variable {P : MemMap → Prop} (hclear : ∀ s s', clearUpMemory env s = .ok s' → P s.map → P s'.map)
  (hswap : ∀ map swap, P map → P { map with swap })

include hclear

theorem allocPage_keeps {p : ℕ} (h : allocPage env s = .ok (p, s')) (hP : P s.map) : P s'.map := by
  unfold allocPage at h
  obtain ⟨⟨memory, k⟩, -, h⟩ := bind_eq_ok.1 h
  dsimp only at h
  split at h
  · obtain ⟨s₁, h1, h⟩ := bind_eq_ok.1 h
    obtain ⟨⟨memory', k'⟩, -, h⟩ := bind_eq_ok.1 h
    have hP₁ := hclear _ _ h1 hP
    rw [← (Prod.mk.inj (Except.ok.inj h)).2]
    exact hP₁
  · rw [← (Prod.mk.inj (Except.ok.inj h)).2]
    exact hP

theorem handleTableMemory_keeps {handle : ℕ} (h : handleTableMemory env handle s = .ok s')
    (hP : P s.map) : P s'.map := by
  unfold handleTableMemory at h
  obtain ⟨⟨memory, s₁⟩, h1, h⟩ := bind_eq_ok.1 h
  have hP₁ := allocPage_keeps hclear h1 hP
  rw [← Except.ok.inj h]
  exact hP₁

theorem pml4Stage_keeps {a : ℕ} (h : pml4Stage env a s = .ok s') (hP : P s.map) : P s'.map := by
  unfold pml4Stage at h
  split at h
  · exact handleTableMemory_keeps hclear h hP
  · rw [← Except.ok.inj h]
    exact hP

theorem tableStage_keeps {entry : ℕ} (h : tableStage env entry s = .ok s') (hP : P s.map) :
    P s'.map := by
  unfold tableStage at h
  split at h
  · obtain ⟨s₁, h1, h⟩ := bind_eq_ok.1 h
    have hP₁ := handleTableMemory_keeps hclear h1 hP
    rw [← Except.ok.inj h]
    exact hP₁
  · rw [← Except.ok.inj h]
    exact hP

include hswap

theorem pteStage_keeps {pte : ℕ} (h : pteStage env pte s = .ok s') (hP : P s.map) : P s'.map := by
  unfold pteStage at h
  dsimp only at h
  split at h
  · exact tableStage_keeps hclear h hP
  · split at h
    · obtain ⟨⟨page, swap⟩, -, h⟩ := bind_eq_ok.1 h
      unfold swapInStage at h
      obtain ⟨⟨space, s₁⟩, h1, h⟩ := bind_eq_ok.1 h
      have hP₁ := allocPage_keeps hclear h1 (hswap _ swap hP)
      rw [← Except.ok.inj h]
      exact hP₁
    · rw [← Except.ok.inj h]
      exact hP

theorem petmemHandlePagefault_keeps {a code : ℕ} {ret : ℤ}
    (h : petmemHandlePagefault env a code s = .ok (ret, s')) (hP : P s.map) : P s'.map := by
  unfold petmemHandlePagefault at h
  split at h
  · rw [← (Prod.mk.inj (Except.ok.inj h)).2]
    exact hP
  · obtain ⟨s₁, h1, h⟩ := bind_eq_ok.1 h
    obtain ⟨s₂, h2, h⟩ := bind_eq_ok.1 h
    obtain ⟨s₃, h3, h⟩ := bind_eq_ok.1 h
    obtain ⟨s₄, h4, h⟩ := bind_eq_ok.1 h
    rw [← (Prod.mk.inj (Except.ok.inj h)).2]
    have hP₁ := pml4Stage_keeps hclear h1 hP
    have hP₂ := tableStage_keeps hclear h2 hP₁
    have hP₃ := tableStage_keeps hclear h3 hP₂
    exact pteStage_keeps hclear hswap h4 hP₃

theorem faultIn_keeps {a : ℕ} (h : faultIn env a s = .ok s') (hP : P s.map) : P s'.map := by
  unfold faultIn at h
  split at h
  · obtain ⟨⟨ret, s₁⟩, h1, h⟩ := bind_eq_ok.1 h
    have hP₁ := petmemHandlePagefault_keeps hclear hswap h1 hP
    dsimp only at h
    split at h
    · rw [← Except.ok.inj h]
      exact hP₁
    · cases h
  · rw [← Except.ok.inj h]
    exact hP

theorem userAccess_keeps {a f : ℕ} {w : Bool} (h : userAccess env a w s = .ok (f, s'))
    (hP : P s.map) : P s'.map := by
  unfold userAccess at h
  obtain ⟨s₁, h1, h⟩ := bind_eq_ok.1 h
  have hP₁ := faultIn_keeps hclear hswap h1 hP
  split at h
  · cases h
  · rw [← (Prod.mk.inj (Except.ok.inj h)).2]
    exact hP₁

theorem userRead_keeps {a : ℕ} {b : Byte} (h : userRead env a s = .ok (b, s')) (hP : P s.map) :
    P s'.map := by
  unfold userRead at h
  obtain ⟨⟨f, s₁⟩, h1, h⟩ := bind_eq_ok.1 h
  have hP₁ := userAccess_keeps hclear hswap h1 hP
  rw [← (Prod.mk.inj (Except.ok.inj h)).2]
  exact hP₁

theorem userWrite_keeps {a : ℕ} {b : Byte} (h : userWrite env a b s = .ok s') (hP : P s.map) :
    P s'.map := by
  unfold userWrite at h
  obtain ⟨⟨f, s₁⟩, h1, h⟩ := bind_eq_ok.1 h
  have hP₁ := userAccess_keeps hclear hswap h1 hP
  rw [← Except.ok.inj h]
  exact hP₁

end Keeps

theorem pageReplacementClock_list {v : Victim} (h : pageReplacementClock env s = .ok (v, s')) :
    s'.map.memoryAllocations = s.map.memoryAllocations := by
  unfold pageReplacementClock at h
  split at h
  · cases h
  · split at h
    · rw [← (Prod.mk.inj (Except.ok.inj h)).2]
    · split at h
      · rw [← (Prod.mk.inj (Except.ok.inj h)).2]
      · cases h

theorem clearUpMemory_list (h : clearUpMemory env s = .ok s') :
    s'.map.memoryAllocations = s.map.memoryAllocations := by
  unfold clearUpMemory at h
  obtain ⟨⟨v, s₁⟩, h1, h⟩ := bind_eq_ok.1 h
  obtain ⟨res, -, h⟩ := bind_eq_ok.1 h
  obtain ⟨k, -, h⟩ := bind_eq_ok.1 h
  have hlist := pageReplacementClock_list h1
  rw [← Except.ok.inj h]
  exact hlist

theorem petmemHandlePagefault_list {a code : ℕ} {ret : ℤ}
    (h : petmemHandlePagefault env a code s = .ok (ret, s')) :
    s'.map.memoryAllocations = s.map.memoryAllocations :=
  petmemHandlePagefault_keeps (P := fun map => map.memoryAllocations = s.map.memoryAllocations)
    (fun _ _ h1 h2 => (clearUpMemory_list h1).trans h2) (fun _ _ h => h) h rfl

theorem userRead_list {a : ℕ} {b : Byte} (h : userRead env a s = .ok (b, s')) :
    s'.map.memoryAllocations = s.map.memoryAllocations :=
  userRead_keeps (P := fun map => map.memoryAllocations = s.map.memoryAllocations)
    (fun _ _ h1 h2 => (clearUpMemory_list h1).trans h2) (fun _ _ h => h) h rfl

theorem userWrite_list {a : ℕ} {b : Byte} (h : userWrite env a b s = .ok s') :
    s'.map.memoryAllocations = s.map.memoryAllocations :=
  userWrite_keeps (P := fun map => map.memoryAllocations = s.map.memoryAllocations)
    (fun _ _ h1 h2 => (clearUpMemory_list h1).trans h2) (fun _ _ h => h) h rfl

end OnDemand

end Petmem
