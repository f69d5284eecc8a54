import Petmem.Residency

/-!
# Cached translations

The hardware may keep the translation of a page that it has accessed until `invlpg` is executed for
an address of the page. `free_address` executes it for every page of the region it gives up;
`clear_up_memory` does not, so that the translation of an evicted page can outlive the page. As
long as the clock picks no page with a cached translation, all of them stay what the page table
says.

Of the addresses that are passed to `invlpg` only those of petmem pages matter here: the entries and
tables for which `attempt_free_physical_address` also calls it lie in the direct map.
-/

namespace Petmem
namespace OnDemand

open ByteMemory RadixTree Pools Swap Regions Pte64

variable {env : Env} {s s' : State} {roots : Set ℕ} {Q : State → Prop} {r a b f g v ℓ slot : ℕ}

/-! ## The cache -/

/-- The cached translations: pairs of the number of a page and the frame it was found in. -/
abbrev Tlb := Set (ℕ × ℕ)

/-- `invlpg`, for each of the addresses. -/
def invlpg (tlb : Tlb) (addrs : List ℕ) : Tlb := { p ∈ tlb | ∀ x ∈ addrs, x / 4096 ≠ p.1 }

/-- The petmem addresses for which `free_address` executes `invlpg`. -/
def invalidated (vaddr : ℕ) (s : State) : List ℕ :=
  match findRegion vaddr [] s.map.memoryAllocations none with
  | none => []
  | some p => (List.range p.found.size).map (pageOf p.found.pageAddr)

/-- The frame the page tables give for an address. -/
def translation (m : Mem) (cr3 a : ℕ) : Option ℕ :=
  (walk m cr3 a).map fun w => (readPte m w.pte).base

/-- What a step that led to `s'` may leave in the cache. -/
inductive Caches (env : Env) (s s' : State) (tlb : Tlb) : Event → Tlb → Prop
  | alloc {addr numPages : ℕ} : Caches env s s' tlb (.alloc addr numPages) tlb
  | free {vaddr : ℕ} : Caches env s s' tlb (.free vaddr) (invlpg tlb (invalidated vaddr s))
  | fault {addr errorCode : ℕ} : Caches env s s' tlb (.fault addr errorCode) tlb
  | read {addr : ℕ} {byte : Byte} : Caches env s s' tlb (.read addr byte) tlb
  | readCached {addr g : ℕ} {byte : Byte} : translation s'.mem env.cr3 addr = some g →
      Caches env s s' tlb (.read addr byte) (insert (addr / 4096, g) tlb)
  | write {addr : ℕ} {byte : Byte} : Caches env s s' tlb (.write addr byte) tlb
  | writeCached {addr g : ℕ} {byte : Byte} : translation s'.mem env.cr3 addr = some g →
      Caches env s s' tlb (.write addr byte) (insert (addr / 4096, g) tlb)

/-- A run together with the cache it leaves. -/
inductive CachedRun (env : Env) (ok : Tlb → List Event → State → Event → Prop) (s₀ : State) :
    List Event → State → Tlb → Prop
  | start : CachedRun env ok s₀ [] s₀ ∅
  | step {es : List Event} {s s' : State} {tlb tlb' : Tlb} {ev : Event} :
      CachedRun env ok s₀ es s tlb → ok tlb es s ev → Step env s ev s' →
      Caches env s s' tlb ev tlb' → CachedRun env ok s₀ (ev :: es) s' tlb'

/-- The walk and the tables agree. -/
theorem translation_eq {m : Mem} {cr3 : ℕ} (ha : a ∈ Region) :
    translation m cr3 a = tableNode m (rootFrame cr3) a 4 := by
  have h0 := region_index_zero ha
  unfold translation
  cases h4 : tableNode m (rootFrame cr3) a 4 with
  | none =>
    rw [walk_of_node_none h0 h4]
    rfl
  | some g =>
    obtain ⟨f₁, f₂, f₃, h1, h2, h3⟩ := exists_tables h4
    rw [walk_of_node h0 h1 h2 h3 h4]
    exact congrArg some (child_eq_some.1 ((node_succ_of_eq h3).symm.trans h4)).2

/-! ## Page faults -/

variable {tlb : Tlb}

variable {k : Kern} {node : ℕ} {es : List Event}

/-- A run whose translations are not cached. -/
theorem CachedRun.of_run {ok : List Event → State → Event → Prop}
    {ok' : Tlb → List Event → State → Event → Prop} {s₀ : State}
    (hok : ∀ es s ev, ok es s ev → ok' ∅ es s ev) (h : Run env ok s₀ es s) :
    CachedRun env ok' s₀ es s ∅ := by
  induction h with
  | start => exact .start
  | @step es s s' ev _ hk hs ih =>
    refine .step ih (hok _ _ _ hk) hs ?_
    cases ev with
    | alloc addr numPages => exact .alloc
    | free vaddr =>
      have hnone : invlpg ∅ (invalidated vaddr s) = ∅ := by simp [invlpg]
      have hfree : Caches env s s' ∅ (.free vaddr) (invlpg ∅ (invalidated vaddr s)) := .free
      rwa [hnone] at hfree
    | fault addr errorCode => exact .fault
    | read addr byte => exact .read
    | write addr byte => exact .write

end OnDemand

end Petmem
