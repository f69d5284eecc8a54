import Petmem.RegionRuns
import Petmem.Eviction

/-!
# The clock hand

The clock leaves its hand on the node after the page it evicts. `free_address` unlinks and frees
the free neighbours of the region it gives up without a look at the hand, so the hand stays on a
node of the list exactly as long as it is not on one of these (`KeepsHand`).
-/

namespace Petmem
namespace OnDemand

open ByteMemory Regions

/-- The clock hand is the list head or a node of the list. -/
def HandOk (map : MemMap) : Prop :=
  ∀ hand, map.clockHand = some hand → hand ∈ map.memoryAllocations.map VaddrReg.node

/-- The free neighbours that `free_address` merges into the region it gives up. -/
def merged (vaddr : ℕ) (l : List VaddrReg) : List VaddrReg :=
  match findRegion vaddr [] l none with
  | none => []
  | some p => (p.before.head?.toList ++ p.after.head?.toList).filter (mergeable vaddr)

/-- A free does not merge away the node under the clock hand. -/
def KeepsHand (_ : List Event) (s : State) : Event → Prop
  | .free vaddr => ∀ r ∈ merged vaddr s.map.memoryAllocations, s.map.clockHand ≠ some r.node
  | _ => True

instance (es : List Event) (s : State) : DecidablePred (KeepsHand es s)
  | .free vaddr => inferInstanceAs
    (Decidable (∀ r ∈ merged vaddr s.map.memoryAllocations, s.map.clockHand ≠ some r.node))
  | .alloc _ _ | .fault _ _ | .read _ _ | .write _ _ => inferInstanceAs (Decidable True)

variable {env : Env} {s s' : State}

/-! ## Evictions -/

/-- The clock leaves the hand on a node that it passed, or where it was. -/
theorem clockScan_next {cr3 : ℕ} {hand : Option ℕ} {items : List (Option ℕ × VaddrReg)} :
    ∀ {m m' : Mem} {v : Victim}, clockScan cr3 hand items m = (m', some v) →
      v.next = hand ∨ ∃ it ∈ items, v.next = it.1 := by
  induction items with
  | nil =>
    intro m m' v h
    cases h
  | cons it rest ih =>
    obtain ⟨ptr, entry⟩ := it
    have hrest : ∀ {m m' : Mem} {v : Victim}, clockScan cr3 hand rest m = (m', some v) →
        v.next = hand ∨ ∃ it ∈ (ptr, entry) :: rest, v.next = it.1 := fun h =>
      (ih h).imp_right fun ⟨it, hit, heq⟩ => ⟨it, List.mem_cons_of_mem _ hit, heq⟩
    intro m m' v h
    rw [clockScan] at h
    dsimp only at h
    split at h
    · split at h
      · exact hrest h
      · -- this page is the victim
        have hv := Option.some.inj (Prod.mk.inj h).2
        rw [← hv]
        cases rest with
        | nil => exact .inl rfl
        | cons next _ => exact .inr ⟨next, by simp, rfl⟩
    · exact hrest h

theorem handOk_of_ring {map : MemMap} {head : VaddrReg} {ring : List (Option ℕ × VaddrReg)}
    (hring : ringAfter head map.memoryAllocations map.clockHand = some ring) (hok : HandOk map)
    {v : Victim} (hv : v.next = map.clockHand ∨ ∃ it ∈ ring, v.next = it.1) :
    HandOk { map with clockHand := v.next } := by
  intro hand hhand
  have hnext : v.next = some hand := hhand
  rcases hv with hv | ⟨it, hit, hv⟩
  · exact hok hand (hv.symm.trans hnext)
  · rcases mem_of_ringAfter hring hit with ⟨hmem, hptr⟩ | rfl
    · have heq : it.2.node = hand := Option.some.inj (hptr.symm.trans (hv.symm.trans hnext))
      rw [← heq]
      exact List.mem_map_of_mem hmem
    · rw [hnext] at hv
      cases hv

theorem pageReplacementClock_handOk {v : Victim} (h : pageReplacementClock env s = .ok (v, s'))
    (hok : HandOk s.map) : HandOk s'.map := by
  unfold pageReplacementClock at h
  split at h
  · cases h
  · rename_i ring hring
    split at h
    · rename_i m v' hscan
      rw [← (Prod.mk.inj (Except.ok.inj h)).2]
      exact handOk_of_ring hring hok (clockScan_next hscan)
    · split at h
      · rename_i m' v' hscan
        rw [← (Prod.mk.inj (Except.ok.inj h)).2]
        exact handOk_of_ring hring hok (clockScan_next hscan)
      · cases h

theorem clearUpMemory_handOk (h : clearUpMemory env s = .ok s') (hok : HandOk s.map) :
    HandOk s'.map := by
  unfold clearUpMemory at h
  obtain ⟨⟨v, s₁⟩, h1, h⟩ := bind_eq_ok.1 h
  obtain ⟨res, -, h⟩ := bind_eq_ok.1 h
  obtain ⟨k, -, h⟩ := bind_eq_ok.1 h
  have hok₁ := pageReplacementClock_handOk h1 hok
  rw [← Except.ok.inj h]
  exact hok₁

/-! ## Requests -/

/-- `allocate` keeps the nodes of the list. -/
theorem allocate_nodes (newNode n : ℕ) {l : List VaddrReg} {r : VaddrReg} (hr : r ∈ l) :
    r.node ∈ (allocate newNode n l).1.map VaddrReg.node := by
  have hcase := allocate_cases newNode n l
  generalize allocate newNode n l = res at hcase
  cases hcase with
  | full => exact List.mem_map_of_mem hr
  | @exact pre post cur hl =>
    rw [hl] at hr
    rcases List.mem_append.1 hr with hr | hr
    · simp [List.mem_map_of_mem hr]
    · rcases List.mem_cons.1 hr with rfl | hr
      · simp
      · simp [List.mem_map_of_mem hr]
  | @cut pre post cur hl =>
    rw [hl] at hr
    rcases List.mem_append.1 hr with hr | hr
    · simp [List.mem_map_of_mem hr]
    · rcases List.mem_cons.1 hr with rfl | hr
      · simp
      · simp [List.mem_map_of_mem hr]

/-- `free_address` keeps the nodes of the list, except for the ones it merges. -/
theorem coalesce_nodes {head : VaddrReg} {page : ℕ} {l l' : List VaddrReg} {p : Position}
    (hfind : findRegion page [] l none = some p) (h : coalesce head page p = .ok l')
    {r : VaddrReg} (hr : r ∈ l) : r ∈ merged page l ∨ r.node ∈ l'.map VaddrReg.node := by
  have hsplit := (isLastAt_of_findRegion hfind).split
  have hmerged : ∀ z, z ∈ merged page l ↔
      (z ∈ p.before.head? ∨ z ∈ p.after.head?) ∧ mergeable page z = true := by
    intro z
    simp only [merged, hfind]
    simp [or_and_right]
  obtain ⟨before, found, after⟩ := p
  rw [hmerged]
  rw [hsplit] at hr
  simp only [List.mem_append, List.mem_reverse, List.mem_cons] at hr
  unfold coalesce at h
  obtain ⟨p₁, h1, h⟩ := bind_eq_ok.1 h
  obtain ⟨p₂, h2, h⟩ := bind_eq_ok.1 h
  rw [← Except.ok.inj h]
  -- the first merge removes at most the next node
  have hnext : p₁.before = before ∧ p₁.found.node = found.node ∧
      ∀ z ∈ after, z ∈ p₁.after ∨ (z ∈ after.head? ∧ mergeable page z = true) := by
    unfold mergeNext at h1
    cases after with
    | nil =>
      dsimp only at h1
      split at h1
      · cases h1
      · rw [← Except.ok.inj h1]
        exact ⟨rfl, rfl, fun z hz => .inl hz⟩
    | cons next after =>
      dsimp only at h1
      split at h1
      · rename_i hm
        rw [← Except.ok.inj h1]
        refine ⟨rfl, rfl, fun z hz => ?_⟩
        rcases List.mem_cons.1 hz with rfl | hz
        · exact .inr ⟨by simp, hm⟩
        · exact .inl hz
      · rw [← Except.ok.inj h1]
        exact ⟨rfl, rfl, fun z hz => .inl hz⟩
  -- the second merge removes at most the previous node
  have hprev : p₂.after = p₁.after ∧ p₂.found.node = p₁.found.node ∧
      ∀ z ∈ before, z ∈ p₂.before ∨ (z ∈ before.head? ∧ mergeable page z = true) := by
    unfold mergePrev at h2
    rw [hnext.1] at h2
    cases before with
    | nil =>
      dsimp only at h2
      split at h2
      · cases h2
      · rw [← Except.ok.inj h2]
        exact ⟨rfl, rfl, fun z hz => by cases hz⟩
    | cons prev before =>
      dsimp only at h2
      split at h2
      · rename_i hm
        rw [← Except.ok.inj h2]
        refine ⟨rfl, rfl, fun z hz => ?_⟩
        rcases List.mem_cons.1 hz with rfl | hz
        · exact .inr ⟨by simp, hm⟩
        · exact .inl hz
      · rw [← Except.ok.inj h2]
        refine ⟨rfl, rfl, fun z hz => .inl ?_⟩
        rw [hnext.1]
        exact hz
  rcases hr with hr | rfl | hr
  · rcases hprev.2.2 r hr with hr | ⟨hh, hm⟩
    · exact .inr (by simp [List.mem_map_of_mem hr])
    · exact .inl ⟨.inl hh, hm⟩
  · refine .inr ?_
    rw [List.map_append, List.map_cons, hprev.2.1, hnext.2.1]
    simp
  · rcases hnext.2.2 r hr with hr | ⟨hh, hm⟩
    · rw [← hprev.1] at hr
      exact .inr (by simp [List.mem_map_of_mem hr])
    · exact .inl ⟨.inr hh, hm⟩

/-- One step keeps the hand on the list, unless a free merges away the node under it. -/
theorem step_handOk {es : List Event} {ev : Event} (h : Step env s ev s') (hk : KeepsHand es s ev)
    (hok : HandOk s.map) : HandOk s'.map := by
  have hclear : ∀ s s', clearUpMemory env s = .ok s' → HandOk s.map → HandOk s'.map :=
    fun _ _ h hok => clearUpMemory_handOk h hok
  cases h with
  | alloc =>
    intro hand hhand
    -- new regions do not take nodes away
    obtain ⟨r, hr, rfl⟩ := List.mem_map.1 (hok hand hhand)
    exact allocate_nodes _ _ hr
  | @free vaddr _ h =>
    unfold petmemFreeVspace freeAddress at h
    cases hfind : findRegion vaddr [] s.map.memoryAllocations none with
    | none =>
      rw [hfind] at h
      rw [← Except.ok.inj h]
      exact hok
    | some p =>
      rw [hfind] at h
      obtain ⟨k, -, h⟩ := bind_eq_ok.1 h
      obtain ⟨l', hco, h⟩ := bind_eq_ok.1 h
      rw [← Except.ok.inj h]
      intro hand hhand
      obtain ⟨r, hr, rfl⟩ := List.mem_map.1 (hok hand hhand)
      -- only the hand's own node could have been merged away
      rcases coalesce_nodes hfind hco hr with hm | hm
      · exact absurd hhand (hk r hm)
      · exact hm
  | fault h => exact petmemHandlePagefault_keeps hclear (fun _ _ h => h) h hok
  | read h => exact userRead_keeps hclear (fun _ _ h => h) h hok
  | write h => exact userWrite_keeps hclear (fun _ _ h => h) h hok

variable {k : Kern} {node : ℕ} {es : List Event}

/-- In every run in which no free merges away the node under the clock hand, the hand is the list
head or a node of the list; and where the list head does not read as a free region, a free returns
when the loop over its pages does. -/
theorem clock_hand_member (hhead : env.head.status ≠ FREE)
    (h : Run env KeepsHand (initState k node) es s) :
    (s.map.clockHand = none ∨
      ∃ r ∈ s.map.memoryAllocations, s.map.clockHand = some r.node) ∧
    ∀ vaddr, (∀ p, findRegion vaddr [] s.map.memoryAllocations none = some p →
        ∃ k', freeRange env.cr3 p.found.pageAddr (List.range p.found.size) s.toKern = .ok k') →
      ∃ s', petmemFreeVspace env vaddr s = .ok s' := by
  have hok : HandOk s.map := h.induct (P := fun _ s => HandOk s.map) (fun _ hh => by cases hh)
    fun _ _ _ _ hok hk hs => step_handOk hs hk hok
  refine ⟨?_, fun vaddr hloop => petmemFreeVspace_of_loop hhead (run_partition h) hloop⟩
  cases hhand : s.map.clockHand with
  | none => exact .inl rfl
  | some hand =>
    obtain ⟨r, hr, heq⟩ := List.mem_map.1 (hok hand hhand)
    exact .inr ⟨r, hr, by rw [heq]⟩

/-- Of four pages the last two are in memory, and the third is evicted for the first, which leaves
the hand on the fourth; then the second and the first are given back, and their regions merged. -/
theorem clock_hand_member_after_merge :
    ∃ es s, Run smallEnv KeepsHand (initState (wideKern 4 (eightSlots 0)) 1) es s ∧
      s.map.clockHand = some 4 ∧ s.map.memoryAllocations.map VaddrReg.node = [1, 3, 4, 5] ∧
      ∃ r ∈ s.map.memoryAllocations, s.map.clockHand = some r.node := by
  have hres : (replayIf (fun es s _ ev => decide (KeepsHand es s ev)) smallEnv
      [.alloc 2 1, .alloc 3 1, .alloc 4 1, .alloc 5 1, .fault 0x1000002000 1,
        .fault 0x1000003000 1, .fault 0x1000000000 1, .free 0x1000001000, .free 0x1000000000]
      ([], initState (wideKern 4 (eightSlots 0)) 1)).map
        (fun r => (r.2.map.clockHand, r.2.map.memoryAllocations.map VaddrReg.node))
      = some (some 4, [1, 3, 4, 5]) := by
    decide +kernel
  obtain ⟨⟨es, s⟩, hreplay, heq⟩ := Option.map_eq_some_iff.1 hres
  obtain ⟨hhand, hnodes⟩ := Prod.mk.inj heq
  have hrun : Run smallEnv KeepsHand _ es s :=
    run_of_replayIf (fun _ _ _ _ _ hok _ => of_decide_eq_true hok) _ .start hreplay
  refine ⟨es, s, hrun, hhand, hnodes, ?_⟩
  rcases (clock_hand_member (show smallEnv.head.status ≠ FREE by decide) hrun).1 with h | h
  · rw [hhand] at h
    cases h
  · exact h

/-- The hand is left on the free region behind the victim's; then the victim's region is given
up and the free region is merged into it. -/
theorem clock_hand_dangles :
    ∃ es s hand, Run smallEnv (fun _ _ _ => True) (initState (smallKern (eightSlots 0)) 1) es s ∧
      s.map.clockHand = some hand ∧ hand ∉ s.map.memoryAllocations.map VaddrReg.node := by
  have hres : (replay smallEnv [.alloc 2 1, .alloc 3 1, .fault 0x1000001000 1,
      .fault 0x1000000000 1, .free 0x1000001000] ([], initState (smallKern (eightSlots 0)) 1)).map
        (fun r => (r.2.map.clockHand, r.2.map.memoryAllocations.map VaddrReg.node))
      = some (some 3, [1, 2]) := by
    decide +kernel
  obtain ⟨⟨es, s⟩, hreplay, heq⟩ := Option.map_eq_some_iff.1 hres
  obtain ⟨hhand, hnodes⟩ := Prod.mk.inj heq
  refine ⟨es, s, 3, run_of_replay _ .start hreplay, hhand, ?_⟩
  rw [show s.map.memoryAllocations.map VaddrReg.node = [1, 2] from hnodes]
  decide

end OnDemand

end Petmem
