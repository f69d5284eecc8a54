import Petmem.Contents
import Petmem.Translations

/-!
# Demand paging is transparent

A process that requests memory and reads and writes it sees a flat memory that is zero at first
(`lastWritten`), whatever pages were evicted and brought back in between. The invariant relates the
history to what the pages hold: every byte of every page, in a frame or in a slot, is the one last
written.

The swap file has to have room: an eviction that finds no free slot loses the page, and the offset
of a slot from 2^19 on does not fit in the 31 bits it is computed in.
-/

namespace Petmem
namespace OnDemand

open ByteMemory RadixTree Pools Swap Regions Pte64 SlotStore

variable {env : Env} {s s' : State} {roots : Set ℕ} {Q : State → Prop} {r a b f g n : ℕ} {k : Kern}
  {node : ℕ} {es : List Event}

/-- The memory the process should see: the byte last written at an address, or 0. -/
def lastWritten (a : ℕ) : List Event → Byte
  | [] => 0
  | .write x byte :: es => if x = a then byte else lastWritten a es
  | _ :: es => lastWritten a es

/-- An eviction finds the list head absent and a free slot. -/
def Roomy (env : Env) (s : State) : Prop := HeadAbsent env s.mem ∧ HasRoom s.map.swap

/-- The process frees nothing, and its evictions find room. -/
def KeepsAll (env : Env) (es : List Event) (s : State) (ev : Event) : Prop :=
  (∀ v, ev ≠ .free v) ∧ AtEvictions env (Roomy env) es s ev

theorem Roomy.free (h : Roomy env s) : FreeBelow (2 ^ 19) s.map.swap := by
  obtain ⟨-, i, hmap, hlt, hbit⟩ := h
  exact ⟨i, hlt, hmap, hbit⟩

theorem roomy_of_check (h : roomy env s = true) : Roomy env s := by
  obtain ⟨hhead, i, hlt, hmap, hbit⟩ := roomy_spec (B := 2 ^ 19) (by norm_num) h
  exact ⟨hhead, i, hmap, hlt, hbit⟩

/-! ## The entry of the level-4 table -/

theorem Accessed.top {w : Bool} (h : Accessed roots r a w s s' f g) :
    topEntry s'.mem r = topEntry s.mem r := by
  refine h.set.others r 0 (h.before.lt_limit h.root h.region (show 0 ≤ 4 by omega) rfl)
    (by omega) ?_
  rintro ⟨rfl, -⟩
  have := (h.before.separated r h.root r h.root a h.region a h.region 0 (by omega) 3 (by omega) r
    rfl h.table).2.1
  omega

theorem Written.top {byte : Byte} (h : Written roots r a byte s s' g) :
    topEntry s'.mem r = topEntry s.mem r := by
  have hlt := h.before.lt_limit h.root h.region (show 0 ≤ 4 by omega) rfl
  exact (h.set.frames r hlt (h.ne_page h.root h.region (show 0 ≤ 3 by omega) rfl)).pteAt hlt
    (by omega)

/-! ## Pages with slots of their own -/

/-- What the handler relies on, for a process of which the pages `P` have slots of their own. -/
structure Paged (env : Env) (roots : Set ℕ) (P : Set ℕ) (s : State) : Prop where
  ready : Ready env roots (Roomy env) s
  flagged : Flagged s.mem (rootFrame env.cr3)
  pages : P ⊆ petmemPages
  slotted : Slotted (placeAt s (rootFrame env.cr3)) (marked (2 ^ 19) s.map.swap) P

/-- Where the handler runs out of frames for `a`, there is room and the clock finds a page. -/
def FindsRoom (env : Env) (a : ℕ) (s : State) : Prop :=
  ∀ s', RunsOut env a s s' → Roomy env s' ∧ ∃ res, pageReplacementClock env s' = .ok res

theorem findsRoom_of_check (h : (asked env a s).all (fun t =>
    roomy env t && (pageReplacementClock env t).toOption.isSome) = true) : FindsRoom env a s := by
  intro t hout
  have ht := List.all_eq_true.1 h t (mem_asked hout.asks)
  rw [Bool.and_eq_true] at ht
  obtain ⟨res, hres⟩ := Option.isSome_iff_exists.1 ht.2
  exact ⟨roomy_of_check ht.1, res, ok_of_toOption hres⟩

namespace Paged

variable {P : Set ℕ}

/-- A fault leaves the bytes of the pages as they are. -/
theorem faulted (h : Paged env roots P s) (ha : a / 4096 ∈ P)
    (hf : Faulted env roots (Roomy env) a s s') :
    Paged env roots P s' ∧ ∀ n ∈ P, ∀ i < 4096,
      bytesAt s' (rootFrame env.cr3) n i = bytesAt s (rootFrame env.cr3) n i := by
  have hfree : ∀ s, Roomy env s → FreeBelow (2 ^ 19) s.map.swap := fun s hs => hs.free
  refine ⟨⟨hf.ready h.ready, (hf.flagged h.flagged).1, h.pages, ?_⟩, fun n hn => ?_⟩
  · exact hf.slotted (by norm_num) (le_refl _) hfree h.pages (by norm_num) ha h.slotted
  · exact hf.bytesAt_eq hfree h.pages ha h.slotted hn

theorem accessed {w : Bool} (h : Paged env roots P s)
    (hacc : Accessed roots (rootFrame env.cr3) a w s s' f g) : Paged env roots P s' := by
  refine ⟨⟨hacc.owned_nodes.1, h.ready.root, by rw [hacc.map]; exact h.ready.list, h.ready.head⟩,
    hacc.flagged h.flagged, h.pages, ?_⟩
  rw [hacc.map]
  exact h.slotted.congr fun n hn => hacc.placeAt_eq (h.pages hn)

theorem written {byte : Byte} (h : Paged env roots P s)
    (hw : Written roots (rootFrame env.cr3) a byte s s' g) : Paged env roots P s' := by
  refine ⟨⟨hw.owned_nodes.1, h.ready.root, by rw [hw.map]; exact h.ready.list, h.ready.head⟩,
    hw.flagged h.flagged, h.pages, ?_⟩
  rw [hw.map]
  exact h.slotted.congr fun n hn => hw.placeAt_eq (h.pages hn)

/-- The fault of an access to a region in use is served. -/
theorem fault_returns (h : Paged env roots P s) (hcov : Covered s.map.memoryAllocations a)
    (haP : a / 4096 ∈ P) (hroom : FindsRoom env a s) :
    ∃ s', petmemHandlePagefault env a 1 s = .ok (0, s') ∧ Faulted env roots (Roomy env) a s s' := by
  have hrange := (checkAddressRange_iff h.ready.list a).2 hcov
  have ha := mem_region_of_range h.ready.list hrange
  have hready : Ready env roots (fun s' => Roomy env s' ∧ ∃ res, pageReplacementClock env s'
      = .ok res) s := h.ready.weaken fun _ hQ => hQ.1.1
  -- the slot of a page that is swapped in exists
  have hin : ∀ s₁ f, Pages env roots (fun s' => Roomy env s' ∧ ∃ res, pageReplacementClock env s'
      = .ok res) a s s₁ → tableNode s₁.mem (rootFrame env.cr3) a 3 = some f →
      (pteAt s₁.mem f (tableIndex a 3)).present = false →
      (pteAt s₁.mem f (tableIndex a 3)).dirty = true →
      ∃ res, swapInPage ((pteAt s₁.mem f (tableIndex a 3)).base % 2 ^ 32) s₁.map.swap s₁.file
        = .ok res := by
    intro s₁ f hp ht hpres hdirty
    have hs := hp.slotted (by norm_num) (le_refl _) (fun _ hQ => hQ.1.free) h.pages h.slotted
    have hplace : placeAt s₁ (rootFrame env.cr3) (a / 4096)
        = .slot (pteAt s₁.mem f (tableIndex a 3)).base := by
      unfold placeAt
      rw [leaf_page_eq ha, leaf_of_node ht]
      exact placeOf_swapped hpres hdirty
    obtain ⟨hlt, hmap, -⟩ := hs.taken _ haP _ hplace
    rw [Nat.mod_eq_of_lt (by omega)]
    obtain ⟨swap', hin, -⟩ := swapInPage_spec s₁.file hmap
    exact ⟨_, hin⟩
  obtain ⟨s', hrun⟩ := petmemHandlePagefault_returns hready hroom (fun _ hQ => ⟨hQ.2, hQ.1.2⟩) hin
    (show 1 ≠ errorPermission by decide) hrange
  refine ⟨s', hrun, ?_⟩
  rcases petmemHandlePagefault_spec h.ready (fun _ s'' hout => (hroom s'' hout).1) hrun with
    ⟨hret, -⟩ | ⟨-, -, -, hf⟩
  · exact absurd hret (by norm_num)
  · exact hf

theorem translates (h : Paged env roots P s) (htop : Open (topEntry s.mem (rootFrame env.cr3)))
    (ha : a ∈ Region) {w : Bool} (hg : tableNode s.mem (rootFrame env.cr3) a 4 = some g) :
    ∃ c, translate s.mem env.cr3 a w = some c :=
  Option.ne_none_iff_exists'.1 (translate_of_usable ((usable_iff ha h.flagged hg).2 htop) w)

/-- An access to a region in use comes back. -/
theorem access_returns (h : Paged env roots P s) (htop : Open (topEntry s.mem (rootFrame env.cr3)))
    (hcov : Covered s.map.memoryAllocations a) (haP : a / 4096 ∈ P) (hroom : FindsRoom env a s)
    (w : Bool) : ∃ c s', userAccess env a w s = .ok (c, s') := by
  have ha := mem_region_of_range h.ready.list ((checkAddressRange_iff h.ready.list a).2 hcov)
  obtain ⟨s₁, hrun, hp, htop₁, c, hc⟩ : ∃ s₁, faultIn env a s = .ok s₁ ∧ Paged env roots P s₁ ∧
      Open (topEntry s₁.mem (rootFrame env.cr3)) ∧
      ∃ c, tableNode s₁.mem (rootFrame env.cr3) a 4 = some c := by
    unfold faultIn
    rcases getValidPageEntry_cases h.ready.owned h.ready.root ha with
      ⟨hz, -⟩ | ⟨f, g, hva, hne, -, h4⟩
    · obtain ⟨s₁, hrun, hf⟩ := h.fault_returns hcov haP hroom
      obtain ⟨-, htop₁, hmap⟩ := hf.flagged h.flagged
      rw [if_pos hz]
      exact ⟨s₁, bind_eq_ok.2 ⟨_, hrun, rfl⟩, (h.faulted haP hf).1, htop₁.2 htop, hmap⟩
    · rw [hva, if_neg hne]
      exact ⟨s, rfl, h, htop, g, h4⟩
  obtain ⟨c', htr⟩ := hp.translates htop₁ ha (w := w) hc
  refine ⟨c', { s₁ with mem := markAccess s₁.mem env.cr3 a w }, ?_⟩
  unfold userAccess
  refine bind_eq_ok.2 ⟨s₁, hrun, ?_⟩
  rw [htr]

end Paged

/-- What an access finds in the frame is what the page holds. -/
theorem Accessed.found {w : Bool} (hacc : Accessed roots r a w s s' f g) (ha : a ∈ Region) :
    s'.mem (frameVa g (a % 4096)) = bytesAt s' r (a / 4096) (a % 4096) := by
  have hn : tableNode s'.mem r a 4 = some g :=
    (hacc.owned_nodes.2 _ hacc.root a (.inl ha) 4 (by omega)).trans hacc.page
  have hplace : placeAt s' r (a / 4096) = .frame g := by
    rw [placeAt_of_frame, ← hn]
    exact node_congr ((samePath_four_iff (mem_petmemPages ha) ha).2 (by omega))
  rw [bytesAt_of_frame hplace]

/-! ## The invariant -/

/-- What the pages hold is what was last written, and an access will find it. -/
structure Remembers (env : Env) (roots : Set ℕ) (es : List Event) (s : State) : Prop where
  ready : Ready env roots (Roomy env) s
  flagged : Flagged s.mem (rootFrame env.cr3)
  top : Open (topEntry s.mem (rootFrame env.cr3))
  slotted : Slotted (placeAt s (rootFrame env.cr3)) (marked (2 ^ 19) s.map.swap) petmemPages
  bytes : ∀ n ∈ petmemPages, ∀ i < 4096,
    bytesAt s (rootFrame env.cr3) n i = lastWritten (n * 4096 + i) es

/-- A process that has nothing mapped. -/
theorem remembers_start (hs : Start env roots k)
    (hnone : ∀ a ∈ Region, tableNode k.mem (rootFrame env.cr3) a 2 = none)
    (htop : Open (topEntry k.mem (rootFrame env.cr3))) :
    Remembers env roots [] (initState k node) := by
  have hplace : ∀ n ∈ petmemPages, placeAt (initState k node) (rootFrame env.cr3) n = .nowhere := by
    intro n hn
    have hleaf : leaf (initState k node).mem (rootFrame env.cr3) (n * 4096) = none :=
      leaf_of_none (node_eq_none_of_le (hnone _ hn) (by omega))
    unfold placeAt
    rw [hleaf]
    rfl
  refine ⟨⟨hs.owned, hs.root, partition_initRegions node, fun _ hQ => hQ.1⟩,
    flagged_of_unmapped hnone, htop, ⟨fun n hn i hi => ?_, fun n hn m _ i hi => ?_⟩,
    fun n hn i _ => ?_⟩
  · rw [hplace n hn] at hi
    cases hi
  · rw [hplace n hn] at hi
    cases hi
  · rw [bytesAt_of_nowhere (hplace n hn)]
    rfl

namespace Remembers

theorem paged (h : Remembers env roots es s) : Paged env roots petmemPages s :=
  ⟨h.ready, h.flagged, le_refl _, h.slotted⟩

theorem of_paged (h : Paged env roots petmemPages s)
    (htop : Open (topEntry s.mem (rootFrame env.cr3)))
    (hbytes : ∀ n ∈ petmemPages, ∀ i < 4096,
      bytesAt s (rootFrame env.cr3) n i = lastWritten (n * 4096 + i) es) :
    Remembers env roots es s :=
  ⟨h.ready, h.flagged, htop, h.slotted, hbytes⟩

theorem faulted (h : Remembers env roots es s) (ha : a ∈ Region)
    (hf : Faulted env roots (Roomy env) a s s') : Remembers env roots es s' := by
  obtain ⟨hp, hbytes⟩ := h.paged.faulted (mem_petmemPages ha) hf
  refine of_paged hp ((hf.flagged h.flagged).2.1.2 h.top) fun n hn i hi => ?_
  rw [hbytes n hn i hi]
  exact h.bytes n hn i hi

theorem accessed {w : Bool} (h : Remembers env roots es s)
    (hacc : Accessed roots (rootFrame env.cr3) a w s s' f g) : Remembers env roots es s' := by
  refine of_paged (h.paged.accessed hacc) (by rw [hacc.top]; exact h.top) fun n hn i hi => ?_
  rw [hacc.bytesAt_eq hn i hi]
  exact h.bytes n hn i hi

theorem written {byte : Byte} (h : Remembers env roots es s)
    (hw : Written roots (rootFrame env.cr3) a byte s s' g) :
    Remembers env roots (.write a byte :: es) s' := by
  refine of_paged (h.paged.written hw) (by rw [hw.top]; exact h.top) fun n hn i hi => ?_
  rw [hw.bytesAt_eq hn hi, h.bytes n hn i hi, lastWritten]
  simp only [eq_comm]

/-- The region list does not matter. -/
theorem list {l : List VaddrReg} (h : Remembers env roots es s)
    (hr : Ready env roots (Roomy env) { s with map := { s.map with memoryAllocations := l } }) :
    Remembers env roots es { s with map := { s.map with memoryAllocations := l } } :=
  ⟨hr, h.flagged, h.top, h.slotted, h.bytes⟩

/-- Events other than writes leave the memory the process should see. -/
theorem congr {ev : Event} (h : Remembers env roots es s) (hev : ∀ x byte, ev ≠ .write x byte) :
    Remembers env roots (ev :: es) s := by
  refine ⟨h.ready, h.flagged, h.top, h.slotted, fun n hn i hi => ?_⟩
  rw [h.bytes n hn i hi]
  cases ev with
  | write x byte => exact absurd rfl (hev x byte)
  | alloc | free | fault | read => rfl

/-- The access before the event is entered in the history. -/
theorem access {w : Bool} {s₁ s₂ : State} (h : Remembers env roots es s) (ha : a ∈ Region)
    (hcase : s₁ = s ∨ (checkAddressRange s.map.memoryAllocations a = true ∧
      Faulted env roots (Roomy env) a s s₁))
    (hacc : Accessed roots (rootFrame env.cr3) a w s₁ s₂ f g) : Remembers env roots es s₂ := by
  rcases hcase with rfl | ⟨-, hf⟩
  · exact h.accessed hacc
  · exact (h.faulted ha hf).accessed hacc

/-- The byte an access finds is the one last written. -/
theorem found {w : Bool} {s₁ s₂ : State} (h : Remembers env roots es s₂) (ha : a ∈ Region)
    (hacc : Accessed roots (rootFrame env.cr3) a w s₁ s₂ f g) :
    s₂.mem (frameVa g (a % 4096)) = lastWritten a es := by
  rw [hacc.found ha, h.bytes _ (mem_petmemPages ha) _ (Nat.mod_lt _ (by norm_num)),
    show a / 4096 * 4096 + a % 4096 = a by omega]

/-- One operation, and the byte it reads. -/
theorem step {ev : Event} (h : Remembers env roots es s) (hok : KeepsAll env es s ev)
    (hstep : Step env s ev s') :
    Remembers env roots (ev :: es) s' ∧ ∀ x byte, ev = .read x byte → byte = lastWritten x es := by
  have hcase := step_cases h.ready hok.2 hstep
  cases hcase with
  | alloc hnew =>
    refine ⟨?_, by simp⟩
    exact (h.congr (by simp)).list ((step_cases h.ready hok.2 hstep).ready h.ready)
  | freeNone => exact absurd rfl (hok.1 _)
  | free _ => exact absurd rfl (hok.1 _)
  | refused => exact ⟨h.congr (by simp), by simp⟩
  | fault _ ha hf =>
    exact ⟨(h.faulted ha hf).congr (by simp), by simp⟩
  | read ha hcase hacc hbyte =>
    have h₂ := h.access ha hcase hacc
    refine ⟨h₂.congr (by simp), fun x byte heq => ?_⟩
    injection heq with hx hb
    subst hx hb
    rw [hbyte, h₂.found ha hacc]
  | write ha hcase hacc hw =>
    exact ⟨(h.access ha hcase hacc).written hw, by simp⟩

end Remembers

/-! ## Accesses return -/

namespace Remembers

theorem access_returns (h : Remembers env roots es s) (hcov : Covered s.map.memoryAllocations a)
    (hroom : FindsRoom env a s) (w : Bool) : ∃ c s', userAccess env a w s = .ok (c, s') := by
  have ha := mem_region_of_range h.ready.list ((checkAddressRange_iff h.ready.list a).2 hcov)
  exact h.paged.access_returns h.top hcov (mem_petmemPages ha) hroom w

theorem write_returns (h : Remembers env roots es s) (hcov : Covered s.map.memoryAllocations a)
    (hroom : FindsRoom env a s) (byte : Byte) : ∃ s', userWrite env a byte s = .ok s' := by
  obtain ⟨c, s', hrun⟩ := h.access_returns hcov hroom true
  exact ⟨_, bind_eq_ok.2 ⟨_, hrun, rfl⟩⟩

theorem read_returns (h : Remembers env roots es s) (hcov : Covered s.map.memoryAllocations a)
    (hroom : FindsRoom env a s) : ∃ s', userRead env a s = .ok (lastWritten a es, s') := by
  have ha := mem_region_of_range h.ready.list ((checkAddressRange_iff h.ready.list a).2 hcov)
  obtain ⟨c, s', hrun⟩ := h.access_returns hcov hroom false
  have hread : userRead env a s = .ok (s'.mem (frameVa c (a % 4096)), s') :=
    bind_eq_ok.2 ⟨_, hrun, rfl⟩
  have hok : KeepsAll env es s (.read a (s'.mem (frameVa c (a % 4096)))) :=
    ⟨by simp, ha, fun s'' hout => (hroom s'' hout).1⟩
  refine ⟨s', ?_⟩
  rw [hread, (h.step hok (.read hread)).2 _ _ rfl]

end Remembers

/-! ## Runs -/

theorem run_remembers (hs : Start env roots k)
    (hnone : ∀ a ∈ Region, tableNode k.mem (rootFrame env.cr3) a 2 = none)
    (htop : Open (topEntry k.mem (rootFrame env.cr3)))
    (h : Run env (KeepsAll env) (initState k node) es s) : Remembers env roots es s :=
  h.induct (P := fun es s => Remembers env roots es s) (remembers_start hs hnone htop)
    fun _ _ _ _ hrem hok hstep => (hrem.step hok hstep).1

/-- **Demand paging is transparent** as long as every eviction finds a free slot below 2^19: in
every run of requests, reads and writes, every read has returned the byte last written at its
address, or 0, and in every state reached an access to a region in use comes back, a read with
that byte. -/
theorem paging_transparent (hs : Start env roots k)
    (hnone : ∀ a ∈ Region, tableNode k.mem (rootFrame env.cr3) a 2 = none)
    (htop : Open (topEntry k.mem (rootFrame env.cr3)))
    (h : Run env (KeepsAll env) (initState k node) es s) :
    (∀ later x byte earlier, es = later ++ .read x byte :: earlier →
      byte = lastWritten x earlier) ∧
    ∀ a, Covered s.map.memoryAllocations a → FindsRoom env a s →
      (∃ s', userRead env a s = .ok (lastWritten a es, s')) ∧
      ∀ byte, ∃ s', userWrite env a byte s = .ok s' := by
  constructor
  · induction h with
    | start =>
      intro later x byte earlier heq
      cases later <;> cases heq
    | @step es s s' ev hrun hok hstep ih =>
      intro later x byte earlier heq
      cases later with
      | nil =>
        obtain ⟨rfl, rfl⟩ := List.cons.inj heq
        exact ((run_remembers hs hnone htop hrun).step hok hstep).2 x byte rfl
      | cons _ later => exact ih later x byte earlier (List.cons.inj heq).2
  · intro a hcov hroom
    have hrem := run_remembers hs hnone htop h
    exact ⟨hrem.read_returns hcov hroom, hrem.write_returns hcov hroom⟩

/-- A byte is written, its page is swapped out to slot 0 for another page, and the byte is read
back. -/
theorem paging_transparent_after_eviction :
    ∃ es s, Run smallEnv (KeepsAll smallEnv) (initState (smallKern (eightSlots 0)) 1) es s ∧
      placeAt s (rootFrame smallEnv.cr3) 0x1000001 = .slot 0 ∧
      ∃ s', userRead smallEnv 0x1000001000 s = .ok (9, s') := by
  have hres : (replayWhere (roomy smallEnv) smallEnv [.alloc 2 1, .alloc 3 1,
      .write 0x1000001000 9, .read 0x1000000000] ([], initState (smallKern (eightSlots 0)) 1)).map
        (fun r => (r.1.all keeps, lastWritten 0x1000001000 r.1,
          checkAddressRange r.2.map.memoryAllocations 0x1000001000,
          (asked smallEnv 0x1000001000 r.2).all fun t =>
            roomy smallEnv t && (pageReplacementClock smallEnv t).toOption.isSome,
          decide (placeAt r.2 (rootFrame smallEnv.cr3) 0x1000001 = .slot 0)))
      = some (true, 9, true, true, true) := by
    decide +kernel
  obtain ⟨⟨es, s⟩, hreplay, heq⟩ := Option.map_eq_some_iff.1 hres
  obtain ⟨hkeeps, heq⟩ := Prod.mk.inj heq
  obtain ⟨hlast, heq⟩ := Prod.mk.inj heq
  obtain ⟨hcov, heq⟩ := Prod.mk.inj heq
  obtain ⟨hask, hplace⟩ := Prod.mk.inj heq
  have hrun : Run smallEnv (KeepsAll smallEnv) _ es s :=
    (run_of_replayWhere (Q := Roomy smallEnv) (fun _ h _ => roomy_of_check h) _ .start
      hreplay).restrict fun ev hev => ne_free_of_keeps (List.all_eq_true.1 hkeeps ev hev)
  have htop : Open (topEntry (smallKern (eightSlots 0)).mem (rootFrame smallEnv.cr3)) := by
    decide +kernel
  have hspec := (paging_transparent (smallKern_unmapped _).1 (smallKern_none _) htop hrun).2
    0x1000001000 ((checkAddressRange_iff (run_partition hrun) _).1 hcov)
    (findsRoom_of_check hask)
  refine ⟨es, s, hrun, of_decide_eq_true hplace, ?_⟩
  rw [← show lastWritten 0x1000001000 es = 9 from hlast]
  exact hspec.1

/-- With every slot in use, the page that holds a 7 is evicted, and what is read back is the first
byte of the swap file. -/
theorem paging_not_transparent :
    Start smallEnv {1} (smallKern (eightSlots 0xff)) ∧
    (∀ a ∈ Region,
      tableNode (smallKern (eightSlots 0xff)).mem (rootFrame smallEnv.cr3) a 2 = none) ∧
    Open (topEntry (smallKern (eightSlots 0xff)).mem (rootFrame smallEnv.cr3)) ∧
    ∃ es s x byte earlier, Run smallEnv (fun es s ev => (∀ v, ev ≠ .free v) ∧
        AtEvictions smallEnv (fun s => HeadAbsent smallEnv s.mem) es s ev)
        (initState (smallKern (eightSlots 0xff)) 1) es s ∧
      es = .read x byte :: earlier ∧ byte = 0xff ∧ lastWritten x earlier = 7 := by
  have hres : (replayWhere (headAbsent smallEnv) smallEnv [.alloc 2 1, .alloc 3 1,
      .write 0x1000001000 7, .write 0x1000000000 9, .read 0x1000001000]
      ([], initState (smallKern (eightSlots 0xff)) 1)).map (fun r => (r.1.all keeps,
        match r.1 with
        | .read x byte :: earlier => decide (byte = 0xff ∧ lastWritten x earlier = 7)
        | _ => false)) = some (true, true) := by
    decide +kernel
  obtain ⟨⟨es, s⟩, hreplay, heq⟩ := Option.map_eq_some_iff.1 hres
  obtain ⟨hkeeps, hlast⟩ := Prod.mk.inj heq
  have hrun := run_of_replayWhere (Q := fun s => HeadAbsent smallEnv s.mem)
    (fun s' h _ => (headAbsent_iff s').1 h) _ .start hreplay
  have htop : Open (topEntry (smallKern (eightSlots 0xff)).mem (rootFrame smallEnv.cr3)) := by
    decide +kernel
  refine ⟨(smallKern_unmapped _).1, smallKern_none _, htop, es, s, ?_⟩
  dsimp only at hlast
  split at hlast
  · rename_i x byte earlier
    obtain ⟨hb, hl⟩ := of_decide_eq_true hlast
    exact ⟨x, byte, earlier, hrun.restrict fun ev hev =>
      ne_free_of_keeps (List.all_eq_true.1 hkeeps ev hev), rfl, hb, hl⟩
  · cases hlast

end OnDemand

end Petmem
