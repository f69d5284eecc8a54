import Petmem.Freeing
import Petmem.PoolRuns
import Petmem.RegionRuns

/-!
# Accesses of the process, and the invariant of its runs

An access of a petmem address is a page fault, where one is needed, followed by what the hardware
does: it sets bits in the entry of the page (`Accessed`), and a write changes one byte of its frame
(`Written`). Together with the effects of the handler and of a free this gives one description of
every step; `Ready`, the invariant the handler relies on, holds along every run in which the list
head does not resolve to a present page where the handler turns to the clock.
-/

namespace Petmem
namespace OnDemand

open ByteMemory RadixTree Pools Swap Regions Pte64

variable {env : Env} {s s' : State} {roots : Set ℕ} {Q : State → Prop} {r r' a b f g : ℕ} {w : Bool}

/-! ## The hardware's part -/

/-- The entry of a page that was accessed. -/
def accessedEntry (w : Bool) (e : Pte64) : Pte64 :=
  { e with accessed := true, dirty := e.dirty || w }

/-- The page at `a`, in frame `g` with its entry in the table in frame `f`, is accessed. -/
structure Accessed (roots : Set ℕ) (r a : ℕ) (w : Bool) (s s' : State) (f g : ℕ) : Prop where
  before : Owned s.toKern roots
  root : r ∈ roots
  region : a ∈ Region
  table : tableNode s.mem r a 3 = some f
  page : tableNode s.mem r a 4 = some g
  set : EntrySet s.mem f (tableIndex a 3) (accessedEntry w (pteAt s.mem f (tableIndex a 3))) s'.mem
  state : s' = { s with mem := s'.mem }

namespace Accessed

theorem pools (h : Accessed roots r a w s s' f g) : s'.pools = s.pools := by rw [h.state]

theorem outstanding (h : Accessed roots r a w s s' f g) : s'.outstanding = s.outstanding := by
  rw [h.state]

theorem file (h : Accessed roots r a w s s' f g) : s'.file = s.file := by rw [h.state]

theorem map (h : Accessed roots r a w s s' f g) : s'.map = s.map := by rw [h.state]

theorem owned_nodes (h : Accessed roots r a w s s' f g) :
    Owned s'.toKern roots ∧ SameNodes s.toKern s'.toKern roots := by
  obtain ⟨ho, hn⟩ := h.before.write_eq h.set (h.before.kept h.root h.region (by omega) h.table) (by
    have hc := (node_succ_of_eq h.table).symm.trans h.page
    obtain ⟨hp, hb⟩ := child_eq_some.1 hc
    show child s.mem f (tableIndex a 3) = if (pteAt s.mem f (tableIndex a 3)).present then
      some (pteAt s.mem f (tableIndex a 3)).base else none
    rw [hc, hp, hb, if_pos rfl])
  exact ⟨ho.congr rfl h.pools h.outstanding, hn⟩

/-- The dirty bit of the page may be set. -/
theorem leaf_page (h : Accessed roots r a w s s' f g) (hb : b ∈ Region)
    (hp : b / 4096 = a / 4096) :
    leaf s'.mem r b = (leaf s.mem r b).map fun e => { e with dirty := e.dirty || w } := by
  have hpath := (samePath_four_iff hb h.region).2 hp
  have hn : tableNode s'.mem r a 3 = some f :=
    (h.owned_nodes.2 r h.root a (.inl h.region) 3 (by omega)).trans h.table
  rw [leaf_congr hpath, leaf_congr (r := r) (m := s.mem) hpath, leaf_of_node hn,
    leaf_of_node h.table, h.set.entry]
  rfl

theorem leaf_other (h : Accessed roots r a w s s' f g) (hr' : r' ∈ roots) (hb : b ∈ Region)
    (hne : ¬ (r' = r ∧ b / 4096 = a / 4096)) : leaf s'.mem r' b = leaf s.mem r' b :=
  (leaf_of_path_ne h.before h.set h.root h.region h.table (by omega) hr' hb fun hc =>
    hne ⟨hc.1, (samePath_four_iff hb h.region).1 hc.2⟩).2

/-- The pages themselves are not touched. -/
theorem frames (h : Accessed roots r a w s s' f g) (hr' : r' ∈ roots) (hb : b ∈ Region) {c : ℕ}
    (hc : tableNode s.mem r' b 4 = some c) : SameFrame s.mem s'.mem c := by
  refine h.set.frames c (h.before.lt_limit hr' hb (le_refl _) hc) ?_
  rintro rfl
  exact h.before.table_ne_page h.root (.inl h.region) (by omega) h.table hr' hb hc

end Accessed

/-- The byte at `a`, in the page in frame `g`, becomes `byte`. -/
structure Written (roots : Set ℕ) (r a : ℕ) (byte : Byte) (s s' : State) (g : ℕ) : Prop where
  before : Owned s.toKern roots
  root : r ∈ roots
  region : a ∈ Region
  page : tableNode s.mem r a 4 = some g
  set : FrameSet s.mem g (fun i => if i = a % 4096 then byte else s.mem (frameVa g i)) s'.mem
  state : s' = { s with mem := s'.mem }

namespace Written

variable {byte : Byte}

theorem pools (h : Written roots r a byte s s' g) : s'.pools = s.pools := by rw [h.state]

theorem outstanding (h : Written roots r a byte s s' g) : s'.outstanding = s.outstanding := by
  rw [h.state]

theorem file (h : Written roots r a byte s s' g) : s'.file = s.file := by rw [h.state]

theorem map (h : Written roots r a byte s s' g) : s'.map = s.map := by rw [h.state]

theorem ne_page (h : Written roots r a byte s s' g) (hr' : r' ∈ roots) (hb : b ∈ Region) {ℓ c : ℕ}
    (hℓ : ℓ ≤ 3) (hc : tableNode s.mem r' b ℓ = some c) : c ≠ g := by
  rintro rfl
  exact h.before.table_ne_page hr' (.inl hb) hℓ hc h.root h.region h.page

theorem owned_nodes (h : Written roots r a byte s s' g) :
    Owned s'.toKern roots ∧ SameNodes s.toKern s'.toKern roots := by
  have hg := h.before.held r h.root a h.region 4 (by omega) (le_refl _) g h.page
  obtain ⟨ho, hn⟩ := h.before.fill h.set hg fun r' hr' b hb ℓ hℓ hc => h.ne_page hr' hb hℓ hc rfl
  exact ⟨ho.congr rfl h.pools h.outstanding, hn⟩

theorem leaf_eq (h : Written roots r a byte s s' g) (hr' : r' ∈ roots) (hb : b ∈ Region) :
    leaf s'.mem r' b = leaf s.mem r' b := by
  refine leaf_eq_of_pteAt (h.owned_nodes.2 r' hr' b (.inl hb) 3 (by omega)) fun c hc => ?_
  have hlt := h.before.lt_limit hr' hb (by omega) hc
  rw [(h.set.frames c hlt (h.ne_page hr' hb (by omega) hc)).pteAt hlt (tableIndex_lt _ _)]

end Written

theorem translate_spec {m : Mem} {cr3 : ℕ} (ha : a ∈ Region) (h : translate m cr3 a w = some g) :
    tableNode m (rootFrame cr3) a 4 = some g := by
  have h0 := region_index_zero ha
  cases h4 : tableNode m (rootFrame cr3) a 4 with
  | none =>
    unfold translate at h
    rw [walk_of_node_none h0 h4] at h
    cases h
  | some c =>
    obtain ⟨f₁, f₂, f₃, h1, h2, h3⟩ := exists_tables h4
    unfold translate at h
    rw [walk_of_node h0 h1 h2 h3 h4] at h
    dsimp only at h
    split at h
    · rw [← Option.some.inj h]
      exact congrArg some (child_eq_some.1 ((node_succ_of_eq h3).symm.trans h4)).2.symm
    · cases h

theorem markAccess_spec (h : Owned s.toKern roots) (hr : rootFrame env.cr3 ∈ roots)
    (ha : a ∈ Region)
    (hg : tableNode s.mem (rootFrame env.cr3) a 4 = some g) :
    ∃ f, Accessed roots (rootFrame env.cr3) a w s
      { s with mem := markAccess s.mem env.cr3 a w } f g := by
  obtain ⟨f, h3⟩ := exists_node_of_le hg (show 3 ≤ 4 by omega)
  have hva := getValidPageEntry_of_some (region_index_zero ha) h3 hg
  have hset := entrySet_writePte s.mem (accessedEntry w (pteAt s.mem f (tableIndex a 3)))
    (h.lt_limit hr ha (by omega) h3) (tableIndex_lt a 3)
  refine ⟨f, h, hr, ha, h3, hg, ?_, rfl⟩
  unfold markAccess
  dsimp only
  rw [hva]
  exact hset

theorem frameSet_update (m : Mem) {i : ℕ} (byte : Byte) (hg : g < frameLimit) (hi : i < 4096) :
    FrameSet m g (fun j => if j = i then byte else m (frameVa g j))
      (Function.update m (frameVa g i) byte) where
  filled j hj := by
    by_cases hji : j = i
    · subst hji
      rw [Function.update_self, if_pos rfl]
    · rw [if_neg hji, Function.update_of_ne]
      exact fun he => hji (frameVa_inj hg hj hg hi he).2
  frames c hc hne j hj := Function.update_of_ne (fun he => hne (frameVa_inj hc hj hg hi he).1) _ _
  bytes x hx := Function.update_of_ne (hx i hi) _ _

/-! ## Accesses -/

/-- The page fault of an access, where there is one. -/
theorem faultIn_spec (h : Ready env roots Q s) (hQ : ∀ s', RunsOut env a s s' → Q s')
    (hrun : faultIn env a s = .ok s') : s' = s ∨
      (checkAddressRange s.map.memoryAllocations a = true ∧ Faulted env roots Q a s s') := by
  unfold faultIn at hrun
  split at hrun
  · obtain ⟨⟨ret, s₁⟩, h1, hrun⟩ := bind_eq_ok.1 hrun
    rcases petmemHandlePagefault_spec h (fun _ => hQ) h1 with ⟨rfl, -⟩ | ⟨rfl, hrange, -, hf⟩
    · cases hrun
    · rw [← Except.ok.inj hrun]
      exact .inr ⟨hrange, hf⟩
  · exact .inl (Except.ok.inj hrun).symm

/-- The page faults leave the process ready for the next one. -/
theorem Faulted.ready (h : Faulted env roots Q a s s') (hr : Ready env roots Q s) :
    Ready env roots Q s' := by
  cases h with
  | resident hp _ => exact hp.ready hr
  | fresh hp _ hg =>
    have h1 := hp.ready hr
    exact ⟨hg.owned, h1.root, by rw [hg.map]; exact h1.list, h1.head⟩
  | swapIn hp _ _ _ _ he _ hg =>
    have h1 := ((hp.ready hr).swap _).eased he
    exact ⟨hg.owned, h1.root, by rw [hg.map]; exact h1.list, h1.head⟩

/-- Page faults leave the region list alone. -/
theorem Pages.list (h : Pages env roots Q a s s') :
    s'.map.memoryAllocations = s.map.memoryAllocations := by
  refine h.induct (P := fun s' => s'.map.memoryAllocations = s.map.memoryAllocations) rfl
    (fun s₁ s₂ v f g slot ih _ hev => ?_) fun s₁ s₂ ℓ f g e ih _ hg _ => ?_
  · rw [hev.list, ih]
  · rw [hg.map, ih]

theorem Faulted.list (h : Faulted env roots Q a s s') :
    s'.map.memoryAllocations = s.map.memoryAllocations := by
  cases h with
  | resident hp _ => exact hp.list
  | fresh hp _ hg => rw [hg.map, hp.list]
  | swapIn hp _ _ _ _ he _ hg => rw [hg.map, he.list, hp.list]

/-- An access is a fault, if need be, and the hardware's part. -/
theorem userAccess_spec (h : Ready env roots Q s) (ha : a ∈ Region)
    (hQ : ∀ s', RunsOut env a s s' → Q s') (hrun : userAccess env a w s = .ok (g, s')) :
    ∃ s₁ f, (s₁ = s ∨ (checkAddressRange s.map.memoryAllocations a = true ∧
        Faulted env roots Q a s s₁)) ∧
      Accessed roots (rootFrame env.cr3) a w s₁ s' f g := by
  unfold userAccess at hrun
  obtain ⟨s₁, h1, hrun⟩ := bind_eq_ok.1 hrun
  have hcase := faultIn_spec h hQ h1
  have hr₁ : Ready env roots Q s₁ := by
    rcases hcase with rfl | ⟨-, hf⟩
    · exact h
    · exact hf.ready h
  split at hrun
  · cases hrun
  · rename_i c htr
    obtain ⟨rfl, rfl⟩ := Prod.mk.inj (Except.ok.inj hrun)
    obtain ⟨f, hacc⟩ := markAccess_spec hr₁.owned hr₁.root ha (translate_spec ha htr)
    exact ⟨s₁, f, hcase, hacc⟩

theorem userRead_spec (h : Ready env roots Q s) (ha : a ∈ Region)
    (hQ : ∀ s', RunsOut env a s s' → Q s') {byte : Byte}
    (hrun : userRead env a s = .ok (byte, s')) :
    ∃ s₁ f g, (s₁ = s ∨ (checkAddressRange s.map.memoryAllocations a = true ∧
        Faulted env roots Q a s s₁)) ∧
      Accessed roots (rootFrame env.cr3) a false s₁ s' f g ∧
      byte = s'.mem (frameVa g (a % 4096)) := by
  unfold userRead at hrun
  obtain ⟨⟨g, s₂⟩, h1, hrun⟩ := bind_eq_ok.1 hrun
  obtain ⟨rfl, rfl⟩ := Prod.mk.inj (Except.ok.inj hrun)
  obtain ⟨s₁, f, hcase, hacc⟩ := userAccess_spec h ha hQ h1
  exact ⟨s₁, f, g, hcase, hacc, rfl⟩

theorem userWrite_spec (h : Ready env roots Q s) (ha : a ∈ Region)
    (hQ : ∀ s', RunsOut env a s s' → Q s') {byte : Byte}
    (hrun : userWrite env a byte s = .ok s') :
    ∃ s₁ s₂ f g, (s₁ = s ∨ (checkAddressRange s.map.memoryAllocations a = true ∧
        Faulted env roots Q a s s₁)) ∧
      Accessed roots (rootFrame env.cr3) a true s₁ s₂ f g ∧
      Written roots (rootFrame env.cr3) a byte s₂ s' g := by
  unfold userWrite at hrun
  obtain ⟨⟨g, s₂⟩, h1, hrun⟩ := bind_eq_ok.1 hrun
  obtain ⟨s₁, f, hcase, hacc⟩ := userAccess_spec h ha hQ h1
  rw [← Except.ok.inj hrun]
  obtain ⟨ho, hn⟩ := hacc.owned_nodes
  have hg : tableNode s₂.mem (rootFrame env.cr3) a 4 = some g :=
    (hn _ h.root a (.inl ha) 4 (le_refl _)).trans hacc.page
  exact ⟨s₁, s₂, f, g, hcase, hacc, ho, h.root, ha, hg,
    frameSet_update _ byte (ho.lt_limit h.root ha (le_refl _) hg) (Nat.mod_lt _ (by norm_num)), rfl⟩

/-! ## Frees -/

/-- The effect of `petmem_free_vspace` on a region: its pages are given up, and its node is merged
with its free neighbours. -/
structure Released (env : Env) (roots : Set ℕ) (vaddr : ℕ) (s s' : State) (p : Position) :
    Prop where
  found : IsLastAt vaddr s.map.memoryAllocations p
  start : p.found.pageAddr ∈ Region
  list : ∃ pre x reg y post, s'.map.memoryAllocations = pre ++ reg :: post ∧
    Coalesced p pre x reg y post
  map : s'.map = { s.map with memoryAllocations := s'.map.memoryAllocations }
  kern : s'.toKern = { s.toKern with mem := s'.mem }
  pruned : Pruned roots (rootFrame env.cr3) s.toKern s'.mem
  dropped : DroppedAll (leaf s.mem (rootFrame env.cr3)) (leaf s'.mem (rootFrame env.cr3))
    (pagesFrom p.found.pageAddr p.found.size)

theorem petmemFreeVspace_released (h : Ready env roots Q s)
    (hrun : petmemFreeVspace env a s = .ok s') :
    (s' = s ∧ ∀ reg ∈ s.map.memoryAllocations, reg.pageAddr ≠ a) ∨
      ∃ p, Released env roots a s s' p := by
  rcases petmemFreeVspace_cases hrun with hnone | ⟨p, k, l', hp, hfree, hco, rfl⟩
  · exact .inl hnone
  · obtain ⟨pre, x, reg, y, post, hl, hc⟩ := coalesce_cases h.list hp hco
    have hstart : p.found.pageAddr ∈ Region := starts_subset h.list ⟨p.found, hp.mem, rfl⟩
    obtain ⟨m', hrun', hpr, hd⟩ := freeRange_spec h.root hstart (List.range p.found.size) h.owned
    obtain rfl := Except.ok.inj (hfree.symm.trans hrun')
    exact .inr ⟨p, hp, hstart, ⟨pre, x, reg, y, post, hl, hc⟩, rfl, rfl, hpr, hd⟩

/-- A free returns where the list head does not read as a free region. -/
theorem Ready.free_returns (h : Ready env roots Q s) (hhead : env.head.status ≠ FREE) (a : ℕ) :
    ∃ s', petmemFreeVspace env a s = .ok s' := by
  refine petmemFreeVspace_of_loop hhead h.list fun p hfind => ?_
  have hstart : p.found.pageAddr ∈ Region :=
    starts_subset h.list ⟨p.found, (isLastAt_of_findRegion hfind).mem, rfl⟩
  obtain ⟨m', hfree, -⟩ := freeRange_spec h.root hstart (List.range p.found.size) h.owned
  exact ⟨_, hfree⟩

theorem Released.ready {p : Position} (h : Released env roots a s s' p) (hr : Ready env roots Q s) :
    Ready env roots Q s' := by
  obtain ⟨pre, x, reg, y, post, hl, hc⟩ := h.list
  refine ⟨h.pruned.owned.congr rfl ?_ ?_, hr.root, ?_, hr.head⟩
  · rw [h.kern]
  · rw [h.kern]
  · rw [hl]
    exact hc.partition h.found hr.list

/-! ## Runs -/

/-- Wherever the step runs out of frames, `Q` holds; accesses are to the petmem region. -/
def AtEvictions (env : Env) (Q : State → Prop) (_ : List Event) (s : State) : Event → Prop
  | .fault a errorCode => errorCode ≠ errorPermission → ∀ s', RunsOut env a s s' → Q s'
  | .read a _ => a ∈ Region ∧ ∀ s', RunsOut env a s s' → Q s'
  | .write a _ => a ∈ Region ∧ ∀ s', RunsOut env a s s' → Q s'
  | _ => True

/-- What one step of the process is made of. -/
inductive StepCase (env : Env) (roots : Set ℕ) (Q : State → Prop) (s : State) :
    Event → State → Prop
  | alloc {newNode n : ℕ} : newNode ∉ s.map.memoryAllocations.map VaddrReg.node →
      StepCase env roots Q s (.alloc (petmemAllocVspace newNode n s).1 n)
        (petmemAllocVspace newNode n s).2
  | freeNone {a : ℕ} : (∀ reg ∈ s.map.memoryAllocations, reg.pageAddr ≠ a) →
      StepCase env roots Q s (.free a) s
  | free {a : ℕ} {s' : State} {p : Position} : Released env roots a s s' p →
      StepCase env roots Q s (.free a) s'
  | refused {a code : ℕ} : StepCase env roots Q s (.fault a code) s
  | fault {a code : ℕ} {s' : State} : checkAddressRange s.map.memoryAllocations a = true →
      a ∈ Region → Faulted env roots Q a s s' → StepCase env roots Q s (.fault a code) s'
  | read {a f g : ℕ} {byte : Byte} {s₁ s' : State} : a ∈ Region →
      s₁ = s ∨ (checkAddressRange s.map.memoryAllocations a = true ∧ Faulted env roots Q a s s₁) →
      Accessed roots (rootFrame env.cr3) a false s₁ s' f g →
      byte = s'.mem (frameVa g (a % 4096)) → StepCase env roots Q s (.read a byte) s'
  | write {a f g : ℕ} {byte : Byte} {s₁ s₂ s' : State} : a ∈ Region →
      s₁ = s ∨ (checkAddressRange s.map.memoryAllocations a = true ∧ Faulted env roots Q a s s₁) →
      Accessed roots (rootFrame env.cr3) a true s₁ s₂ f g →
      Written roots (rootFrame env.cr3) a byte s₂ s' g → StepCase env roots Q s (.write a byte) s'

theorem step_cases {es : List Event} {ev : Event} (h : Ready env roots Q s)
    (hok : AtEvictions env Q es s ev) (hstep : Step env s ev s') :
    StepCase env roots Q s ev s' := by
  cases hstep with
  | alloc hnew => exact .alloc hnew
  | free hrun =>
    rcases petmemFreeVspace_released h hrun with ⟨rfl, hnone⟩ | ⟨p, hrel⟩
    · exact .freeNone hnone
    · exact .free hrel
  | fault hrun =>
    rcases petmemHandlePagefault_spec h hok hrun with ⟨-, rfl⟩ | ⟨-, hrange, ha, hf⟩
    · exact .refused
    · exact .fault hrange ha hf
  | read hrun =>
    obtain ⟨s₁, f, g, hcase, hacc, hbyte⟩ := userRead_spec h hok.1 hok.2 hrun
    exact .read hok.1 hcase hacc hbyte
  | write hrun =>
    obtain ⟨s₁, s₂, f, g, hcase, hacc, hw⟩ := userWrite_spec h hok.1 hok.2 hrun
    exact .write hok.1 hcase hacc hw

theorem StepCase.ready {ev : Event} (h : StepCase env roots Q s ev s') (hr : Ready env roots Q s) :
    Ready env roots Q s' := by
  have haccess : ∀ {a f g : ℕ} {w : Bool} {s₁ s₂ : State}, (s₁ = s ∨
      (checkAddressRange s.map.memoryAllocations a = true ∧ Faulted env roots Q a s s₁)) →
      Accessed roots (rootFrame env.cr3) a w s₁ s₂ f g → Ready env roots Q s₂ := by
    intro a f g w s₁ s₂ hcase hacc
    have hr₁ : Ready env roots Q s₁ := by
      rcases hcase with rfl | ⟨-, hf⟩
      · exact hr
      · exact hf.ready hr
    exact ⟨hacc.owned_nodes.1, hr.root, by rw [hacc.map]; exact hr₁.list, hr.head⟩
  cases h with
  | alloc hnew => exact ⟨hr.owned, hr.root, hr.list.allocate hnew, hr.head⟩
  | freeNone => exact hr
  | free hrel => exact hrel.ready hr
  | refused => exact hr
  | fault _ _ hf => exact hf.ready hr
  | read _ hcase hacc _ => exact haccess hcase hacc
  | write _ hcase hacc hw =>
    have h2 := haccess hcase hacc
    exact ⟨hw.owned_nodes.1, hr.root, by rw [hw.map]; exact h2.list, hr.head⟩

/-- The process starts with its page tables in order. -/
structure Start (env : Env) (roots : Set ℕ) (k : Kern) : Prop where
  owned : Owned k roots
  root : rootFrame env.cr3 ∈ roots

/-- A page table with nothing mapped in and around the petmem region, where no other is known. -/
theorem joins_of_unmapped {k : Kern} (hr : Foreign k r)
    (hpdp : ∀ f, child k.mem r 0 = some f → Foreign k f ∧ f ≠ r)
    (hnone : ∀ a ∈ Region ∪ Side, tableNode k.mem r a 2 = none) : Joins k ∅ r := by
  have hno : ∀ f, ¬ InTables k ∅ f := fun _ ⟨_, hr, _⟩ => hr
  have hbelow : ∀ a ∈ Side, ∀ ℓ f, 2 ≤ ℓ → tableNode k.mem r a ℓ ≠ some f := by
    intro a ha ℓ f hℓ hf
    have hnone : tableNode k.mem r a ℓ = none := node_eq_none_of_le (hnone a (.inr ha)) hℓ
    cases hnone.symm.trans hf
  exact ⟨hr, hno r, fun f hf => ⟨(hpdp f hf).1, (hpdp f hf).2, hno f⟩,
    fun a ha => hnone a (.inl ha), fun a ha ℓ h2 _ f hf => absurd hf (hbelow a ha ℓ f h2),
    fun a ha f hf => absurd hf (hbelow a ha 4 f (by omega))⟩

/-- The tables of a process that has nothing mapped in and around the petmem region. -/
theorem owned_of_unmapped {k : Kern} (hp : PoolsInv k) (hr : Foreign k r)
    (hpdp : ∀ f, child k.mem r 0 = some f → Foreign k f ∧ f ≠ r)
    (hnone : ∀ a ∈ Region ∪ Side, tableNode k.mem r a 2 = none) : Owned k {r} := by
  have ho := (owned_empty hp).insert (joins_of_unmapped hr hpdp hnone)
  rwa [insert_empty_eq] at ho

/-- The frames can be added. -/
theorem wideKern_added {n : ℕ} (hn : n < 2 ^ 19) (file : SwapFile) :
    Pools.addMemory 0x10000 n ⟨smallMem, [], file, []⟩ = .ok (wideKern n file) ∧
      PoolsInv (wideKern n file) ∧ ∀ f < 16, Foreign (wideKern n file) f ∧
        SameFrame smallMem (wideKern n file).mem f := by
  have hempty : PoolsInv ⟨smallMem, [], file, []⟩ := ⟨by simp, by simp, by simp, by simp⟩
  have hrange : RangeOk ⟨smallMem, [], file, []⟩ 0x10000 n :=
    ⟨hn, by norm_num, by norm_num, by unfold physLimit; omega, by simp [RangeClear]⟩
  obtain ⟨k, hrun, hadd⟩ := addMemory_spec hempty hrange
  have hk : wideKern n file = k := by
    unfold wideKern
    rw [hrun]
  rw [hk]
  refine ⟨hrun, hadd.inv, fun f hf => ?_⟩
  have hlim : f < frameLimit := by
    unfold frameLimit
    omega
  refine ⟨⟨hlim, fun mp hmp hc => ?_⟩, fun i hi => hadd.mem _ fun hin => ?_⟩
  · rcases (hadd.covers (f * 4096)).1 ⟨mp, hmp, hc⟩ with ⟨_, hm, -⟩ | ⟨hin, -⟩
    · cases hm
    · omega
  · -- the frames below the range are as they were
    rw [frameVa_eq hlim hi] at hin
    have := hin.1
    omega

/-- Where the lowest frames are those of `smallMem`, its process has nothing mapped. -/
theorem smallMem_tables {k : Kern}
    (hlow : ∀ f < 16, Foreign k f ∧ SameFrame smallMem k.mem f) :
    child k.mem 1 0 = some 2 ∧ ∀ a ∈ Region ∪ Side, tableNode k.mem 1 a 2 = none := by
  have hlim : ∀ f < 16, f < frameLimit := fun f hf => (hlow f hf).1.1
  have hset := entrySet_writePte (fun _ => 0) { Pte64.zero with
    present := true, writable := true, userPage := true, pageBaseAddr := 2 } (hlim 1 (by omega))
    (show 0 < 512 by omega)
  have hroot : child k.mem 1 0 = some 2 := by
    rw [child_eq_some, (hlow 1 (by omega)).2.pteAt (hlim 1 (by omega)) (by omega),
      show pteAt smallMem 1 0 = _ from hset.entry]
    exact ⟨rfl, rfl⟩
  refine ⟨hroot, fun a ha => ?_⟩
  have h1 : tableNode k.mem 1 a 1 = some 2 := by
    rw [← hroot, ← index_zero ha]
    rfl
  rw [show tableNode k.mem 1 a 2 = child k.mem 2 (tableIndex a 1) from node_succ_of_eq h1,
    child_eq_none, (hlow 2 (by omega)).2.pteAt (hlim 2 (by omega)) (tableIndex_lt _ _),
    show pteAt smallMem 2 (tableIndex a 1) = _ from
      hset.others 2 _ (hlim 2 (by omega)) (tableIndex_lt _ _) (by omega),
    pteAt_of_zero (hlim 2 (by omega)) (tableIndex_lt _ _) fun _ _ => rfl]
  rfl

/-- Its page table is its own. -/
theorem smallMem_joins {k : Kern}
    (hlow : ∀ f < 16, Foreign k f ∧ SameFrame smallMem k.mem f) : Joins k ∅ 1 := by
  obtain ⟨hroot, hnone⟩ := smallMem_tables hlow
  refine joins_of_unmapped (hlow 1 (by omega)).1 (fun f hf => ?_) hnone
  obtain rfl := Option.some.inj (hroot.symm.trans hf)
  exact ⟨(hlow 2 (by omega)).1, by omega⟩

/-- The process of `smallMem` starts with its page tables in order. -/
theorem wideKern_unmapped {n : ℕ} (hn : n < 2 ^ 19) (file : SwapFile) :
    Start smallEnv {1} (wideKern n file) ∧
      ∀ a ∈ Region ∪ Side, tableNode (wideKern n file).mem 1 a 2 = none := by
  obtain ⟨-, hp, hlow⟩ := wideKern_added hn file
  have ho := (owned_empty hp).insert (smallMem_joins hlow)
  rw [insert_empty_eq] at ho
  exact ⟨⟨ho, by decide⟩, (smallMem_tables hlow).2⟩

theorem smallKern_unmapped (file : SwapFile) :
    Start smallEnv {1} (smallKern file) ∧
      ∀ a ∈ Region ∪ Side, tableNode (smallKern file).mem 1 a 2 = none :=
  wideKern_unmapped (by norm_num) file

variable {k : Kern} {node : ℕ} {es : List Event}

/-- Along a run the handler finds what it relies on. -/
theorem run_ready {ok : List Event → State → Event → Prop} (hs : Start env roots k)
    (hhead : ∀ s, Q s → HeadAbsent env s.mem)
    (hok : ∀ es s ev, ok es s ev → AtEvictions env Q es s ev)
    (h : Run env ok (initState k node) es s) : Ready env roots Q s := by
  refine h.induct (P := fun _ s => Ready env roots Q s)
    ⟨hs.owned, hs.root, partition_initRegions node, hhead⟩ fun es s ev s' hr hk hstep => ?_
  exact (step_cases hr (hok es s ev hk) hstep).ready hr

/-! ## Runs that never run out of frames -/

/-- The states in which the handler asks for a frame. -/
def asked (env : Env) (a : ℕ) (s : State) : List State :=
  (if (readPte s.mem (pml4Entry env a)).present then [] else [s]) ++
  match pml4Stage env a s with
  | .error _ => []
  | .ok s₁ =>
    (if (readPte s₁.mem (pdpEntry env a s₁.mem)).present then [] else [s₁]) ++
    match tableStage env (pdpEntry env a s₁.mem) s₁ with
    | .error _ => []
    | .ok s₂ =>
      (if (readPte s₂.mem (pdEntry env a s₂.mem)).present then [] else [s₂]) ++
      match tableStage env (pdEntry env a s₂.mem) s₂ with
      | .error _ => []
      | .ok s₃ =>
        let pte := readPte s₃.mem (ptEntry env a s₃.mem)
        if pte.present then []
        else if pte.dirty then
          match swapInPage (pte.base % 2 ^ 32) s₃.map.swap s₃.file with
          | .error _ => []
          | .ok (_, swap) => [{ s₃ with map := { s₃.map with swap } }]
        else [s₃]

/-- Whether the pools have no free page. -/
def isOut (k : Kern) : Bool :=
  match petmemAllocPages 1 k with
  | .ok (p, _) => p = 0
  | .error _ => false

theorem mem_asked (h : Asks env a s s') : s' ∈ asked env a s := by
  cases h with
  | pml4 hp => simp [asked, hp]
  | pdp h1 hp => simp [asked, h1, hp]
  | pd h1 h2 hp => simp [asked, h1, h2, hp]
  | page h1 h2 h3 hp hd => simp [asked, h1, h2, h3, hp, hd]
  | swapIn h1 h2 h3 hp hd hin =>
    simp only [asked, h1, h2, h3, hp, hd, hin]
    simp

/-- The operation asks for frames only where `q` holds, and accesses the petmem region. -/
def askedAll (q : State → Bool) (env : Env) (s : State) : Op → Bool
  | .fault a _ => (asked env a s).all q
  | .read a => petmemRegionStart ≤ a && a < petmemRegionEnd && (asked env a s).all q
  | .write a _ => petmemRegionStart ≤ a && a < petmemRegionEnd && (asked env a s).all q
  | _ => true

/-- The operation does not run out of frames, and accesses the petmem region. -/
def calm (env : Env) (s : State) (op : Op) : Bool := askedAll (fun s => !isOut s.toKern) env s op

/-- Operations in order, when all of them come back and ask for frames where `q` holds. -/
def replayWhere (q : State → Bool) (env : Env) :
    List Op → List Event × State → Option (List Event × State) :=
  replayIf (fun _ s op _ => askedAll q env s op) env

/-- Operations in order, when all of them come back and none of them runs out of frames. -/
def replayCalm (env : Env) : List Op → List Event × State → Option (List Event × State) :=
  replayWhere (fun s => !isOut s.toKern) env

theorem not_runsOut (h : (asked env a s).all (fun s => !isOut s.toKern) = true) :
    ¬ RunsOut env a s s' := by
  rintro ⟨-, hasks, k', hout⟩
  have := List.all_eq_true.1 h s' (mem_asked hasks)
  simp [isOut, hout] at this

theorem atEvictions_of_askedAll {q : State → Bool} {op : Op} {ev : Event} {es : List Event}
    (hq : ∀ s', q s' = true → OutOfFrames s'.toKern → Q s')
    (h : askedAll q env s op = true) (hp : perform env s op = some (ev, s')) :
    AtEvictions env Q es s ev := by
  have hout : ∀ {a : ℕ}, (asked env a s).all q = true → ∀ s', RunsOut env a s s' → Q s' :=
    fun hall s' hr => hq s' (List.all_eq_true.1 hall _ (mem_asked hr.asks)) hr.out
  cases op with
  | alloc newNode numPages =>
    simp only [perform] at hp
    split at hp
    · cases hp
    · cases hp
      trivial
  | free vaddr =>
    obtain ⟨x, -, heq⟩ := Option.map_eq_some_iff.1 hp
    cases heq
    trivial
  | fault addr errorCode =>
    obtain ⟨x, -, heq⟩ := Option.map_eq_some_iff.1 hp
    cases heq
    exact fun _ => hout h
  | read addr =>
    obtain ⟨x, -, heq⟩ := Option.map_eq_some_iff.1 hp
    cases heq
    simp only [askedAll, Bool.and_eq_true, decide_eq_true_eq] at h
    exact ⟨h.1, hout h.2⟩
  | write addr b =>
    obtain ⟨x, -, heq⟩ := Option.map_eq_some_iff.1 hp
    cases heq
    simp only [askedAll, Bool.and_eq_true, decide_eq_true_eq] at h
    exact ⟨h.1, hout h.2⟩

theorem run_of_replayWhere {q : State → Bool}
    (hq : ∀ s', q s' = true → OutOfFrames s'.toKern → Q s') {s₀ : State} (ops : List Op)
    {es es' : List Event} {s s' : State} (hrun : Run env (AtEvictions env Q) s₀ es s)
    (h : replayWhere q env ops (es, s) = some (es', s')) :
    Run env (AtEvictions env Q) s₀ es' s' :=
  run_of_replayIf (fun _ _ _ _ _ hall hop => atEvictions_of_askedAll hq hall hop) ops hrun h

theorem not_out_of_calm {s' : State} (h : (!isOut s'.toKern) = true)
    (hout : OutOfFrames s'.toKern) : Q s' := by
  obtain ⟨k', hk⟩ := hout
  simp [isOut, hk] at h

theorem run_of_replayCalm {s₀ : State} (ops : List Op) {es es' : List Event} {s s' : State}
    (hrun : Run env (AtEvictions env Q) s₀ es s)
    (h : replayCalm env ops (es, s) = some (es', s')) :
    Run env (AtEvictions env Q) s₀ es' s' :=
  run_of_replayWhere (fun _ => not_out_of_calm) ops hrun h

/-- The list head, read as a region, does not resolve to a present page. -/
def headAbsent (env : Env) (s : State) : Bool := (walk s.mem env.cr3 env.head.pageAddr).isNone

theorem headAbsent_iff (s : State) : headAbsent env s = true ↔ HeadAbsent env s.mem :=
  Option.isNone_iff_eq_none

/-- The event frees nothing. -/
def keeps : Event → Bool
  | .free _ => false
  | _ => true

theorem ne_free_of_keeps {ev : Event} (h : keeps ev = true) (v : ℕ) : ev ≠ .free v := by
  rintro rfl
  cases h

theorem wideKern_none {n : ℕ} (hn : n < 2 ^ 19) (file : SwapFile) :
    ∀ a ∈ Region, tableNode (wideKern n file).mem (rootFrame smallEnv.cr3) a 2 = none := by
  intro a ha
  rw [show rootFrame smallEnv.cr3 = 1 by decide]
  exact (wideKern_unmapped hn file).2 a (.inl ha)

theorem smallKern_none (file : SwapFile) :
    ∀ a ∈ Region, tableNode (smallKern file).mem (rootFrame smallEnv.cr3) a 2 = none :=
  wideKern_none (by norm_num) file

end OnDemand

end Petmem
