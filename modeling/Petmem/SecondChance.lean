import Petmem.Clock

/-!
# Second-chance replacement

The exact effect of `page_replacement_clock` on a page table that is a tree. The regions after the
clock hand, up to the hand itself, are looked at in list order; those whose first page is present
are candidates. The victim is the first candidate whose accessed bit is clear, and the first
candidate of all when every bit is set. The candidates the clock comes past before it chooses lose
their accessed bit, and no other bit of memory changes (`second_chance`).
-/

namespace Petmem
namespace OnDemand

open ByteMemory RadixTree Pools Regions Pte64

variable {cr3 : ℕ} {hand : Option ℕ} {m m' : Mem} {items xs ys : List (Option ℕ × VaddrReg)}

/-! ## Coming past pages -/

/-- The accessed bits of the entries in `E` are cleared, and all other words are as they were. -/
def Cleared (E : List ℕ) (m m' : Mem) : Prop :=
  ∀ x, 8 ∣ x → readPte m' x
    = if x ∈ E then { readPte m x with accessed := false } else readPte m x

/-- The entries of the pages in memory that the clock comes past. -/
def entries (cr3 : ℕ) (m : Mem) (items : List (Option ℕ × VaddrReg)) : List ℕ :=
  (items.map fun it => getValidPageEntry m cr3 it.2.pageAddr).filter (· ≠ 0)

theorem entries_of_masked (h : SameMasked m m') : entries cr3 m' items = entries cr3 m items := by
  unfold entries
  simp only [getValidPageEntry_of_masked h]

theorem entries_dvd {x : ℕ} (hx : x ∈ entries cr3 m items) : 8 ∣ x := by
  obtain ⟨it, -, rfl⟩ := List.mem_map.1 (List.mem_filter.1 hx).1
  exact getValidPageEntry_dvd _ _ _

/-- One entry gets a second chance. -/
theorem cleared_writePte {page : ℕ} (hp : 8 ∣ page) :
    Cleared [page] m (writePte m page { readPte m page with accessed := false }) := by
  intro x hx
  by_cases heq : x = page
  · subst heq
    rw [if_pos (by simp)]
    unfold readPte writePte
    rw [read64_write64_same, Pte64.ofBits_toBits]
  · rw [if_neg (by simpa using heq)]
    unfold readPte writePte
    rw [read64_write64_disjoint]
    omega

theorem Cleared.trans {E E' : List ℕ} {m'' : Mem} (h : Cleared E m m') (h' : Cleared E' m' m'') :
    Cleared (E ++ E') m m'' := by
  intro x hx
  rw [h' x hx, h x hx]
  by_cases h1 : x ∈ E
  · by_cases h2 : x ∈ E'
    · simp [h1, h2]
    · simp [h1, h2]
  · by_cases h2 : x ∈ E'
    · simp [h1, h2]
    · simp [h1, h2]

/-- Pages that were accessed are passed, and the turn goes on behind them. -/
theorem clockScan_append (hand : Option ℕ) (ys : List (Option ℕ × VaddrReg)) :
    ∀ {m : Mem}, (entries cr3 m xs).Nodup →
    (∀ x ∈ entries cr3 m xs, (readPte m x).accessed = true) →
    ∃ m', SameMasked m m' ∧ Cleared (entries cr3 m xs) m m' ∧
      clockScan cr3 hand (xs ++ ys) m = clockScan cr3 hand ys m' := by
  induction xs with
  | nil => exact fun {m} _ _ => ⟨m, SameMasked.refl _, fun _ _ => by simp [entries], rfl⟩
  | cons it xs ih =>
    intro m hnodup hacc
    by_cases hpage : getValidPageEntry m cr3 it.2.pageAddr = 0
    · -- no page in memory
      have hent : entries cr3 m (it :: xs) = entries cr3 m xs := by simp [entries, hpage]
      rw [hent] at hnodup hacc ⊢
      obtain ⟨m', hmask, hclear, hrun⟩ := ih hnodup hacc
      refine ⟨m', hmask, hclear, ?_⟩
      rw [List.cons_append, clockScan]
      simp only [hpage, ne_eq, not_true_eq_false, if_false]
      exact hrun
    · have hent : entries cr3 m (it :: xs)
          = getValidPageEntry m cr3 it.2.pageAddr :: entries cr3 m xs := by simp [entries, hpage]
      have hdvd := getValidPageEntry_dvd m cr3 it.2.pageAddr
      rw [hent] at hnodup hacc ⊢
      rw [List.nodup_cons] at hnodup
      have hmask₁ : SameMasked m _ :=
        sameMasked_writePte (m := m) (getValidPageEntry_dvd m cr3 it.2.pageAddr) false
      have hclear₁ := cleared_writePte (m := m) hdvd
      have hent₁ : entries cr3 _ xs = entries cr3 m xs := entries_of_masked hmask₁
      -- the other entries are as they were
      obtain ⟨m', hmask, hclear, hrun⟩ := ih (by rw [hent₁]; exact hnodup.2) fun x hx => by
        rw [hent₁] at hx
        rw [hclear₁ x (entries_dvd hx), if_neg]
        · exact hacc x (List.mem_cons_of_mem _ hx)
        · rw [List.mem_singleton]
          rintro rfl
          exact hnodup.1 hx
      rw [hent₁] at hclear
      refine ⟨m', hmask₁.trans hmask, hclear₁.trans hclear, ?_⟩
      rw [List.cons_append, clockScan]
      simp only [ne_eq, hpage, not_false_eq_true, if_true, hacc _ List.mem_cons_self]
      exact hrun

/-- The page that is chosen. -/
theorem clockScan_cons {it : Option ℕ × VaddrReg}
    (hpage : getValidPageEntry m cr3 it.2.pageAddr ≠ 0)
    (hacc : (readPte m (getValidPageEntry m cr3 it.2.pageAddr)).accessed = false) :
    clockScan cr3 hand (it :: ys) m = (m, some ⟨getValidPageEntry m cr3 it.2.pageAddr,
      va ((readPte m (getValidPageEntry m cr3 it.2.pageAddr)).base <<< 12
        + physicalOffset it.2.pageAddr), nextNode hand ys⟩) := by
  rw [clockScan]
  simp only [ne_eq, hpage, not_false_eq_true, if_true, hacc, Bool.false_eq_true, if_false]

/-! ## The choice -/

/-- The first turn finds a page that was not accessed. -/
theorem clockScan_first (hand : Option ℕ) {it : Option ℕ × VaddrReg}
    (hnodup : (entries cr3 m (xs ++ it :: ys)).Nodup)
    (hpast : ∀ x ∈ entries cr3 m xs, (readPte m x).accessed = true)
    (hpage : getValidPageEntry m cr3 it.2.pageAddr ≠ 0)
    (hacc : (readPte m (getValidPageEntry m cr3 it.2.pageAddr)).accessed = false) :
    ∃ m', Cleared (entries cr3 m xs) m m' ∧ clockScan cr3 hand (xs ++ it :: ys) m
      = (m', some ⟨getValidPageEntry m cr3 it.2.pageAddr,
        va ((readPte m (getValidPageEntry m cr3 it.2.pageAddr)).base <<< 12
          + physicalOffset it.2.pageAddr), nextNode hand ys⟩) := by
  have hsplit : entries cr3 m (xs ++ it :: ys) = entries cr3 m xs ++
      getValidPageEntry m cr3 it.2.pageAddr :: entries cr3 m ys := by
    simp [entries, hpage]
  rw [hsplit, List.nodup_append] at hnodup
  obtain ⟨m', hmask, hclear, hrun⟩ := clockScan_append hand (it :: ys) hnodup.1 hpast
  have hsame : readPte m' (getValidPageEntry m cr3 it.2.pageAddr)
      = readPte m (getValidPageEntry m cr3 it.2.pageAddr) := by
    rw [hclear _ (getValidPageEntry_dvd _ _ _), if_neg]
    exact fun hmem => hnodup.2.2 _ hmem _ List.mem_cons_self rfl
  have hent := getValidPageEntry_of_masked hmask cr3 it.2.pageAddr
  refine ⟨m', hclear, ?_⟩
  rw [hrun, clockScan_cons (by rwa [hent]) (by rwa [hent, hsame]), hent, hsame]

/-- When all pages were accessed, the second turn takes the first of them. -/
theorem clockScan_second (hand : Option ℕ) {it : Option ℕ × VaddrReg}
    (hnodup : (entries cr3 m (xs ++ it :: ys)).Nodup)
    (hall : ∀ x ∈ entries cr3 m (xs ++ it :: ys), (readPte m x).accessed = true)
    (hfirst : entries cr3 m xs = []) (hpage : getValidPageEntry m cr3 it.2.pageAddr ≠ 0) :
    ∃ m₁ m', clockScan cr3 hand (xs ++ it :: ys) m = (m₁, none) ∧
      Cleared (entries cr3 m (xs ++ it :: ys)) m m' ∧ clockScan cr3 hand (xs ++ it :: ys) m₁
        = (m', some ⟨getValidPageEntry m cr3 it.2.pageAddr,
          va ((readPte m (getValidPageEntry m cr3 it.2.pageAddr)).base <<< 12
            + physicalOffset it.2.pageAddr), nextNode hand ys⟩) := by
  have hmem : getValidPageEntry m cr3 it.2.pageAddr ∈ entries cr3 m (xs ++ it :: ys) := by
    simp [entries, hpage]
  obtain ⟨m₁, hmask, hclear, hrun⟩ := clockScan_append hand [] hnodup hall
  rw [List.append_nil] at hrun
  have hent := getValidPageEntry_of_masked hmask cr3 it.2.pageAddr
  have hread : readPte m₁ (getValidPageEntry m cr3 it.2.pageAddr)
      = { readPte m (getValidPageEntry m cr3 it.2.pageAddr) with accessed := false } := by
    rw [hclear _ (getValidPageEntry_dvd _ _ _), if_pos hmem]
  have hnodup₁ : (entries cr3 m₁ (xs ++ it :: ys)).Nodup := by rwa [entries_of_masked hmask]
  obtain ⟨m', hclear', hrun'⟩ := clockScan_first hand hnodup₁
    (by
      rw [entries_of_masked hmask, hfirst]
      exact fun x hx => absurd hx List.not_mem_nil)
    (by rwa [hent]) (by rw [hent, hread])
  refine ⟨m₁, m', hrun, ?_, ?_⟩
  · have := hclear.trans hclear'
    rwa [entries_of_masked hmask, hfirst, List.append_nil] at this
  · rw [hrun', hent, hread]
    rfl

/-! ## The ring of regions -/

/-- The regions strictly after the clock hand in list order, up to the hand itself. -/
inductive After (l : List VaddrReg) : Option ℕ → List VaddrReg → Prop
  | head : After l none l
  | node {pre post : List VaddrReg} {y : VaddrReg} : l = pre ++ y :: post →
      After l (some y.node) (post ++ pre)

/-- The first page of the region is present. -/
def candidate (m : Mem) (cr3 : ℕ) (r : VaddrReg) : Bool := getValidPageEntry m cr3 r.pageAddr ≠ 0

/-- The accessed bit of the region's first page. -/
def accessedBit (m : Mem) (cr3 : ℕ) (r : VaddrReg) : Bool :=
  (readPte m (getValidPageEntry m cr3 r.pageAddr)).accessed

variable {head : VaddrReg} {l rs : List VaddrReg} {ring : List (Option ℕ × VaddrReg)}

theorem ringAfter_of_split {pre post : List VaddrReg} {y : VaddrReg}
    (hl : l = pre ++ y :: post) (hnodes : (l.map VaddrReg.node).Nodup) :
    ringAfter head l (some y.node) = some (post.map (fun r => (some r.node, r)) ++ (none, head) ::
      pre.map fun r => (some r.node, r)) := by
  have hpre : ∀ r ∈ pre, decide (r.node ≠ y.node) = true := by
    intro r hr
    rw [hl, List.map_append, List.nodup_append] at hnodes
    exact decide_eq_true (hnodes.2.2 _ (List.mem_map_of_mem hr) _ (by simp))
  rw [ringAfter, List.span_eq_takeWhile_dropWhile, hl, List.takeWhile_append_of_pos hpre,
    List.dropWhile_append_of_pos hpre]
  simp

/-- The candidates of the ring, in order. -/
theorem candidates_of_ringAfter (hafter : After l hand rs) (hnodes : (l.map VaddrReg.node).Nodup)
    (hhead : getValidPageEntry m cr3 head.pageAddr = 0) :
    ∃ ring, ringAfter head l hand = some ring ∧
      (ring.filter fun it => candidate m cr3 it.2).map Prod.snd = rs.filter (candidate m cr3) := by
  have hmap : ∀ l : List VaddrReg,
      ((l.map fun r => (some r.node, r)).filter fun it => candidate m cr3 it.2).map Prod.snd
        = l.filter (candidate m cr3) := by
    intro l
    rw [List.filter_map, List.map_map]
    exact List.map_id _
  cases hafter with
  | head => exact ⟨_, rfl, hmap l⟩
  | node hl =>
    refine ⟨_, ringAfter_of_split hl hnodes, ?_⟩
    rw [List.filter_append, List.filter_cons_of_neg (by simp [candidate, hhead]), List.map_append,
      hmap, hmap, List.filter_append]

/-- The item of a region in the ring. -/
def ringItem (r : VaddrReg) : Option ℕ × VaddrReg := (some r.node, r)

theorem mem_map_ringItem {r : VaddrReg} {c : List VaddrReg} : ringItem r ∈ c.map ringItem ↔ r ∈ c :=
  List.mem_map_of_injective fun _ _ h => (Prod.mk.inj h).2

theorem ringItem_ne_head {r : VaddrReg} : ringItem r ≠ (none, head) := by
  intro h
  cases (Prod.mk.inj h).1

theorem nextNode_map (hand : Option ℕ) (c : List VaddrReg) :
    nextNode hand (c.map ringItem) = if c = [] then hand else c.head?.map VaddrReg.node := by
  cases c with
  | nil => rfl
  | cons x c => rfl

/-- The node after the victim's. -/
theorem nextNode_of_ringAfter (hafter : After l hand rs) (hnodes : (l.map VaddrReg.node).Nodup)
    (hring : ringAfter head l hand = some ring) {r : VaddrReg}
    (hsplit : ring = xs ++ ringItem r :: ys) {a b : List VaddrReg} (hl : l = a ++ r :: b) :
    nextNode hand ys = b.head?.map VaddrReg.node := by
  have hnodup : ∀ {c d : List VaddrReg}, l = c ++ r :: d → r ∉ c ∧ r ∉ d := by
    intro c d hc
    have hnod := hnodes.of_map
    rw [hc, List.nodup_append, List.nodup_cons] at hnod
    exact ⟨fun hr => hnod.2.2 r hr r (by simp) rfl, hnod.2.1.1⟩
  have huniq : ∀ {c d : List VaddrReg}, l = c ++ r :: d → d = b := by
    intro c d hc
    have heq : c ++ r :: d = a ++ r :: b := hc.symm.trans hl
    exact ((List.append_cons_inj_of_notMem (hnodup hc).1 (hnodup hc).2).1 heq).2.2
  cases hafter with
  | head =>
    have hring : ring = l.map ringItem := (Option.some.inj hring).symm
    rw [hring, hl, List.map_append, List.map_cons, List.append_cons_inj_of_notMem
      (mt mem_map_ringItem.1 (hnodup hl).1) (mt mem_map_ringItem.1 (hnodup hl).2)] at hsplit
    rw [← hsplit.2.2, nextNode_map]
    split
    · rename_i hb
      rw [hb]
      rfl
    · rfl
  | @node pre post y hy =>
    rw [ringAfter_of_split hy hnodes] at hring
    have hring : ring = post.map ringItem ++ (none, head) :: pre.map ringItem :=
      (Option.some.inj hring).symm
    have hmem : ringItem r ∈ ring := by simp [hsplit]
    rw [hring, List.mem_append, List.mem_cons, mem_map_ringItem, mem_map_ringItem] at hmem
    rcases hmem with hmem | hmem | hmem
    · -- behind the hand
      obtain ⟨p, q, rfl⟩ := List.append_of_mem hmem
      have hlr : l = (pre ++ y :: p) ++ r :: q := by rw [hy]; simp
      obtain ⟨h1, h2⟩ := hnodup hlr
      simp only [List.mem_append, List.mem_cons, not_or] at h1
      rw [hring, List.map_append, List.map_cons, List.append_assoc, List.cons_append,
        List.append_cons_inj_of_notMem (mt mem_map_ringItem.1 h1.2.2)] at hsplit
      · rw [← hsplit.2.2, ← huniq hlr]
        cases q with
        | nil => rfl
        | cons x q => rfl
      · rw [List.mem_append, List.mem_cons, mem_map_ringItem, mem_map_ringItem, not_or, not_or]
        exact ⟨h2, ringItem_ne_head, h1.1⟩
    · exact absurd hmem ringItem_ne_head
    · -- in front of the hand
      obtain ⟨p, q, rfl⟩ := List.append_of_mem hmem
      have hlr : l = p ++ r :: (q ++ y :: post) := by rw [hy]; simp
      obtain ⟨h1, h2⟩ := hnodup hlr
      simp only [List.mem_append, List.mem_cons, not_or] at h2
      have hring : ring = (post.map ringItem ++ (none, head) :: p.map ringItem) ++
          ringItem r :: q.map ringItem := by
        rw [hring]
        simp
      rw [hring, List.append_cons_inj_of_notMem] at hsplit
      · rw [← hsplit.2.2, ← huniq hlr, nextNode_map]
        cases q with
        | nil => rfl
        | cons x q => rfl
      · rw [List.mem_append, List.mem_cons, mem_map_ringItem, mem_map_ringItem, not_or, not_or]
        exact ⟨h2.2.2, ringItem_ne_head, h1⟩
      · exact mt mem_map_ringItem.1 h2.1

/-! ## Trees -/

theorem frameVa_inj_of_base {f i f' i' : ℕ} (hf : f < 2 ^ 40) (hi : i < 4096) (hf' : f' < 2 ^ 40)
    (hi' : i' < 4096) (h : frameVa f i = frameVa f' i') : f = f' ∧ i = i' := by
  unfold frameVa va pageOffset at h
  omega

theorem child_lt {f i g : ℕ} (h : child m f i = some g) : g < 2 ^ 40 := by
  unfold child at h
  split at h
  · rw [← Option.some.inj h]
    exact (pteAt m f i).pageBaseAddr.isLt
  · cases h

/-- Where no table is linked twice, different pages have different entries. -/
theorem page_eq_of_entry_eq
    (htree : Separated tableIndex (child m) {rootFrame cr3} Region 3) {a b : ℕ} (ha : a ∈ Region)
    (hb : b ∈ Region) (hne : getValidPageEntry m cr3 a ≠ 0)
    (heq : getValidPageEntry m cr3 a = getValidPageEntry m cr3 b) : a / 4096 = b / 4096 := by
  have hentry : ∀ {a : ℕ}, a ∈ Region → getValidPageEntry m cr3 a ≠ 0 → ∃ f, f < 2 ^ 40 ∧
      tableNode m (rootFrame cr3) a 3 = some f ∧
      getValidPageEntry m cr3 a = frameVa f (tableIndex a 3 * 8) := by
    intro a ha hne
    have h0 := region_index_zero ha
    cases h4 : tableNode m (rootFrame cr3) a 4 with
    | none => exact absurd (getValidPageEntry_of_none h0 h4) hne
    | some g =>
      obtain ⟨f, h3⟩ := exists_node_of_le h4 (show 3 ≤ 4 by omega)
      obtain ⟨f₂, -, hchild⟩ := node_succ_eq_some.1 h3
      exact ⟨f, child_lt hchild, h3, getValidPageEntry_of_some h0 h3 h4⟩
  obtain ⟨f, hf, h3, hva⟩ := hentry ha hne
  obtain ⟨f', hf', h3', hva'⟩ := hentry hb (heq ▸ hne)
  have hi := tableIndex_lt a 3
  have hi' := tableIndex_lt b 3
  rw [hva, hva'] at heq
  obtain ⟨rfl, hidx⟩ := frameVa_inj_of_base hf (by omega) hf' (by omega) heq
  obtain ⟨-, -, hpath⟩ := htree _ rfl _ rfl a ha b hb 3 (le_refl _) 3 (le_refl _) f h3 h3'
  exact (samePath_four_iff ha hb).1 (samePath_succ.2 ⟨hpath, by omega⟩)

/-- The tables that the fault handler builds form a tree. -/
theorem tree_of_owned {k : Kern} {roots : Set ℕ} (h : Owned k roots) (hr : rootFrame cr3 ∈ roots) :
    Separated tableIndex (child k.mem) {rootFrame cr3} Region 3 := by
  rintro r rfl r' rfl a ha a' ha' ℓ hℓ ℓ' hℓ' f hf hf'
  exact h.separated _ hr _ hr a ha a' ha' ℓ (by omega) ℓ' (by omega) f hf hf'

/-! ## The clock -/

variable {env : Env} {s : State}

/-- The second-chance rule over the candidates, for the accessed bits on entry: who is chosen, and
who loses the accessed bit. -/
inductive Chooses (accessed : VaddrReg → Bool) :
    List VaddrReg → VaddrReg → List VaddrReg → Prop
  | first {cleared rest : List VaddrReg} {r : VaddrReg} : (∀ x ∈ cleared, accessed x = true) →
      accessed r = false → Chooses accessed (cleared ++ r :: rest) r cleared
  | round {rest : List VaddrReg} {r : VaddrReg} : (∀ x ∈ r :: rest, accessed x = true) →
      Chooses accessed (r :: rest) r (r :: rest)

/-- Candidates that were accessed are passed by until one comes that was not. -/
theorem Chooses.eq_of_first {accessed : VaddrReg → Bool} {xs ys cleared : List VaddrReg}
    {x r : VaddrReg} (h : Chooses accessed (xs ++ x :: ys) r cleared)
    (hxs : ∀ z ∈ xs, accessed z = true) (hx : accessed x = false) : r = x ∧ cleared = xs := by
  generalize hl : xs ++ x :: ys = l at h
  cases h with
  | first hall hr =>
    have htake := congrArg (List.takeWhile accessed) hl
    rw [List.takeWhile_append_of_pos hxs, List.takeWhile_append_of_pos hall,
      List.takeWhile_cons_of_neg (by simp [hx]), List.takeWhile_cons_of_neg (by simp [hr]),
      List.append_nil, List.append_nil] at htake
    subst htake
    exact ⟨(List.cons.inj (List.append_cancel_left hl)).1.symm, rfl⟩
  | round hall =>
    have := hall x (by rw [← hl]; simp)
    rw [hx] at this
    cases this

theorem entries_eq (cr3 : ℕ) (m : Mem) (items : List (Option ℕ × VaddrReg)) :
    entries cr3 m items = ((items.filter fun it => candidate m cr3 it.2).map Prod.snd).map
      fun r => getValidPageEntry m cr3 r.pageAddr := by
  unfold entries
  rw [List.filter_map, List.map_map]
  rfl

theorem pageReplacementClock_of_turns
    (hring : ringAfter env.head s.map.memoryAllocations s.map.clockHand = some ring) {n : ℕ}
    (hn : n ≤ 2) {v : Victim} (h : clockTurns env.cr3 s.map.clockHand ring n s.mem = (m', some v)) :
    pageReplacementClock env s
      = .ok (v, { s with mem := m', map := { s.map with clockHand := v.next } }) := by
  unfold pageReplacementClock
  rw [hring]
  match n with
  | 0 => cases (Prod.mk.inj h).2
  | 1 =>
    simp only [clockTurns] at h
    rcases hfirst : clockScan env.cr3 s.map.clockHand ring s.mem with ⟨m₁, _ | w⟩
    · rw [hfirst] at h
      cases (Prod.mk.inj h).2
    · rw [hfirst] at h
      obtain ⟨rfl, hv⟩ := Prod.mk.inj h
      obtain rfl := Option.some.inj hv
      simp only [hfirst]
  | 2 =>
    simp only [clockTurns] at h
    rcases hfirst : clockScan env.cr3 s.map.clockHand ring s.mem with ⟨m₁, _ | w⟩
    · rw [hfirst] at h
      dsimp only at h
      rcases hsecond : clockScan env.cr3 s.map.clockHand ring m₁ with ⟨m₂, _ | w⟩
      · rw [hsecond] at h
        cases (Prod.mk.inj h).2
      · rw [hsecond] at h
        obtain ⟨rfl, hv⟩ := Prod.mk.inj h
        obtain rfl := Option.some.inj hv
        simp only [hfirst, hsecond]
    · rw [hfirst] at h
      obtain ⟨rfl, hv⟩ := Prod.mk.inj h
      obtain rfl := Option.some.inj hv
      simp only [hfirst]

/-- The regions after the hand are regions of the list, each once. -/
theorem After.sublist (hafter : After l hand rs) {f : VaddrReg → ℕ} (hnodup : (l.map f).Nodup) :
    (∀ r ∈ rs, r ∈ l) ∧ (rs.map f).Nodup := by
  cases hafter with
  | head => exact ⟨fun r hr => hr, hnodup⟩
  | @node pre post y hl =>
    refine ⟨fun r hr => ?_, ?_⟩
    · rw [hl]
      rcases List.mem_append.1 hr with hr | hr
      · simp [hr]
      · simp [hr]
    · have hsub : (pre ++ post).Sublist l := by
        rw [hl]
        exact (List.Sublist.refl pre).append (List.sublist_cons_self y post)
      have hnod := hnodup.sublist (hsub.map f)
      exact (List.perm_append_comm.map f).nodup_iff.1 hnod

/-- The entries of the candidates are different. -/
theorem nodup_entries (hafter : After l hand rs)
    (hregion : ∀ r ∈ l, r.pageAddr ∈ Region ∧ 4096 ∣ r.pageAddr)
    (hdistinct : (l.map VaddrReg.pageAddr).Nodup)
    (htree : Separated tableIndex (child m) {rootFrame cr3} Region 3) :
    ((rs.filter (candidate m cr3)).map fun r => getValidPageEntry m cr3 r.pageAddr).Nodup := by
  obtain ⟨hmem, hnodup⟩ := hafter.sublist hdistinct
  refine (hnodup.of_map.filter _).map_on fun x hx y hy heq => ?_
  obtain ⟨hxr, hxc⟩ := List.mem_filter.1 hx
  obtain ⟨hyr, -⟩ := List.mem_filter.1 hy
  obtain ⟨hx1, hx2⟩ := hregion x (hmem x hxr)
  obtain ⟨hy1, hy2⟩ := hregion y (hmem y hyr)
  have hpage := page_eq_of_entry_eq htree hx1 hy1 (of_decide_eq_true hxc) heq
  exact List.inj_on_of_nodup_map hnodup hxr hyr (by omega)

/-- What second-chance replacement among the regions `rs` leads to: the victim is the first page
of `r`, and `cleared` are the regions whose first page loses its accessed bit. -/
structure SecondChance (env : Env) (s : State) (rs : List VaddrReg) (v : Victim) (s' : State)
    (r : VaddrReg) (cleared : List VaddrReg) : Prop where
  region : r ∈ s.map.memoryAllocations
  chooses : Chooses (accessedBit s.mem env.cr3) (rs.filter (candidate s.mem env.cr3)) r cleared
  page : v.page = getValidPageEntry s.mem env.cr3 r.pageAddr
  mem : v.mem = frameVa (readPte s.mem v.page).base 0
  bits : Cleared (cleared.map fun r => getValidPageEntry s.mem env.cr3 r.pageAddr) s.mem s'.mem
  hand : ∀ a b, s.map.memoryAllocations = a ++ r :: b →
    s'.map.clockHand = b.head?.map VaddrReg.node
  rest : s' = { s with mem := s'.mem, map := { s.map with clockHand := s'.map.clockHand } }

theorem filter_candidate {it : Option ℕ × VaddrReg}
    (hcand : (ring.filter fun it => candidate m cr3 it.2).map Prod.snd
      = rs.filter (candidate m cr3))
    (hsplit : ring = xs ++ it :: ys) (hit : candidate m cr3 it.2 = true) :
    rs.filter (candidate m cr3)
      = (xs.filter fun it => candidate m cr3 it.2).map Prod.snd ++ it.2 ::
        (ys.filter fun it => candidate m cr3 it.2).map Prod.snd := by
  rw [← hcand, hsplit, List.filter_append, List.map_append, List.filter_cons]
  simp only [hit, if_true, List.map_cons]

/-- The turn that comes to the item `it` of the ring. -/
theorem secondChance_of_turns {n : ℕ} {it : Option ℕ × VaddrReg} {cleared : List VaddrReg}
    (hregion : ∀ r ∈ s.map.memoryAllocations, r.pageAddr ∈ Region ∧ 4096 ∣ r.pageAddr)
    (hnodes : (s.map.memoryAllocations.map VaddrReg.node).Nodup)
    (hhead : getValidPageEntry s.mem env.cr3 env.head.pageAddr = 0)
    (hafter : After s.map.memoryAllocations s.map.clockHand rs)
    (hring : ringAfter env.head s.map.memoryAllocations s.map.clockHand = some ring)
    (hn : n ≤ 2) (hsplit : ring = xs ++ it :: ys) (hit : candidate s.mem env.cr3 it.2 = true)
    (hturns : clockTurns env.cr3 s.map.clockHand ring n s.mem
      = (m', some ⟨getValidPageEntry s.mem env.cr3 it.2.pageAddr,
        va ((readPte s.mem (getValidPageEntry s.mem env.cr3 it.2.pageAddr)).base <<< 12
          + physicalOffset it.2.pageAddr), nextNode s.map.clockHand ys⟩))
    (hchooses : Chooses (accessedBit s.mem env.cr3) (rs.filter (candidate s.mem env.cr3)) it.2
      cleared)
    (hbits : Cleared (cleared.map fun r => getValidPageEntry s.mem env.cr3 r.pageAddr) s.mem m') :
    ∃ v s' r cleared, pageReplacementClock env s = .ok (v, s') ∧
      (∃ ring n, ringAfter env.head s.map.memoryAllocations s.map.clockHand = some ring ∧ n ≤ 2 ∧
        clockTurns env.cr3 s.map.clockHand ring n s.mem = (s'.mem, some v)) ∧
      SecondChance env s rs v s' r cleared := by
  have hmem : it ∈ ring := by simp [hsplit]
  obtain ⟨hreg, hptr⟩ : it.2 ∈ s.map.memoryAllocations ∧ it.1 = some it.2.node := by
    rcases mem_of_ringAfter hring hmem with hr | rfl
    · exact hr
    · exact absurd hhead (of_decide_eq_true hit)
  have hitem : it = ringItem it.2 := Prod.ext hptr rfl
  have hva : va ((readPte s.mem (getValidPageEntry s.mem env.cr3 it.2.pageAddr)).base <<< 12
      + physicalOffset it.2.pageAddr)
        = frameVa (readPte s.mem (getValidPageEntry s.mem env.cr3 it.2.pageAddr)).base 0 := by
    unfold frameVa
    rw [physicalOffset_of_dvd (hregion _ hreg).2, Nat.shiftLeft_eq]
  rw [hitem] at hsplit
  exact ⟨_, _, it.2, cleared, pageReplacementClock_of_turns hring hn hturns,
    ⟨ring, n, hring, hn, hturns⟩, ⟨hreg, hchooses, rfl, hva, hbits,
      fun a b hl => nextNode_of_ringAfter hafter hnodes hring hsplit hl, rfl⟩⟩

/-- **Second-chance replacement.** On a page table in which no table is linked twice, when a
region after the hand has its first page present, the clock returns within two turns; whom it
chooses, and what it changes, is what the rule says. -/
theorem second_chance_exact
    (hregion : ∀ r ∈ s.map.memoryAllocations, r.pageAddr ∈ Region ∧ 4096 ∣ r.pageAddr)
    (hdistinct : (s.map.memoryAllocations.map VaddrReg.pageAddr).Nodup)
    (hnodes : (s.map.memoryAllocations.map VaddrReg.node).Nodup)
    (htree : Separated tableIndex (child s.mem) {rootFrame env.cr3} Region 3)
    (hhead : getValidPageEntry s.mem env.cr3 env.head.pageAddr = 0)
    (hafter : After s.map.memoryAllocations s.map.clockHand rs)
    (hsome : rs.filter (candidate s.mem env.cr3) ≠ []) :
    ∃ v s' r cleared, pageReplacementClock env s = .ok (v, s') ∧
      (∃ ring n, ringAfter env.head s.map.memoryAllocations s.map.clockHand = some ring ∧ n ≤ 2 ∧
        clockTurns env.cr3 s.map.clockHand ring n s.mem = (s'.mem, some v)) ∧
      SecondChance env s rs v s' r cleared := by
  obtain ⟨ring, hring, hcand⟩ := candidates_of_ringAfter hafter hnodes hhead
  have hnodup : (entries env.cr3 s.mem ring).Nodup := by
    rw [entries_eq, hcand]
    exact nodup_entries hafter hregion hdistinct htree
  cases hfind : ring.find? (fun it =>
      candidate s.mem env.cr3 it.2 && !accessedBit s.mem env.cr3 it.2) with
  | some it =>
    -- the first turn comes to a page that was not accessed
    obtain ⟨hit, xs, ys, hsplit, hpast⟩ := List.find?_eq_some_iff_append.1 hfind
    rw [Bool.and_eq_true, Bool.not_eq_true'] at hit
    have hacc : ∀ r ∈ (xs.filter fun it => candidate s.mem env.cr3 it.2).map Prod.snd,
        accessedBit s.mem env.cr3 r = true := by
      intro r hr
      obtain ⟨x, hx, rfl⟩ := List.mem_map.1 hr
      obtain ⟨hx1, hx2⟩ := List.mem_filter.1 hx
      have := hpast x hx1
      rw [hx2] at this
      simpa using this
    obtain ⟨m', hclear, hrun⟩ := clockScan_first s.map.clockHand (hsplit ▸ hnodup)
      (by
        rw [entries_eq]
        intro x hx
        obtain ⟨r, hr, rfl⟩ := List.mem_map.1 hx
        exact hacc r hr)
      (of_decide_eq_true hit.1) hit.2
    rw [← hsplit] at hrun
    refine secondChance_of_turns hregion hnodes hhead hafter hring (show 1 ≤ 2 by omega) hsplit
      hit.1 (by rw [clockTurns, hrun]) ?_ (by rwa [entries_eq] at hclear)
    rw [filter_candidate hcand hsplit hit.1]
    exact .first hacc hit.2
  | none =>
    have hall : ∀ it ∈ ring, candidate s.mem env.cr3 it.2 = true →
        accessedBit s.mem env.cr3 it.2 = true := by
      intro it hit hc
      have := List.find?_eq_none.1 hfind it hit
      rw [hc] at this
      simpa using this
    cases hfirst : ring.find? (fun it => candidate s.mem env.cr3 it.2) with
    | none =>
      refine absurd ?_ hsome
      rw [← hcand, List.filter_eq_nil_iff.2 (fun it hit => List.find?_eq_none.1 hfirst it hit)]
      rfl
    | some it =>
      -- the second turn takes the first candidate
      obtain ⟨hit, xs, ys, hsplit, hpast⟩ := List.find?_eq_some_iff_append.1 hfirst
      have hnone : (xs.filter fun it => candidate s.mem env.cr3 it.2) = [] :=
        List.filter_eq_nil_iff.2 fun x hx => by simpa using hpast x hx
      have hacc : ∀ r ∈ rs.filter (candidate s.mem env.cr3),
          accessedBit s.mem env.cr3 r = true := by
        intro r hr
        rw [← hcand] at hr
        obtain ⟨x, hx, rfl⟩ := List.mem_map.1 hr
        obtain ⟨hx1, hx2⟩ := List.mem_filter.1 hx
        exact hall x hx1 hx2
      have hns := filter_candidate hcand hsplit hit
      rw [hnone, List.map_nil, List.nil_append] at hns
      obtain ⟨m₁, m', hrun, hclear, hrun'⟩ := clockScan_second s.map.clockHand (hsplit ▸ hnodup)
        (by
          rw [← hsplit, entries_eq, hcand]
          intro x hx
          obtain ⟨r, hr, rfl⟩ := List.mem_map.1 hx
          exact hacc r hr)
        (by rw [entries_eq, hnone]; rfl) (of_decide_eq_true hit)
      rw [← hsplit] at hrun hrun' hclear
      have hturns : clockTurns env.cr3 s.map.clockHand ring 2 s.mem
          = clockScan env.cr3 s.map.clockHand ring m₁ := by
        simp only [clockTurns, hrun]
        rw [hrun']
      refine secondChance_of_turns hregion hnodes hhead hafter hring (le_refl 2) hsplit hit
        (hturns.trans hrun') ?_ (by rwa [entries_eq, hcand] at hclear)
      rw [hns] at hacc ⊢
      exact .round hacc

/-- Of four pages the first was evicted for the fourth, which leaves the hand on the second; of the
two behind the hand the third was accessed since and the fourth was not. The clock clears the bit
of the third and takes the fourth. -/
theorem second_chance_exact_after_eviction :
    ∃ es s v s', Run smallEnv (SmallOk smallEnv) (initState (wideKern 5 (eightSlots 0)) 1) es s ∧
      s.map.clockHand = some 2 ∧ pageReplacementClock smallEnv s = .ok (v, s') ∧
      SecondChance smallEnv s [⟨3, ALLOCATED, 1, 0x1000002000⟩, ⟨4, ALLOCATED, 1, 0x1000003000⟩,
        ⟨5, FREE, 2 ^ 25 - 4, 0x1000004000⟩, ⟨1, ALLOCATED, 1, 0x1000000000⟩] v s'
        ⟨4, ALLOCATED, 1, 0x1000003000⟩ [⟨3, ALLOCATED, 1, 0x1000002000⟩] := by
  have hres : (replayWhere (headAbsent smallEnv) smallEnv [.alloc 2 1, .alloc 3 1, .alloc 4 1,
      .alloc 5 1, .read 0x1000000000, .read 0x1000001000, .read 0x1000002000,
      .fault 0x1000003000 1, .read 0x1000002000]
      ([], initState (wideKern 5 (eightSlots 0)) 1)).map (fun r =>
        (decide (∀ ev ∈ r.1, SmallRequests ev) &&
            decide (getValidPageEntry r.2.mem smallEnv.cr3 smallEnv.head.pageAddr = 0),
          r.2.map.clockHand, r.2.map.memoryAllocations,
          r.2.map.memoryAllocations.map fun x =>
            (candidate r.2.mem smallEnv.cr3 x, accessedBit r.2.mem smallEnv.cr3 x)))
      = some (true, some 2, [⟨1, ALLOCATED, 1, 0x1000000000⟩, ⟨2, ALLOCATED, 1, 0x1000001000⟩,
        ⟨3, ALLOCATED, 1, 0x1000002000⟩, ⟨4, ALLOCATED, 1, 0x1000003000⟩,
        ⟨5, FREE, 2 ^ 25 - 4, 0x1000004000⟩],
        [(false, false), (true, false), (true, true), (true, false), (false, false)]) := by
    decide +kernel
  obtain ⟨⟨es, s⟩, hreplay, heq⟩ := Option.map_eq_some_iff.1 hres
  simp only [Prod.mk.injEq, Bool.and_eq_true, decide_eq_true_eq] at heq
  obtain ⟨⟨hsmall, hhead⟩, hhand, hlist, hbits⟩ := heq
  have hrun : Run smallEnv (SmallOk smallEnv) _ es s :=
    (run_of_replayWhere (Q := fun s => HeadAbsent smallEnv s.mem)
      (fun s' h _ => (headAbsent_iff s').1 h) _ .start hreplay).restrict hsmall
  obtain ⟨hstart, hnone⟩ := wideKern_start (show 5 < 2 ^ 19 by norm_num) (eightSlots 0)
  obtain ⟨hr, -⟩ := run_backed hstart
    (fun a ha hr => (resident_iff_walk ha).1 hr (hnone a ha)) hrun
  have hafter : After s.map.memoryAllocations s.map.clockHand
      ([⟨3, ALLOCATED, 1, 0x1000002000⟩, ⟨4, ALLOCATED, 1, 0x1000003000⟩,
        ⟨5, FREE, 2 ^ 25 - 4, 0x1000004000⟩] ++ [⟨1, ALLOCATED, 1, 0x1000000000⟩]) := by
    rw [hhand]
    exact .node (y := ⟨2, ALLOCATED, 1, 0x1000001000⟩) hlist
  rw [hlist] at hbits
  simp only [List.map_cons, List.map_nil, List.cons.injEq, Prod.mk.injEq] at hbits
  obtain ⟨⟨hc₁, -⟩, -, ⟨hc₃, ha₃⟩, ⟨hc₄, ha₄⟩, ⟨hc₅, -⟩, -⟩ := hbits
  have hcand : ([⟨3, ALLOCATED, 1, 0x1000002000⟩, ⟨4, ALLOCATED, 1, 0x1000003000⟩,
      ⟨5, FREE, 2 ^ 25 - 4, 0x1000004000⟩] ++ [⟨1, ALLOCATED, 1, 0x1000000000⟩] :
        List VaddrReg).filter (candidate s.mem smallEnv.cr3)
      = [⟨3, ALLOCATED, 1, 0x1000002000⟩, ⟨4, ALLOCATED, 1, 0x1000003000⟩] := by
    simp only [List.cons_append, List.nil_append, List.filter, hc₁, hc₃, hc₄, hc₅]
  obtain ⟨v, s', r, cleared, hclock, -, hsc⟩ := second_chance_exact
    (fun r hr' => ⟨starts_subset hr.list ⟨r, hr', rfl⟩, starts_dvd hr.list ⟨r, hr', rfl⟩⟩)
    (by rw [hlist]; decide) hr.list.nodes (tree_of_owned hr.owned hr.root) hhead hafter
    (by rw [hcand]; simp)
  -- the third was accessed, and the fourth was not
  have hchooses : Chooses (accessedBit s.mem smallEnv.cr3)
      ([⟨3, ALLOCATED, 1, 0x1000002000⟩] ++ ⟨4, ALLOCATED, 1, 0x1000003000⟩ :: []) r cleared := by
    have h := hsc.chooses
    rwa [hcand] at h
  obtain ⟨rfl, rfl⟩ := hchooses.eq_of_first (by simp [ha₃]) ha₄
  exact ⟨es, s, v, s', hrun, hhand, hclock, hsc⟩

end OnDemand

end Petmem
