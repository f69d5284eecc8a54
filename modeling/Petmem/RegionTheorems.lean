import Petmem.Regions
import Mathlib.Data.List.Chain
import Mathlib.Tactic.Linarith

/-!
# The region list stays a partition

`Partition l` says that the regions of `l` follow one another from the start of the petmem
region to its end, that free regions have pages and are kept apart by regions in use, and
that no region starts at the end (a region without pages is always followed by another one
at the same address). `allocate` and the two merges of `free_address` keep it.
-/

namespace Petmem
namespace Regions

/-- The regions of the list follow one another from `a` to `b`. -/
def Spans : ℕ → List VaddrReg → ℕ → Prop
  | a, [], b => a = b
  | a, r :: l, b => r.pageAddr = a ∧ Spans (a + 4096 * r.size) l b

/-- Two neighbours are not both free. -/
def NotBothFree (r r' : VaddrReg) : Prop := ¬ (r.status = FREE ∧ r'.status = FREE)

/-- The invariant of a process's region list. -/
structure Partition (l : List VaddrReg) : Prop where
  spans : Spans petmemRegionStart l petmemRegionEnd
  status : ∀ r ∈ l, r.status = ALLOCATED ∨ r.status = FREE
  free_pos : ∀ r ∈ l, r.status = FREE → 1 ≤ r.size
  apart : l.IsChain NotBothFree
  starts : ∀ r ∈ l, r.pageAddr < petmemRegionEnd
  nodes : (l.map VaddrReg.node).Nodup

/-! ## Spans -/

theorem Spans.le {a b : ℕ} {l : List VaddrReg} (h : Spans a l b) : a ≤ b := by
  induction l generalizing a with
  | nil => exact Nat.le_of_eq h
  | cons r l ih =>
    have := ih h.2
    omega

theorem spans_append {a b : ℕ} {l l' : List VaddrReg} :
    Spans a (l ++ l') b ↔ ∃ c, Spans a l c ∧ Spans c l' b := by
  induction l generalizing a with
  | nil => simp [Spans]
  | cons r l ih => simp [Spans, ih, and_assoc]

/-- A region of a spanning list lies between the ends. -/
theorem Spans.bounds {a b : ℕ} {l : List VaddrReg} (h : Spans a l b) {r : VaddrReg}
    (hr : r ∈ l) : a ≤ r.pageAddr ∧ r.pageAddr + 4096 * r.size ≤ b := by
  induction l generalizing a with
  | nil => simp at hr
  | cons s l ih =>
    obtain ⟨rfl, hl⟩ := h
    rcases List.mem_cons.1 hr with rfl | hr
    · exact ⟨le_refl _, hl.le⟩
    · have := ih hl hr
      omega

/-- Region addresses are page aligned when the start is. -/
theorem Spans.dvd {a b : ℕ} {l : List VaddrReg} (h : Spans a l b) (ha : 4096 ∣ a)
    {r : VaddrReg} (hr : r ∈ l) : 4096 ∣ r.pageAddr := by
  induction l generalizing a with
  | nil => simp at hr
  | cons s l ih =>
    obtain ⟨rfl, hl⟩ := h
    rcases List.mem_cons.1 hr with rfl | hr
    · exact ha
    · exact ih hl (Nat.dvd_add ha (Nat.dvd_mul_right _ _)) hr

/-- A byte of the span lies in one of the regions. -/
theorem Spans.exists_mem {a b x : ℕ} {l : List VaddrReg} (h : Spans a l b) (h1 : a ≤ x)
    (h2 : x < b) : ∃ r ∈ l, r.pageAddr ≤ x ∧ x < r.pageAddr + 4096 * r.size := by
  induction l generalizing a with
  | nil =>
    have : a = b := h
    omega
  | cons r l ih =>
    obtain ⟨rfl, hl⟩ := h
    by_cases hx : x < r.pageAddr + 4096 * r.size
    · exact ⟨r, List.mem_cons_self, h1, hx⟩
    · obtain ⟨s, hs, hsx⟩ := ih hl (by omega)
      exact ⟨s, List.mem_cons_of_mem _ hs, hsx⟩

namespace Partition

variable {l : List VaddrReg}

theorem size_lt (h : Partition l) {r : VaddrReg} (hr : r ∈ l) : r.size ≤ 2 ^ 25 := by
  have := h.spans.bounds hr
  unfold petmemRegionStart petmemRegionEnd at this
  omega

end Partition

/-! ## The initial list -/

/-- The list of `petmem_init_process`: one free region. -/
def initRegions (node : ℕ) : List VaddrReg :=
  [{ node, status := FREE, size := (petmemRegionEnd - petmemRegionStart) >>> 12,
     pageAddr := petmemRegionStart }]

theorem partition_initRegions (node : ℕ) : Partition (initRegions node) where
  spans := by
    refine ⟨rfl, ?_⟩
    show petmemRegionStart + 4096 * ((petmemRegionEnd - petmemRegionStart) >>> 12)
      = petmemRegionEnd
    decide
  status := by simp [initRegions]
  free_pos := by simp [initRegions, petmemRegionEnd, petmemRegionStart]
  apart := List.IsChain.singleton _
  starts := by simp [initRegions, petmemRegionEnd, petmemRegionStart]
  nodes := by simp [initRegions]

/-! ## `allocate` -/

/-- What `allocate` can do: nothing fits and nothing changes, a region that fits exactly
changes its status, or a larger one is cut in two. -/
inductive AllocCase (newNode size : ℕ) (l : List VaddrReg) : List VaddrReg × ℕ → Prop
  | full : (∀ r ∈ l, r.status = FREE → r.size < size) → AllocCase newNode size l (l, noRegion)
  | exact {pre post : List VaddrReg} {cur : VaddrReg} :
      l = pre ++ cur :: post → (∀ r ∈ pre, r.status = FREE → r.size < size) →
      cur.status = FREE → cur.size = size →
      AllocCase newNode size l
        (pre ++ { cur with status := ALLOCATED } :: post, cur.pageAddr)
  | cut {pre post : List VaddrReg} {cur : VaddrReg} :
      l = pre ++ cur :: post → (∀ r ∈ pre, r.status = FREE → r.size < size) →
      cur.status = FREE → size < cur.size →
      AllocCase newNode size l
        (pre ++ { cur with status := ALLOCATED, size := size } ::
          { node := newNode, status := FREE, size := sub64 cur.size size,
            pageAddr := (cur.pageAddr + size <<< 12) % 2 ^ 64 } :: post, cur.pageAddr)

theorem allocate_cases (newNode size : ℕ) (l : List VaddrReg) :
    AllocCase newNode size l (allocate newNode size l) := by
  induction l with
  | nil => exact .full (by simp)
  | cons cur rest ih =>
    rw [allocate]
    by_cases hfit : cur.status = FREE ∧ cur.size ≥ size
    · rw [if_pos hfit]
      by_cases heq : cur.size = size
      · rw [if_pos heq]
        exact @AllocCase.exact _ _ _ [] _ _ rfl (by simp) hfit.1 heq
      · rw [if_neg heq]
        exact @AllocCase.cut _ _ _ [] _ _ rfl (by simp) hfit.1 (by omega)
    · rw [if_neg hfit]
      have hcur : cur.status = FREE → cur.size < size := fun h => by
        by_contra hge
        exact hfit ⟨h, by omega⟩
      -- this region is too small as well, so it joins those in front
      have hpre : ∀ pre : List VaddrReg, (∀ r ∈ pre, r.status = FREE → r.size < size) →
          ∀ r ∈ cur :: pre, r.status = FREE → r.size < size := fun pre h r hr =>
        (List.mem_cons.1 hr).elim (fun he => he ▸ hcur) (h r)
      generalize allocate newNode size rest = res at ih
      cases ih with
      | full h => exact .full (hpre rest h)
      | @exact pre post c hl h hs hsz =>
        exact @AllocCase.exact _ _ _ (cur :: pre) _ _ (by rw [hl]; rfl) (hpre pre h) hs hsz
      | @cut pre post c hl h hs hsz =>
        exact @AllocCase.cut _ _ _ (cur :: pre) _ _ (by rw [hl]; rfl) (hpre pre h) hs hsz

/-- A list around one region: what its neighbours and the chain say. -/
theorem isChain_middle {pre post : List VaddrReg} {r : VaddrReg} :
    (pre ++ r :: post).IsChain NotBothFree ↔
      pre.IsChain NotBothFree ∧ post.IsChain NotBothFree ∧
      (∀ x ∈ pre.getLast?, NotBothFree x r) ∧ ∀ y ∈ post.head?, NotBothFree r y := by
  rw [List.isChain_append, List.isChain_cons]
  simp only [List.head?_cons, Option.mem_some_iff, forall_eq']
  tauto

theorem notBothFree_of_left {r r' : VaddrReg} (h : r.status = ALLOCATED) : NotBothFree r r' := by
  rintro ⟨h', _⟩
  rw [h] at h'
  exact absurd h' (by decide)

theorem notBothFree_of_right {r r' : VaddrReg} (h : r'.status = ALLOCATED) :
    NotBothFree r r' := by
  rintro ⟨_, h'⟩
  rw [h] at h'
  exact absurd h' (by decide)

/-- What holds of all regions holds after one of them was replaced, if it holds of the new ones. -/
theorem forall_mem_replace {pre post : List VaddrReg} {cur : VaddrReg} {P : VaddrReg → Prop}
    (new : List VaddrReg) (h : ∀ r ∈ pre ++ cur :: post, P r) (hnew : ∀ r ∈ new, P r) :
    ∀ r ∈ pre ++ (new ++ post), P r := by
  obtain ⟨hpre, hrest⟩ := List.forall_mem_append.1 h
  obtain ⟨-, hpost⟩ := List.forall_mem_cons.1 hrest
  exact List.forall_mem_append.2 ⟨hpre, List.forall_mem_append.2 ⟨hnew, hpost⟩⟩

/-- `allocate` keeps the partition; the new node's address is not one of the list's. -/
theorem Partition.allocate {l : List VaddrReg} (h : Partition l) {newNode size : ℕ}
    (hnew : newNode ∉ l.map VaddrReg.node) : Partition (Regions.allocate newNode size l).1 := by
  have hcase := allocate_cases newNode size l
  generalize Regions.allocate newNode size l = res at hcase
  cases hcase with
  | full _ => exact h
  | @exact pre post cur hl _ hs hsz =>
    subst hl
    obtain ⟨hpre, hpost, _, _⟩ := isChain_middle.1 h.apart
    refine ⟨?_, ?_, ?_, ?_, ?_, ?_⟩
    · obtain ⟨c, h1, h2⟩ := spans_append.1 h.spans
      exact spans_append.2 ⟨c, h1, h2⟩
    · exact forall_mem_replace [_] h.status (List.forall_mem_singleton.2 (.inl rfl))
    · refine forall_mem_replace [_] h.free_pos (List.forall_mem_singleton.2 fun hf => ?_)
      exact absurd hf (by simp [ALLOCATED, FREE])
    · exact isChain_middle.2 ⟨hpre, hpost, fun _ _ => notBothFree_of_right rfl,
        fun _ _ => notBothFree_of_left rfl⟩
    · exact forall_mem_replace [_] h.starts (List.forall_mem_singleton.2 (h.starts cur (by simp)))
    · have := h.nodes
      simpa using this
  | @cut pre post cur hl _ hs hsz =>
    subst hl
    obtain ⟨hpre, hpost, _, hnext⟩ := isChain_middle.1 h.apart
    have hcur : cur ∈ pre ++ cur :: post := by simp
    have hb := h.spans.bounds hcur
    -- nothing wraps: both parts lie inside the region
    have hsub : sub64 cur.size size = cur.size - size := by
      have := h.size_lt hcur
      exact sub64_of_le hsz.le (by omega)
    have haddr : (cur.pageAddr + size <<< 12) % 2 ^ 64 = cur.pageAddr + 4096 * size := by
      unfold petmemRegionEnd at hb
      rw [Nat.shiftLeft_eq]
      omega
    have hlt : cur.pageAddr + 4096 * size < petmemRegionEnd := by omega
    rw [hsub, haddr]
    refine ⟨?_, ?_, ?_, ?_, ?_, ?_⟩
    · obtain ⟨c, h1, h2, h3⟩ := spans_append.1 h.spans
      refine spans_append.2 ⟨c, h1, h2, by rw [← h2], ?_⟩
      show Spans (c + 4096 * size + 4096 * (cur.size - size)) post petmemRegionEnd
      rwa [Nat.add_assoc, ← Nat.mul_add, Nat.add_sub_cancel' hsz.le]
    · exact forall_mem_replace [_, _] h.status
        (List.forall_mem_cons.2 ⟨.inl rfl, List.forall_mem_singleton.2 (.inr rfl)⟩)
    · refine forall_mem_replace [_, _] h.free_pos
        (List.forall_mem_cons.2 ⟨fun hf => ?_, List.forall_mem_singleton.2 fun _ => ?_⟩)
      · exact absurd hf (by simp [ALLOCATED, FREE])
      · show 1 ≤ cur.size - size
        omega
    · refine isChain_middle.2 ⟨hpre, List.isChain_cons.2 ⟨?_, hpost⟩,
        fun _ _ => notBothFree_of_right rfl, fun _ _ => notBothFree_of_left rfl⟩
      -- the new free region has the old one's next neighbour
      intro y hy hboth
      exact hnext y hy ⟨hs, hboth.2⟩
    · exact forall_mem_replace [_, _] h.starts
        (List.forall_mem_cons.2 ⟨h.starts cur hcur, List.forall_mem_singleton.2 hlt⟩)
    -- the node that `kmalloc` returned is not on the list
    · have := h.nodes
      simp only [List.map_append, List.map_cons, List.mem_append, List.mem_cons, not_or]
        at hnew this ⊢
      rw [List.nodup_append] at this ⊢
      simp only [List.nodup_cons, List.mem_cons, not_or] at this ⊢
      obtain ⟨n1, ⟨n2, n3⟩, n4⟩ := this
      obtain ⟨m1, m2, m3⟩ := hnew
      refine ⟨n1, ⟨⟨Ne.symm m2, n2⟩, m3, n3⟩, ?_⟩
      rintro a ha b (rfl | rfl | hb)
      · exact n4 a ha _ (.inl rfl)
      · rintro rfl
        exact m1 ha
      · exact n4 a ha b (.inr hb)

/-! ## `free_address` -/

/-- `p` is the last region of `l` that starts at `page`. -/
structure IsLastAt (page : ℕ) (l : List VaddrReg) (p : Position) : Prop where
  split : l = p.before.reverse ++ p.found :: p.after
  addr : p.found.pageAddr = page
  last : ∀ r ∈ p.after, r.pageAddr ≠ page

/-- The search through the rest `rest` of the list keeps the last match so far. -/
theorem findRegion_acc {page : ℕ} (rest : List VaddrReg) :
    ∀ (before : List VaddrReg) (found : Option Position),
      (found = none → ∀ r ∈ before, r.pageAddr ≠ page) →
      (∀ p, found = some p → ∃ mid, before.reverse = p.before.reverse ++ p.found :: mid ∧
        p.after = mid ++ rest ∧ p.found.pageAddr = page ∧ ∀ r ∈ mid, r.pageAddr ≠ page) →
      (findRegion page before rest found = none →
        ∀ r ∈ before.reverse ++ rest, r.pageAddr ≠ page) ∧
      ∀ p, findRegion page before rest found = some p →
        IsLastAt page (before.reverse ++ rest) p := by
  induction rest with
  | nil =>
    intro before found hnone hsome
    refine ⟨fun h r hr => hnone h r (by simpa using hr), fun p hp => ?_⟩
    obtain ⟨mid, hsplit, hafter, haddr, hlast⟩ := hsome p hp
    rw [List.append_nil] at hafter
    exact ⟨by rw [hsplit, hafter, List.append_nil], haddr, by rwa [hafter]⟩
  | cons cur rest ih =>
    intro before found hnone hsome
    have happ : (cur :: before).reverse ++ rest = before.reverse ++ cur :: rest := by simp
    rw [findRegion, ← happ]
    by_cases hcur : cur.pageAddr = page
    · rw [if_pos hcur]
      refine ih (cur :: before) _ (fun h => by simp at h) fun p hp => ?_
      cases hp
      -- the match so far is this node, with nothing after it yet
      exact ⟨[], by simp, by simp, hcur, by simp⟩
    · rw [if_neg hcur]
      refine ih (cur :: before) _ (fun h r hr => ?_) fun p hp => ?_
      · rcases List.mem_cons.1 hr with rfl | hr
        · exact hcur
        · exact hnone h r hr
      · obtain ⟨mid, hsplit, hafter, haddr, hlast⟩ := hsome p hp
        -- this node goes between the match so far and the rest
        refine ⟨mid ++ [cur], by simp [hsplit], by simp [hafter], haddr, fun r hr => ?_⟩
        rcases List.mem_append.1 hr with hr | hr
        · exact hlast r hr
        · rwa [List.mem_singleton.1 hr]

theorem findRegion_eq_none {page : ℕ} {l : List VaddrReg} (h : findRegion page [] l none = none)
    {r : VaddrReg} (hr : r ∈ l) : r.pageAddr ≠ page :=
  (findRegion_acc l [] none (by simp) (by simp)).1 h r hr

theorem isLastAt_of_findRegion {page : ℕ} {l : List VaddrReg} {p : Position}
    (h : findRegion page [] l none = some p) : IsLastAt page l p :=
  (findRegion_acc l [] none (by simp) (by simp)).2 p h

namespace IsLastAt

variable {page : ℕ} {l : List VaddrReg} {p : Position}

theorem mem (h : IsLastAt page l p) : p.found ∈ l := by
  rw [h.split]
  simp

/-- The region `free_address` selects has pages: an empty one is followed by another
region at its address. -/
theorem size_pos (h : IsLastAt page l p) (hl : Partition l) : 1 ≤ p.found.size := by
  -- an empty region would be followed by another one at its address
  by_contra hzero
  have hspans := hl.spans
  rw [h.split] at hspans
  obtain ⟨c, _, hc, hafter⟩ := spans_append.1 hspans
  rw [show p.found.size = 0 by omega, ← hc] at hafter
  cases hcase : p.after with
  | nil =>
    have hend : p.found.pageAddr + 4096 * 0 = petmemRegionEnd := by rwa [hcase] at hafter
    have := hl.starts _ h.mem
    omega
  | cons next after =>
    rw [hcase] at hafter
    refine h.last next (by simp [hcase]) ?_
    rw [hafter.1, h.addr, Nat.mul_zero, Nat.add_zero]

/-- The address test on the next node never skips a merge. -/
theorem mergeable_next (h : IsLastAt page l p) {next : VaddrReg} (hn : next ∈ p.after) :
    mergeable page next = true ↔ next.status = FREE := by
  simp [mergeable, h.last next hn]

/-- Nor does the address test on the previous node: a free one has pages. -/
theorem mergeable_prev (h : IsLastAt page l p) (hl : Partition l) {prev : VaddrReg}
    {before : List VaddrReg} (hp : p.before = prev :: before) :
    mergeable page prev = true ↔ prev.status = FREE := by
  simp only [mergeable, decide_eq_true_eq]
  refine ⟨fun hm => hm.2, fun hfree => ⟨fun haddr => ?_, hfree⟩⟩
  have hsplit := h.split
  rw [hp, List.reverse_cons, List.append_assoc] at hsplit
  have hspans := hl.spans
  rw [hsplit] at hspans
  obtain ⟨c, _, hc, hf, _⟩ := spans_append.1 hspans
  have hpos := hl.free_pos prev (by rw [hsplit]; simp) hfree
  rw [h.addr] at hf
  omega

end IsLastAt

/-- The first merge takes exactly a free next neighbour. -/
theorem mergeNext_spec {head : VaddrReg} {page : ℕ} {l : List VaddrReg} {p : Position}
    (hhead : head.status ≠ FREE) (hl : Partition l) (h : IsLastAt page l p) :
    ∃ r y post, mergeNext head page { p with found := { p.found with status := FREE } }
        = .ok ⟨p.before, r, post⟩ ∧ r.status = FREE ∧ r.node = p.found.node ∧
      p.after = y ++ post ∧ (∀ z ∈ y, z.status = FREE) ∧ (∀ z ∈ post.head?, z.status ≠ FREE) ∧
      ∀ a b, Spans a (p.found :: y) b → b ≤ petmemRegionEnd → Spans a [r] b := by
  unfold mergeNext
  cases hafter : p.after with
  | nil =>
    have hm : mergeable page head = false := by simp [mergeable, hhead]
    simp only [hm, Bool.false_eq_true, if_false]
    exact ⟨_, [], [], rfl, rfl, rfl, rfl, by simp, by simp, fun a b hs _ => hs⟩
  | cons next after =>
    have hnext : next ∈ p.after := by simp [hafter]
    by_cases hfree : next.status = FREE
    · simp only [(h.mergeable_next hnext).2 hfree, if_true]
      refine ⟨_, [next], after, rfl, rfl, rfl, rfl, by simpa using hfree, ?_, ?_⟩
      · -- two free regions are not neighbours
        have hch := hl.apart
        rw [h.split, hafter, isChain_middle, List.isChain_cons] at hch
        exact fun z hz hzf => hch.2.1.1 z hz ⟨hfree, hzf⟩
      · rintro a b ⟨ha, hn, hend⟩ hb
        refine ⟨ha, ?_⟩
        -- the sum of the sizes does not wrap inside the petmem region
        have hend' : a + 4096 * p.found.size + 4096 * next.size = b := hend
        unfold petmemRegionEnd at hb
        show a + 4096 * ((p.found.size + next.size) % 2 ^ 64) = b
        omega
    · have hm : mergeable page next = false := by
        rw [← Bool.not_eq_true, h.mergeable_next hnext]
        exact hfree
      simp only [hm, Bool.false_eq_true, if_false]
      exact ⟨_, [], next :: after, rfl, rfl, rfl, rfl, by simp, by simpa using hfree,
        fun a b hs _ => hs⟩

/-- The second merge takes exactly a free previous neighbour. -/
theorem mergePrev_spec {head : VaddrReg} {page : ℕ} {l : List VaddrReg} {p : Position}
    (r : VaddrReg) (post : List VaddrReg) (hhead : head.status ≠ FREE) (hl : Partition l)
    (h : IsLastAt page l p) :
    ∃ r' x before, mergePrev head page ⟨p.before, r, post⟩ = .ok ⟨before, r', post⟩ ∧
      r'.status = r.status ∧ r'.node = r.node ∧ p.before = x ++ before ∧
      (∀ z ∈ x, z.status = FREE) ∧ (∀ z ∈ before.head?, z.status ≠ FREE) ∧
      ∀ a b, Spans a (x.reverse ++ [r]) b → b ≤ petmemRegionEnd → Spans a [r'] b := by
  unfold mergePrev
  cases hbefore : p.before with
  | nil =>
    have hm : mergeable page head = false := by simp [mergeable, hhead]
    simp only [hm, Bool.false_eq_true, if_false]
    exact ⟨_, [], [], rfl, rfl, rfl, rfl, by simp, by simp, fun a b hs _ => hs⟩
  | cons prev before =>
    by_cases hfree : prev.status = FREE
    · simp only [(h.mergeable_prev hl hbefore).2 hfree, if_true]
      refine ⟨_, [prev], before, rfl, rfl, rfl, rfl, by simpa using hfree, ?_, ?_⟩
      -- the region in front of a free one is in use
      · have hch := hl.apart
        rw [h.split, hbefore, List.reverse_cons, List.append_assoc] at hch
        have hleft := (isChain_middle.1 hch).2.2.1
        rw [List.getLast?_reverse] at hleft
        exact fun z hz hzf => hleft z hz ⟨hzf, hfree⟩
      · rintro a b ⟨ha, hr, hend⟩ hb
        refine ⟨ha, ?_⟩
        have hend' : a + 4096 * prev.size + 4096 * r.size = b := hend
        unfold petmemRegionEnd at hb
        show a + 4096 * ((r.size + prev.size) % 2 ^ 64) = b
        omega
    · have hm : mergeable page prev = false := by
        rw [← Bool.not_eq_true, h.mergeable_prev hl hbefore]
        exact hfree
      simp only [hm, Bool.false_eq_true, if_false]
      exact ⟨_, [], prev :: before, rfl, rfl, rfl, rfl, by simp, by simpa using hfree,
        fun a b hs _ => hs⟩

/-- The list after the two merges: the region that is freed, with the free neighbours `x`
and `y` on its two sides, has become the free region `r`. -/
structure Coalesced (p : Position) (pre x : List VaddrReg) (r : VaddrReg)
    (y post : List VaddrReg) : Prop where
  before : p.before.reverse = pre ++ x
  after : p.after = y ++ post
  free : ∀ z ∈ x ++ y, z.status = FREE
  left : ∀ z ∈ pre.getLast?, z.status ≠ FREE
  right : ∀ z ∈ post.head?, z.status ≠ FREE
  status : r.status = FREE
  node : r.node = p.found.node
  spans : ∀ a b, Spans a (x ++ p.found :: y) b → b ≤ petmemRegionEnd → Spans a [r] b

/-- `free_address` on the list: it returns, and merges exactly the free neighbours. -/
theorem coalesce_spec {head : VaddrReg} {page : ℕ} {l : List VaddrReg} {p : Position}
    (hhead : head.status ≠ FREE) (hl : Partition l) (h : IsLastAt page l p) :
    ∃ pre x r y post, coalesce head page p = .ok (pre ++ r :: post) ∧
      Coalesced p pre x r y post := by
  obtain ⟨r, y, post, hnext, hst, hnode, hy, hyf, hright, hsp⟩ := mergeNext_spec hhead hl h
  obtain ⟨r', x, before, hprev, hst', hnode', hx, hxf, hleft, hsp'⟩ :=
    mergePrev_spec r post hhead hl h
  refine ⟨before.reverse, x.reverse, r', y, post, ?_, ?_, hy, ?_, ?_, hright,
    hst'.trans hst, hnode'.trans hnode, ?_⟩
  · unfold coalesce
    simp only [hnext, hprev, bind, Except.bind, pure, Except.pure]
  · rw [hx, List.reverse_append]
  · intro z hz
    rcases List.mem_append.1 hz with hz | hz
    · exact hxf z (List.mem_reverse.1 hz)
    · exact hyf z hz
  · rwa [List.getLast?_reverse]
  · intro a b hs hb
    obtain ⟨c, h1, h2⟩ := spans_append.1 hs
    exact hsp' a b (spans_append.2 ⟨c, h1, hsp c b h2 hb⟩) hb

namespace Coalesced

variable {page : ℕ} {l pre x y post : List VaddrReg} {r : VaddrReg} {p : Position}

theorem split (h : Coalesced p pre x r y post) (hp : IsLastAt page l p) :
    l = pre ++ (x ++ p.found :: y) ++ post := by
  rw [hp.split, h.before, h.after]
  simp

theorem partition (h : Coalesced p pre x r y post) (hp : IsLastAt page l p)
    (hl : Partition l) : Partition (pre ++ r :: post) := by
  have hsplit := h.split hp
  have hin : ∀ z, z ∈ pre ∨ z ∈ post → z ∈ l := by
    intro z hz
    rw [hsplit]
    rcases hz with hz | hz <;> simp [hz]
  obtain ⟨b, hb1, hb2⟩ := spans_append.1 (hsplit ▸ hl.spans)
  obtain ⟨a, ha1, ha2⟩ := spans_append.1 hb1
  obtain ⟨hra, hrb⟩ : r.pageAddr = a ∧ a + 4096 * r.size = b := h.spans a b ha2 hb2.le
  -- the region that is freed has pages, so the merged one has
  have hpos : a < b := by
    have hbd := ha2.bounds (r := p.found) (by simp)
    have := hp.size_pos hl
    omega
  have hmem : ∀ z ∈ pre ++ r :: post, z ∈ l ∨ z = r := by
    intro z hz
    rcases List.mem_append.1 hz with hz | hz
    · exact .inl (hin z (.inl hz))
    · rcases List.mem_cons.1 hz with rfl | hz
      · exact .inr rfl
      · exact .inl (hin z (.inr hz))
  refine ⟨spans_append.2 ⟨a, ha1, hra, hrb ▸ hb2⟩, fun z hz => ?_, fun z hz hf => ?_, ?_,
    fun z hz => ?_, ?_⟩
  · rcases hmem z hz with hz | rfl
    · exact hl.status z hz
    · exact .inr h.status
  · rcases hmem z hz with hz | rfl
    · exact hl.free_pos z hz hf
    · omega
  · have hch := hl.apart
    rw [hsplit, List.isChain_append, List.isChain_append] at hch
    exact isChain_middle.2 ⟨hch.1.1, hch.2.1, fun z hz hb => h.left z hz hb.1,
      fun z hz hb => h.right z hz hb.2⟩
  · rcases hmem z hz with hz | rfl
    · exact hl.starts z hz
    · have := hb2.le
      omega
  · have hnd := hl.nodes
    have hsub : ((pre ++ [p.found] ++ post).map VaddrReg.node).Sublist (l.map VaddrReg.node) := by
      refine List.Sublist.map _ ?_
      rw [hsplit]
      refine List.Sublist.append (List.Sublist.append (List.Sublist.refl _) ?_)
        (List.Sublist.refl _)
      exact List.singleton_sublist.2 (by simp)
    have := hsub.nodup hnd
    simpa [h.node] using this

/-- The regions in use are those that were, without the one that is freed. -/
theorem mem_allocated (h : Coalesced p pre x r y post) {z : VaddrReg}
    (hz : z.status = ALLOCATED) :
    z ∈ pre ++ r :: post ↔ z ∈ p.before ∨ z ∈ p.after := by
  have hne : ∀ w ∈ x ++ y, z ≠ w := by
    rintro w hw rfl
    have := h.free z hw
    rw [hz] at this
    exact absurd this (by decide)
  have hzr : z ≠ r := by
    rintro rfl
    rw [h.status] at hz
    exact absurd hz (by decide)
  have hx : z ∉ x := fun hx => hne z (List.mem_append_left _ hx) rfl
  have hy : z ∉ y := fun hy => hne z (List.mem_append_right _ hy) rfl
  rw [show z ∈ p.before ↔ z ∈ p.before.reverse from List.mem_reverse.symm, h.before, h.after]
  simp [hx, hy, hzr]

end Coalesced

/-! ## Order along the list -/

/-- The regions before and after one of a spanning list lie below and above it. -/
theorem Spans.beside {a b : ℕ} {pre post : List VaddrReg} {r : VaddrReg}
    (h : Spans a (pre ++ r :: post) b) :
    (∀ z ∈ pre, z.pageAddr + 4096 * z.size ≤ r.pageAddr) ∧
      ∀ z ∈ post, r.pageAddr + 4096 * r.size ≤ z.pageAddr := by
  obtain ⟨c, h1, h2⟩ := spans_append.1 h
  obtain ⟨rfl, h3⟩ := h2
  exact ⟨fun z hz => (h1.bounds hz).2, fun z hz => (h3.bounds hz).1⟩

/-- Regions that have a byte in common are the same. -/
theorem Spans.eq_of_mem {a b x : ℕ} {l : List VaddrReg} {r r' : VaddrReg} (h : Spans a l b)
    (hr : r ∈ l) (hr' : r' ∈ l) (hx : r.pageAddr ≤ x ∧ x < r.pageAddr + 4096 * r.size)
    (hx' : r'.pageAddr ≤ x ∧ x < r'.pageAddr + 4096 * r'.size) : r = r' := by
  obtain ⟨pre, post, rfl⟩ := List.append_of_mem hr
  obtain ⟨h1, h2⟩ := h.beside
  rcases List.mem_append.1 hr' with hm | hm
  · have := h1 r' hm
    omega
  · rcases List.mem_cons.1 hm with rfl | hm
    · rfl
    · have := h2 r' hm
      omega

/-- The region that `free_address` selects is unique. -/
theorem IsLastAt.found_eq {page : ℕ} {l : List VaddrReg} {p q : Position}
    (h : IsLastAt page l p) (hq : IsLastAt page l q) (hl : Partition l) : q.found = p.found := by
  have h1 := h.size_pos hl
  have h2 := hq.size_pos hl
  have e1 := h.addr
  have e2 := hq.addr
  exact hl.spans.eq_of_mem (x := page) hq.mem h.mem (by omega) (by omega)

/-- A free region is followed by a region in use, or by nothing. -/
theorem Partition.next_allocated {pre post : List VaddrReg} {r z : VaddrReg}
    (h : Partition (pre ++ r :: z :: post)) (hr : r.status = FREE) : z.status = ALLOCATED := by
  have hch := (isChain_middle.1 h.apart).2.2.2 z (by simp)
  rcases h.status z (by simp) with hz | hz
  · exact hz
  · exact absurd ⟨hr, hz⟩ hch

/-- `check_address_range` accepts exactly the addresses of the regions in use. -/
theorem checkAddressRange_iff {l : List VaddrReg} (hl : Partition l) (x : ℕ) :
    checkAddressRange l x = true ↔
      ∃ r ∈ l, r.status = ALLOCATED ∧ r.pageAddr ≤ x ∧ x < r.pageAddr + 4096 * r.size := by
  have hmod : ∀ r ∈ l, (r.pageAddr + 4096 * r.size) % 2 ^ 64 = r.pageAddr + 4096 * r.size := by
    intro r hr
    have := hl.spans.bounds hr
    unfold petmemRegionEnd at this
    exact Nat.mod_eq_of_lt (by omega)
  unfold checkAddressRange
  rw [List.any_eq_true]
  simp only [decide_eq_true_eq]
  refine exists_congr fun r => and_congr_right fun hr => ?_
  rw [hmod r hr]

end Regions

end Petmem
