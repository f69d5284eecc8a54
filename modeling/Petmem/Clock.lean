import Mathlib.Data.List.TakeWhile
import Petmem.Residency

/-!
# What the clock finds

The clock looks at the first page of each region, except for the region its hand is on. A turn
without a victim clears the accessed bits of all the pages it came past, so the next turn takes
the first of them; when the clock came past no page in memory it turns for ever. It returns
exactly when its hand is on the list and some region other than the one under the hand has its
first page in memory.
-/

namespace Petmem
namespace OnDemand

open ByteMemory RadixTree Pools Swap Regions Pte64

variable {env : Env} {s s' : State} {roots : Set ℕ} {cr3 : ℕ} {hand : Option ℕ} {m m' : Mem}
  {items : List (Option ℕ × VaddrReg)}

/-! ## One turn -/

theorem getValidPageEntry_dvd (m : Mem) (cr3 a : ℕ) : 8 ∣ getValidPageEntry m cr3 a := by
  unfold getValidPageEntry walk
  dsimp only
  split
  · exact dvd_zero 8
  · rename_i w hw
    split at hw
    · cases hw
    · split at hw
      · cases hw
      · split at hw
        · cases hw
        · split at hw
          · cases hw
          · rw [← Option.some.inj hw]
            exact entryVa_dvd _ _

theorem getValidPageEntry_of_masked (h : SameMasked m m') (cr3 a : ℕ) :
    getValidPageEntry m' cr3 a = getValidPageEntry m cr3 a := by
  unfold getValidPageEntry
  rw [h.walk]

/-- An entry that gets a second chance. -/
theorem readPte_secondChance (m : Mem) (page x : ℕ) (hp : 8 ∣ page) (hx : 8 ∣ x) :
    (readPte (writePte m page { readPte m page with accessed := false }) x).accessed
      = if x = page then false else (readPte m x).accessed := by
  split
  · rename_i heq
    subst heq
    unfold readPte writePte
    rw [read64_write64_same, Pte64.ofBits_toBits]
  · unfold readPte writePte
    rw [read64_write64_disjoint]
    omega

/-- A turn without a victim: the pages it came past were all accessed, and get a second
chance. -/
structure Idle (cr3 : ℕ) (items : List (Option ℕ × VaddrReg)) (m m' : Mem) : Prop where
  masked : SameMasked m m'
  cleared : ∀ x, 8 ∣ x → (readPte m' x).accessed = true → (readPte m x).accessed = true
  passed : ∀ it ∈ items, getValidPageEntry m cr3 it.2.pageAddr ≠ 0 →
    (readPte m (getValidPageEntry m cr3 it.2.pageAddr)).accessed = true ∧
    (readPte m' (getValidPageEntry m cr3 it.2.pageAddr)).accessed = false

theorem idle_of_clockScan : ∀ {m m' : Mem}, clockScan cr3 hand items m = (m', none) →
    Idle cr3 items m m' := by
  induction items with
  | nil =>
    intro m m' h
    rw [← (Prod.mk.inj h).1]
    exact ⟨SameMasked.refl _, fun _ _ h => h, fun it hit => by cases hit⟩
  | cons it rest ih =>
    obtain ⟨ptr, entry⟩ := it
    intro m m' h
    rw [clockScan] at h
    dsimp only at h
    split at h
    · split at h
      · rename_i hpage hacc
        -- a second chance for this page
        have hdvd := getValidPageEntry_dvd m cr3 entry.pageAddr
        have hmask : SameMasked m _ := sameMasked_writePte hdvd false
        have hread := readPte_secondChance m (getValidPageEntry m cr3 entry.pageAddr)
        have hrest := ih h
        refine ⟨hmask.trans hrest.masked, fun x hx hxa => ?_, fun it hit hne => ?_⟩
        · have hxa' := hrest.cleared x hx hxa
          rw [hread x hdvd hx] at hxa'
          split at hxa'
          · cases hxa'
          · exact hxa'
        · have hnow : (readPte m' (getValidPageEntry m cr3 entry.pageAddr)).accessed = false := by
            by_contra hc
            have := hrest.cleared _ hdvd (Bool.eq_true_of_not_eq_false hc)
            rw [hread _ hdvd hdvd, if_pos rfl] at this
            cases this
          rcases List.mem_cons.1 hit with rfl | hit
          · exact ⟨hacc, hnow⟩
          · have hp := hrest.passed it hit
            rw [getValidPageEntry_of_masked hmask] at hp
            obtain ⟨h1, h2⟩ := hp hne
            rw [hread _ hdvd (getValidPageEntry_dvd _ _ _)] at h1
            split at h1
            · cases h1
            · exact ⟨h1, h2⟩
      · cases (Prod.mk.inj h).2
    · rename_i hpage
      have hrest := ih h
      refine ⟨hrest.masked, hrest.cleared, fun it hit hne => ?_⟩
      rcases List.mem_cons.1 hit with rfl | hit
      · exact absurd hne hpage
      · exact hrest.passed it hit hne

/-- A turn past no page in memory does nothing. -/
theorem clockScan_of_absent (h : ∀ it ∈ items, getValidPageEntry m cr3 it.2.pageAddr = 0) :
    clockScan cr3 hand items m = (m, none) := by
  induction items with
  | nil => rfl
  | cons it rest ih =>
    rw [clockScan]
    simp only [h it List.mem_cons_self, ne_eq, not_true_eq_false, if_false]
    exact ih fun it hit => h it (List.mem_cons_of_mem _ hit)

/-- Two turns find a victim, unless there is no page to come past. -/
theorem absent_of_idle {m₁ m₂ : Mem} (h1 : clockScan cr3 hand items m = (m₁, none))
    (h2 : clockScan cr3 hand items m₁ = (m₂, none)) :
    ∀ it ∈ items, getValidPageEntry m cr3 it.2.pageAddr = 0 := by
  intro it hit
  by_contra hne
  have hfirst := idle_of_clockScan h1
  have hsecond := (idle_of_clockScan h2).passed it hit
  rw [getValidPageEntry_of_masked hfirst.masked] at hsecond
  have := (hsecond hne).1
  rw [(hfirst.passed it hit hne).2] at this
  cases this

/-! ## The loop -/

/-- The loop of `page_replacement_clock`, for at most `n` turns. -/
def clockTurns (cr3 : ℕ) (hand : Option ℕ) (ring : List (Option ℕ × VaddrReg)) :
    ℕ → Mem → Mem × Option Victim
  | 0, m => (m, none)
  | n + 1, m =>
    match clockScan cr3 hand ring m with
    | (m, some v) => (m, some v)
    | (m, none) => clockTurns cr3 hand ring n m

/-- Any number of turns from the second on comes to the same. -/
theorem clockTurns_of_two_le (cr3 : ℕ) (hand : Option ℕ) (ring : List (Option ℕ × VaddrReg))
    (m : Mem) {n : ℕ} (hn : 2 ≤ n) :
    (clockTurns cr3 hand ring n m).2 = (clockTurns cr3 hand ring 2 m).2 := by
  obtain ⟨n, rfl⟩ := Nat.exists_eq_add_of_le' hn
  simp only [clockTurns]
  rcases hfirst : clockScan cr3 hand ring m with ⟨m₁, _ | v⟩
  · dsimp only
    rcases hsecond : clockScan cr3 hand ring m₁ with ⟨m₂, _ | v⟩
    · -- there is no page to come past, in this turn or in any other
      have habsent := absent_of_idle hfirst hsecond
      have hmask := (idle_of_clockScan hfirst).masked.trans (idle_of_clockScan hsecond).masked
      dsimp only
      clear hfirst hsecond hn
      induction n with
      | zero => rfl
      | succ n ih =>
        rw [clockTurns, clockScan_of_absent fun it hit => by
          rw [getValidPageEntry_of_masked hmask]; exact habsent it hit]
        exact ih
    · rfl
  · rfl

/-- The model of `page_replacement_clock` returns exactly when its loop ends. -/
theorem pageReplacementClock_iff_turns {ring : List (Option ℕ × VaddrReg)}
    (hring : ringAfter env.head s.map.memoryAllocations s.map.clockHand = some ring) {v : Victim} :
    (∃ s', pageReplacementClock env s = .ok (v, s')) ↔
      ∃ n, (clockTurns env.cr3 s.map.clockHand ring n s.mem).2 = some v := by
  -- the function makes two turns, and further ones find nothing new
  have htwo : (∃ s', pageReplacementClock env s = .ok (v, s')) ↔
      (clockTurns env.cr3 s.map.clockHand ring 2 s.mem).2 = some v := by
    unfold pageReplacementClock
    rw [hring]
    simp only [clockTurns]
    rcases hfirst : clockScan env.cr3 s.map.clockHand ring s.mem with ⟨m₁, _ | v₁⟩
    · dsimp only
      rcases hsecond : clockScan env.cr3 s.map.clockHand ring m₁ with ⟨m₂, _ | v₂⟩
      · simp
      · simp
    · simp
  rw [htwo]
  constructor
  · exact fun h => ⟨2, h⟩
  · rintro ⟨n, hn⟩
    rcases n with _ | _ | n
    · cases hn
    · simp only [clockTurns] at hn ⊢
      rcases hfirst : clockScan env.cr3 s.map.clockHand ring s.mem with ⟨m₁, _ | v₁⟩
      · rw [hfirst] at hn
        cases hn
      · rw [hfirst] at hn
        exact hn
    · rwa [clockTurns_of_two_le _ _ _ _ (by omega)] at hn

/-- The loop ends exactly when there is a page to come past. -/
theorem pageReplacementClock_returns_iff {ring : List (Option ℕ × VaddrReg)}
    (hring : ringAfter env.head s.map.memoryAllocations s.map.clockHand = some ring) :
    (∃ v s', pageReplacementClock env s = .ok (v, s')) ↔
      ∃ it ∈ ring, getValidPageEntry s.mem env.cr3 it.2.pageAddr ≠ 0 := by
  constructor
  · rintro ⟨v, s', h⟩
    by_contra hno
    push Not at hno
    obtain ⟨n, hn⟩ := (pageReplacementClock_iff_turns hring).1 ⟨s', h⟩
    clear h
    -- no turn finds a page where no entry leads to one
    induction n with
    | zero => cases hn
    | succ n ih =>
      rw [clockTurns, clockScan_of_absent hno] at hn
      exact ih hn
  · rintro ⟨it, hit, hne⟩
    by_contra hno
    -- two idle turns mean that no entry leads to a page
    have hturns : ∀ n, (clockTurns env.cr3 s.map.clockHand ring n s.mem).2 = none := by
      intro n
      by_contra hc
      obtain ⟨v, hv⟩ := Option.ne_none_iff_exists'.1 hc
      exact hno ⟨v, (pageReplacementClock_iff_turns hring).2 ⟨n, hv⟩⟩
    have htwo := hturns 2
    simp only [clockTurns] at htwo
    rcases hfirst : clockScan env.cr3 s.map.clockHand ring s.mem with ⟨m₁, _ | v₁⟩
    · rw [hfirst] at htwo
      dsimp only at htwo
      rcases hsecond : clockScan env.cr3 s.map.clockHand ring m₁ with ⟨m₂, _ | v₂⟩
      · exact hne (absent_of_idle hfirst hsecond it hit)
      · rw [hsecond] at htwo
        cases htwo
    · rw [hfirst] at htwo
      cases htwo

/-! ## The ring -/

theorem ringAfter_isSome_iff {head : VaddrReg} {l : List VaddrReg} {hand : Option ℕ} :
    (∃ ring, ringAfter head l hand = some ring) ↔
      hand = none ∨ ∃ reg ∈ l, hand = some reg.node := by
  cases hand with
  | none => simp [ringAfter]
  | some hand =>
    constructor
    · rintro ⟨ring, h⟩
      obtain ⟨pre, y, post, rfl, rfl, -⟩ := ringAfter_eq_some h
      exact .inr ⟨y, by simp, rfl⟩
    · rintro (h | ⟨reg, hreg, h⟩)
      · cases h
      · simp only [ringAfter, List.span_eq_takeWhile_dropWhile]
        cases hdrop : l.dropWhile (fun x : VaddrReg => decide (x.node ≠ hand)) with
        | nil =>
          have := List.dropWhile_eq_nil_iff.1 hdrop reg hreg
          rw [Option.some.inj h] at this
          simp at this
        | cons y post => exact ⟨_, rfl⟩

/-- The ring has all regions but the one under the hand. -/
theorem mem_ringAfter_iff {head : VaddrReg} {l : List VaddrReg} {hand : Option ℕ}
    {ring : List (Option ℕ × VaddrReg)} (hl : (l.map VaddrReg.node).Nodup)
    (h : ringAfter head l hand = some ring) {reg : VaddrReg} :
    (some reg.node, reg) ∈ ring ↔ reg ∈ l ∧ hand ≠ some reg.node := by
  cases hand with
  | none =>
    cases h
    simp
  | some hand =>
    obtain ⟨pre, y, post, rfl, rfl, rfl⟩ := ringAfter_eq_some h
    -- the hand's own region is the only one with its node
    have hne : ∀ z, z ∈ pre ∨ z ∈ post → y.node ≠ z.node := by
      simp only [List.map_append, List.map_cons, List.nodup_append, List.nodup_cons] at hl
      rintro z (hz | hz) heq
      · exact hl.2.2 z.node (List.mem_map_of_mem hz) y.node (by simp) heq.symm
      · exact hl.2.1.1 (heq ▸ List.mem_map_of_mem hz)
    have hmem : (some reg.node, reg) ∈ post.map (fun r => (some r.node, r)) ++ (none, head) ::
        pre.map (fun r => (some r.node, r)) ↔ reg ∈ pre ∨ reg ∈ post := by
      simp [or_comm]
    rw [hmem]
    constructor
    · intro hreg
      refine ⟨?_, fun hc => hne reg hreg (Option.some.inj hc)⟩
      rcases hreg with hreg | hreg
      · simp [hreg]
      · simp [hreg]
    · rintro ⟨hreg, hhand⟩
      rcases List.mem_append.1 hreg with hreg | hreg
      · exact .inl hreg
      · rcases List.mem_cons.1 hreg with rfl | hreg
        · exact absurd rfl hhand
        · exact .inr hreg

/-! ## Reachable states -/

theorem getValidPageEntry_ne_zero_iff {a : ℕ} (h : Owned s.toKern roots)
    (hr : rootFrame cr3 ∈ roots) (ha : a ∈ Region) :
    getValidPageEntry s.mem cr3 a ≠ 0 ↔ walk s.mem cr3 a ≠ none := by
  rw [← resident_iff_walk ha, resident_iff]
  rcases getValidPageEntry_cases h hr ha with ⟨hz, hnone⟩ | ⟨f, g, hva, hne, -, h4⟩
  · simp [hz, hnone]
  · rw [hva]
    simp [hne, h4]

variable {k : Kern} {node : ℕ} {es : List Event}

end OnDemand

end Petmem
