import Petmem.OfflineSearch

/-!
# Blocks that stay offline

When a block of the window is found online, `main` puts the blocks in front of it back online. It
has asked all the blocks of the window to go offline, though, and those behind the one that refused
are not put back. So a failed attempt is undone exactly when the blocks behind the first one that
refuses refuse as well.

The windows the tool tries can be read off the bitmap and the blocks that refuse (`Tried`): only
blocks that refuse are struck off, so a window is tried if nothing in front of it can be added to
it and there is no window of blocks that all obey before it.
-/

namespace Petmem
namespace Offlining

open Windows

variable {refuses : ℕ → Bool} {n : ℕ} {bitmap : Bitmap} {st st' : Search (ℕ → Bool)}

/-! ## Requests -/

/-- A loop of requests reaches each of its blocks once. -/
theorem requestBlocks_blockFiles (refuses : ℕ → Bool) (req : Request) (w : ℕ) :
    ∀ (left i : ℕ) (online : ℕ → Bool), ∃ online',
      requestBlocks (blockFiles refuses) req w left i online = .ok online' ∧
      ∀ b, online' b = if i + w ≤ b ∧ b < i + left + w then answer (refuses b) req (online b)
        else online b := by
  intro left
  induction left with
  | zero =>
    intro i online
    exact ⟨online, rfl, fun b => by rw [if_neg (by omega)]⟩
  | succ left ih =>
    intro i online
    obtain ⟨online', hrun, hafter⟩ := ih (i + 1)
      (Function.update online (i + w) (answer (refuses (i + w)) req (online (i + w))))
    refine ⟨online', hrun, fun b => ?_⟩
    rw [hafter b]
    by_cases hb : b = i + w
    · subst hb
      rw [if_neg (by omega), if_pos (by omega), Function.update_self]
    · rw [Function.update_of_ne hb]
      by_cases hin : i + 1 + w ≤ b ∧ b < i + 1 + left + w
      · rw [if_pos hin, if_pos (by omega)]
      · rw [if_neg hin, if_neg (by omega)]

/-- What was read of the blocks. -/
theorem Verified.blockFiles {w i : ℕ} {s s' : ℕ → Bool}
    (h : Verified (blockFiles refuses) w i s s') :
    s' = s ∧ ∀ b, w ≤ b → b < i + w → s b = false := by
  induction h with
  | none => exact ⟨rfl, fun b hb hlt => by omega⟩
  | @read i s s₁ s₂ text _ hread htext ih =>
    obtain ⟨rfl, hbelow⟩ := ih
    obtain ⟨rfl, rfl⟩ := Prod.mk.inj (Option.some.inj hread)
    refine ⟨rfl, fun b hb hlt => ?_⟩
    by_cases heq : b = i + w
    · subst heq
      by_contra hon
      rw [Bool.not_eq_false] at hon
      rw [hon] at htext
      cases htext
    · exact hbelow b hb (by omega)

/-! ## Passes that begin with all blocks online -/

/-- All blocks are online, and only blocks that refuse were struck off the bitmap. -/
structure Intact (refuses : ℕ → Bool) (n : ℕ) (bitmap : Bitmap) (st : Search (ℕ → Bool)) :
    Prop where
  online : ∀ b, st.sys b = true
  fresh : Fresh n st
  sub : st.bitmap.blocks ⊆ bitmap.blocks
  struck : bitmap.blocks \ {b | refuses b = true} ⊆ st.bitmap.blocks

/-- A failed attempt on the window at `w`: `r` is the first block that refuses, and the blocks
behind it that obey stay offline. -/
structure Failed (refuses : ℕ → Bool) (n : ℕ) (st : Search (ℕ → Bool)) (w r : ℕ)
    (st' : Search (ℕ → Bool)) : Prop where
  least : IsLeast (windows st.bitmap.blocks n) w
  le : w ≤ r
  lt : r < w + n
  refused : refuses r = true
  obeyed : ∀ b, w ≤ b → b < r → refuses b = false
  struck : st'.bitmap = st.bitmap.clear r
  online : ∀ b, st'.sys b = true ↔ b ≤ r ∨ w + n ≤ b ∨ refuses b = true

/-- The window is taken: all its blocks obey, and they are the ones that are offline. -/
structure Taken (refuses : ℕ → Bool) (n : ℕ) (st : Search (ℕ → Bool)) (w : ℕ)
    (st' : Search (ℕ → Bool)) : Prop where
  least : IsLeast (windows st.bitmap.blocks n) w
  start : st'.regStart = w
  obeyed : ∀ b, w ≤ b → b < w + n → refuses b = false
  offline : ∀ b, st'.sys b = false ↔ w ≤ b ∧ b < w + n

namespace Intact

/-- The state after the loop that takes the blocks offline. -/
theorem offlined (h : Intact refuses n bitmap st) {w : ℕ} {s : ℕ → Bool}
    (hrun : requestBlocks (blockFiles refuses) .offline w n 0 st.sys = .ok s) (b : ℕ) :
    s b = if w ≤ b ∧ b < w + n then refuses b else true := by
  obtain ⟨s', hrun', hafter⟩ := requestBlocks_blockFiles refuses .offline w n 0 st.sys
  obtain rfl : s = s' := Except.ok.inj (hrun.symm.trans hrun')
  rw [hafter b, h.online b, Nat.zero_add, Nat.zero_add, Nat.add_comm n w]
  simp [answer]

theorem failed (h : Intact refuses n bitmap st) (hn : 0 < n)
    (hrun : pass (blockFiles refuses) n st = .again st') :
    ∃ w r, Failed refuses n st w r st' := by
  have hcase := h.fresh.pass_cases (blockFiles refuses) hn
  rw [hrun] at hcase
  cases hcase with
  | @again w i s s₁ s₂ s₃ text hleast hoff hi hver hread htext hback =>
    have hs := h.offlined hoff
    obtain ⟨rfl, hbelow⟩ := hver.blockFiles
    obtain ⟨rfl, rfl⟩ := Prod.mk.inj (Option.some.inj hread)
    obtain ⟨s', hback', hafter⟩ :=
      requestBlocks_blockFiles refuses .online w i 0 s₁
    obtain rfl : s₃ = s' := Except.ok.inj (hback.symm.trans hback')
    -- of the blocks that were asked only those that refuse are online
    have hrefused : refuses (i + w) = true := by
      have hon : s₁ (i + w) = true := by
        by_contra hoff
        rw [Bool.not_eq_true] at hoff
        rw [hoff] at htext
        cases htext
      rwa [hs, if_pos (by omega)] at hon
    refine ⟨w, i + w, hleast, by omega, by omega, hrefused, fun b hb hlt => ?_, rfl, fun b => ?_⟩
    · have := hbelow b hb hlt
      rwa [hs, if_pos (by omega)] at this
    · change s₃ b = true ↔ _
      rw [hafter b, hs b]
      -- in front of the block: back online; the window behind it: as it was left
      by_cases hfront : 0 + w ≤ b ∧ b < 0 + i + w
      · rw [if_pos hfront]
        exact ⟨fun _ => .inl (by omega), fun _ => rfl⟩
      · rw [if_neg hfront]
        by_cases hin : w ≤ b ∧ b < w + n
        · rw [if_pos hin]
          refine ⟨fun hb => .inr (.inr hb), ?_⟩
          rintro (hb | hb | hb)
          · obtain rfl : b = i + w := by omega
            exact hrefused
          · omega
          · exact hb
        · rw [if_neg hin]
          exact ⟨fun _ => by omega, fun _ => rfl⟩

theorem taken (h : Intact refuses n bitmap st) (hn : 0 < n)
    (hrun : pass (blockFiles refuses) n st = .ready st') : ∃ w, Taken refuses n st w st' := by
  have hcase := h.fresh.pass_cases (blockFiles refuses) hn
  rw [hrun] at hcase
  cases hcase with
  | @ready w s s' hleast hoff hver =>
    have hs := h.offlined hoff
    obtain ⟨rfl, hall⟩ := hver.blockFiles
    have hobeyed : ∀ b, w ≤ b → b < w + n → refuses b = false := fun b hb hlt => by
      have := hall b hb (by omega)
      rwa [hs, if_pos ⟨hb, hlt⟩] at this
    refine ⟨w, hleast, rfl, hobeyed, fun b => ?_⟩
    change s' b = false ↔ _
    rw [hs b]
    by_cases hin : w ≤ b ∧ b < w + n
    · rw [if_pos hin]
      exact ⟨fun _ => hin, fun _ => hobeyed b hin.1 hin.2⟩
    · rw [if_neg hin]
      exact ⟨fun hb => absurd hb (by decide), fun hb => absurd hb hin⟩

/-- The first window that is left is one of those that are tried. -/
theorem tried (h : Intact refuses n bitmap st) {w : ℕ}
    (hleast : IsLeast (windows st.bitmap.blocks n) w) :
    Tried bitmap.blocks {b | refuses b = true} n w :=
  tried_of_isLeast h.sub h.struck hleast

/-- A failed attempt that puts all blocks back leaves the next pass with all blocks online. -/
theorem again (h : Intact refuses n bitmap st) (hn : 0 < n)
    (hrun : pass (blockFiles refuses) n st = .again st') (hon : ∀ b, st'.sys b = true) :
    Intact refuses n bitmap st' := by
  obtain ⟨w, r, hfail⟩ := h.failed hn hrun
  obtain ⟨-, -, -, hfresh⟩ := h.fresh.again_spec hn hrun
  have hmem := mem_of_mem_windows hfail.least.1 hfail.le hfail.lt
  have hblocks : st'.bitmap.blocks = st.bitmap.blocks \ {r} := by
    rw [hfail.struck, Bitmap.blocks_clear _ hmem.1]
  refine ⟨hon, hfresh, ?_, ?_⟩
  · rw [hblocks]
    exact Set.sdiff_subset.trans h.sub
  -- only a block that refuses was struck off
  · rintro b ⟨hb, hobeys⟩
    rw [hblocks]
    refine ⟨h.struck ⟨hb, hobeys⟩, ?_⟩
    rintro rfl
    exact hobeys hfail.refused

end Intact

/-! ## Whole searches -/

/-- The state in which the search begins: all blocks are online. -/
def firstPass (bitmap : Bitmap) : Search (ℕ → Bool) := ⟨bitmap, 0, fun _ => true⟩

theorem intact_firstPass (refuses : ℕ → Bool) (n : ℕ) (bitmap : Bitmap) :
    Intact refuses n bitmap (firstPass bitmap) :=
  ⟨fun _ => rfl, .inl rfl, le_refl _, fun _ hb => hb.1⟩

/-- What is left offline: nothing by a pass that goes on to another window or gives up, and the
window from `reg_start` on, which is handed to `ADD_MEMORY`, by a pass that succeeds. -/
structure Undone (refuses : ℕ → Bool) (n : ℕ) (bitmap : Bitmap) : Prop where
  again : ∀ st st', Retries (blockFiles refuses) n (firstPass bitmap) st →
    pass (blockFiles refuses) n st = .again st' → ∀ b, st.sys b = true → st'.sys b = true
  notFound : ∀ st st', Retries (blockFiles refuses) n (firstPass bitmap) st →
    pass (blockFiles refuses) n st = .notFound st' → ∀ b, st'.sys b = true
  ready : ∀ st st', Retries (blockFiles refuses) n (firstPass bitmap) st →
    pass (blockFiles refuses) n st = .ready st' →
      ∀ b, st'.sys b = false ↔ st'.regStart ≤ b ∧ b < st'.regStart + n

/-- Where every attempt is undone, every pass begins with all blocks online. -/
theorem intact_of_undone (hn : 0 < n)
    (hagain : ∀ st st', Retries (blockFiles refuses) n (firstPass bitmap) st →
      Intact refuses n bitmap st → pass (blockFiles refuses) n st = .again st' →
      ∀ b, st'.sys b = true)
    (h : Retries (blockFiles refuses) n (firstPass bitmap) st) : Intact refuses n bitmap st := by
  induction h with
  | refl => exact intact_firstPass refuses n bitmap
  | tail hretries hstep ih => exact ih.again hn hstep (hagain _ _ hretries ih hstep)

/-- The blocks behind one that refuses refuse too, as far as the window goes. -/
theorem refuses_of_adjacent {w r : ℕ} (hr : w ≤ r) (hrefused : refuses r = true)
    (hadj : ∀ b, w ≤ b → b + 1 < w + n → refuses b = true → refuses (b + 1) = true) :
    ∀ k, r + k < w + n → refuses (r + k) = true := by
  intro k
  induction k with
  | zero => exact fun _ => hrefused
  | succ k ih => exact fun hk => hadj (r + k) (by omega) hk (ih (by omega))

/-- A window that is tried is come to, if every attempt before it is undone: it cannot have a
block that refuses with one behind it that obeys. -/
theorem Undone.refuses_succ (h : Undone refuses n bitmap) (hn : 0 < n) {w b : ℕ}
    (htried : Tried bitmap.blocks {b | refuses b = true} n w) (hb : w ≤ b) (hlt : b + 1 < w + n)
    (hrefused : refuses b = true) : refuses (b + 1) = true := by
  by_contra hobeys
  -- by induction on the bits that are left: no pass can start with the window in its bitmap
  suffices hnone : ∀ k st, Retries (blockFiles refuses) n (firstPass bitmap) st →
      st.bitmap.count = k → w ∉ windows st.bitmap.blocks n from
    hnone _ _ .refl rfl htried.window
  intro k
  induction k using Nat.strong_induction_on with
  | _ k ih =>
    intro st hretries hcount hwindow
    have hintact := intact_of_undone hn
      (fun st st' hst hin hstep b => h.again st st' hst hstep b (hin.online b)) hretries
    have hcase := hintact.fresh.pass_cases (blockFiles refuses) hn
    generalize hrun : pass (blockFiles refuses) n st = p at hcase
    cases hcase with
    | fileError _ => exact pass_ne_fileError (blockFiles_succeeds refuses) st _ hrun
    | notFound hempty => exact absurd hwindow (hempty ▸ Set.notMem_empty w)
    | ready _ _ _ =>
      obtain ⟨v, htaken⟩ := hintact.taken hn hrun
      rcases Nat.eq_or_lt_of_le (htaken.least.2 hwindow) with rfl | hvw
      · rw [htaken.obeyed b hb (by omega)] at hrefused
        cases hrefused
      · obtain ⟨i, hi, hbad⟩ := htried.exists_bad hintact.sub htaken.least.1 hvw
        have hgood := htaken.obeyed (v + i) (by omega) (by omega)
        rw [Set.mem_ofPred_eq, hgood] at hbad
        cases hbad
    | again _ _ _ _ _ _ _ =>
      obtain ⟨v, r, hfail⟩ := hintact.failed hn hrun
      have hmem := mem_of_mem_windows hfail.least.1 hfail.le hfail.lt
      rcases Nat.eq_or_lt_of_le (hfail.least.2 hwindow) with rfl | hvw
      · -- the window itself: the block behind stays offline
        have hrb : r ≤ b := by
          by_contra hbr
          rw [hfail.obeyed b hb (by omega)] at hrefused
          cases hrefused
        have hon := h.again _ _ hretries hrun (b + 1) (hintact.online _)
        rw [hfail.online] at hon
        rcases hon with hon | hon | hon
        · omega
        · omega
        · exact hobeys hon
      · -- a window before it: it is there in the next pass too
        have hrw := htried.lt_of_first_bad hintact.sub hfail.least.1 hvw hfail.lt
          fun j hj hjr hbad => by
            rw [Set.mem_ofPred_eq, hfail.obeyed j hj hjr] at hbad
            cases hbad
        have hleft := st.bitmap.count_clear hmem
        rw [← hfail.struck] at hleft
        refine ih _ (by omega) _ (hretries.tail hrun) rfl ?_
        rw [hfail.struck, Bitmap.blocks_clear _ hmem.1]
        exact mem_windows_diff_singleton hwindow hrw

/-- **A failed attempt is undone**, in every pass of the search, exactly when no window that is
tried has a block that refuses directly in front of one that obeys. -/
theorem undone_iff (hn : 0 < n) (bitmap : Bitmap) (refuses : ℕ → Bool) :
    Undone refuses n bitmap ↔
      ∀ w, Tried bitmap.blocks {b | refuses b = true} n w →
        ∀ b, w ≤ b → b + 1 < w + n → refuses b = true → refuses (b + 1) = true := by
  refine ⟨fun h w htried b hb hlt => h.refuses_succ hn htried hb hlt, fun hcond => ?_⟩
  have hundo : ∀ st st', Intact refuses n bitmap st →
      pass (blockFiles refuses) n st = .again st' → ∀ b, st'.sys b = true := by
    intro st st' hintact hrun b
    obtain ⟨w, r, hfail⟩ := hintact.failed hn hrun
    rw [hfail.online]
    by_cases hin : b ≤ r ∨ w + n ≤ b
    · rcases hin with hin | hin
      · exact .inl hin
      · exact .inr (.inl hin)
    · have := refuses_of_adjacent hfail.le hfail.refused (hcond w (hintact.tried hfail.least))
        (b - r) (by omega)
      rw [Nat.add_sub_cancel' (by omega)] at this
      exact .inr (.inr this)
  have hintact : ∀ st, Retries (blockFiles refuses) n (firstPass bitmap) st →
      Intact refuses n bitmap st := fun st =>
    intact_of_undone hn fun st st' _ hin hstep => hundo st st' hin hstep
  refine ⟨fun st st' hst hrun b _ => hundo st st' (hintact st hst) hrun b,
    fun st st' hst hrun b => ?_, fun st st' hst hrun b => ?_⟩
  · have hcase := (hintact st hst).fresh.pass_cases (blockFiles refuses) hn
    rw [hrun] at hcase
    cases hcase with
    | notFound _ => exact (hintact st hst).online b
  · obtain ⟨w, htaken⟩ := (hintact st hst).taken hn hrun
    rw [htaken.start]
    exact htaken.offline b

/-- Block 1 of four refuses: block 0 is put back, and the search ends with the blocks 2 and 3. -/
theorem undone_of_refusing_block : Undone (fun b => b == 1) 2 ⟨4, [15], rfl⟩ := by
  refine (undone_iff (by norm_num) _ _).2 fun w htried b hb hlt hrefused => ?_
  obtain rfl : b = w := by omega
  obtain rfl : b = 1 := beq_iff_eq.1 hrefused
  rcases htried.fresh with h0 | h0
  · cases h0
  · exact absurd ⟨⟨by norm_num, rfl⟩, Bool.false_ne_true⟩ h0

/-- Block 0 of two refuses, and there is no other window: the tool gives up with block 1 offline. -/
theorem block_left_offline :
    ∃ st st', Retries (blockFiles fun b => b == 0) 2 (firstPass ⟨2, [3], rfl⟩) st ∧
      pass (blockFiles fun b => b == 0) 2 st = .notFound st' ∧ st'.sys 1 = false ∧
      ¬ Undone (fun b => b == 0) 2 ⟨2, [3], rfl⟩ := by
  have hrun : ∃ st st', Retries (blockFiles fun b => b == 0) 2 (firstPass ⟨2, [3], rfl⟩) st ∧
      pass (blockFiles fun b => b == 0) 2 st = .notFound st' ∧ st'.sys 1 = false :=
    ⟨_, _, .single rfl, rfl, rfl⟩
  obtain ⟨st, st', hretries, hpass, hoff⟩ := hrun
  refine ⟨st, st', hretries, hpass, hoff, fun h => ?_⟩
  rw [h.notFound st st' hretries hpass 1] at hoff
  cases hoff

end Offlining

end Petmem
