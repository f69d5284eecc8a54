import Petmem.OfflineRollback
import Petmem.OfflineTool

/-!
# The tool run twice

`main` reads which blocks are removable, and never whether they are online to begin with. A block
that is offline already passes: it is asked to go offline once more, and is read as offline. So a
second run comes to the same window again. Every window before it still has the block that was
struck off in the first run, which is online and refuses, and the blocks that are put back online
lie in front of that block, never in the window that was taken.
-/

namespace Petmem
namespace Offlining

open Numerals Windows

variable {refuses : ℕ → Bool} {n w r fuel fuel' : ℕ} {bitmap : Bitmap}
  {st st' : Search (ℕ → Bool)}

/-! ## Passes from any state of the files -/

/-- The window at `w` was tried, and `r` is the first of its blocks that is online after that. -/
structure Refused (refuses : ℕ → Bool) (n : ℕ) (st : Search (ℕ → Bool)) (w r : ℕ)
    (st' : Search (ℕ → Bool)) : Prop where
  least : IsLeast (windows st.bitmap.blocks n) w
  le : w ≤ r
  lt : r < w + n
  refused : (refuses r && st.sys r) = true
  before : ∀ b, w ≤ b → b < r → (refuses b && st.sys b) = false
  struck : st'.bitmap = st.bitmap.clear r
  files : ∀ b, st'.sys b = if w ≤ b ∧ b < r then true
    else if w ≤ b ∧ b < w + n then refuses b && st.sys b else st.sys b

/-- The window at `w` was taken. -/
structure Obeyed (refuses : ℕ → Bool) (n : ℕ) (st : Search (ℕ → Bool)) (w : ℕ)
    (st' : Search (ℕ → Bool)) : Prop where
  least : IsLeast (windows st.bitmap.blocks n) w
  start : st'.regStart = w
  obeyed : ∀ b, w ≤ b → b < w + n → (refuses b && st.sys b) = false
  files : ∀ b, st'.sys b = if w ≤ b ∧ b < w + n then false else st.sys b

/-- The loop that takes a window offline. -/
theorem files_offline {online s : ℕ → Bool}
    (hrun : requestBlocks (blockFiles refuses) .offline w n 0 online = .ok s) (b : ℕ) :
    s b = if w ≤ b ∧ b < w + n then refuses b && online b else online b := by
  obtain ⟨s', hrun', hafter⟩ := requestBlocks_blockFiles refuses .offline w n 0 online
  obtain rfl : s = s' := Except.ok.inj (hrun.symm.trans hrun')
  rw [hafter b, Nat.zero_add, Nat.zero_add, Nat.add_comm n w]
  rfl

theorem Fresh.refused (h : Fresh n st) (hn : 0 < n)
    (hrun : pass (blockFiles refuses) n st = .again st') : ∃ w r, Refused refuses n st w r st' := by
  have hcase := h.pass_cases (blockFiles refuses) hn
  rw [hrun] at hcase
  cases hcase with
  | @again w i s s₁ s₂ s₃ text hleast hoff hi hver hread htext hback =>
    have hs := files_offline hoff
    obtain ⟨rfl, hbelow⟩ := hver.blockFiles
    obtain ⟨rfl, rfl⟩ := Prod.mk.inj (Option.some.inj hread)
    obtain ⟨s', hback', hafter⟩ := requestBlocks_blockFiles refuses .online w i 0 s₁
    obtain rfl : s₃ = s' := Except.ok.inj (hback.symm.trans hback')
    have hrefused : s₁ (i + w) = true := by
      by_contra hoff
      rw [Bool.not_eq_true] at hoff
      rw [hoff] at htext
      cases htext
    refine ⟨w, i + w, hleast, by omega, by omega, ?_, fun b hb hlt => ?_, rfl, fun b => ?_⟩
    · rwa [hs, if_pos (by omega)] at hrefused
    · have := hbelow b hb hlt
      rwa [hs, if_pos (by omega)] at this
    · change s₃ b = _
      rw [hafter b, hs b]
      simp only [Nat.zero_add]
      rfl

theorem Fresh.obeyed (h : Fresh n st) (hn : 0 < n)
    (hrun : pass (blockFiles refuses) n st = .ready st') : ∃ w, Obeyed refuses n st w st' := by
  have hcase := h.pass_cases (blockFiles refuses) hn
  rw [hrun] at hcase
  cases hcase with
  | @ready w s s' hleast hoff hver =>
    have hs := files_offline hoff
    obtain ⟨rfl, hall⟩ := hver.blockFiles
    refine ⟨w, hleast, rfl, fun b hb hlt => ?_, fun b => ?_⟩
    · have := hall b hb (by omega)
      rwa [hs, if_pos ⟨hb, hlt⟩] at this
    · change s' b = _
      by_cases hin : w ≤ b ∧ b < w + n
      · rw [if_pos hin]
        exact hall b hin.1 (by omega)
      · rw [hs, if_neg hin, if_neg hin]

/-- A block that is online and refuses stays online. -/
theorem Refused.online (h : Refused refuses n st w r st') {b : ℕ}
    (hb : (refuses b && st.sys b) = true) : (refuses b && st'.sys b) = true := by
  obtain ⟨hr, hon⟩ := Bool.and_eq_true_iff.1 hb
  rw [h.files, hb, hon, hr]
  split <;> simp

theorem Refused.blocks (h : Refused refuses n st w r st') :
    st'.bitmap.blocks = st.bitmap.blocks \ {r} := by
  rw [h.struck, Bitmap.blocks_clear _ (mem_of_mem_windows h.least.1 h.le h.lt).1]

/-! ## The first run -/

/-- Blocks that are struck off are online and refuse. -/
structure Stuck (refuses : ℕ → Bool) (bitmap : Bitmap) (st : Search (ℕ → Bool)) : Prop where
  sub : st.bitmap.blocks ⊆ bitmap.blocks
  online : ∀ b ∈ bitmap.blocks \ st.bitmap.blocks, (refuses b && st.sys b) = true

theorem Refused.stuck (hstep : Refused refuses n st w r st') (h : Stuck refuses bitmap st) :
    Stuck refuses bitmap st' := by
  refine ⟨hstep.blocks ▸ Set.sdiff_subset.trans h.sub, fun b hb => hstep.online ?_⟩
  rw [hstep.blocks] at hb
  by_cases hmem : b ∈ st.bitmap.blocks
  · obtain rfl : b = r := by
      by_contra hne
      exact hb.2 ⟨hmem, hne⟩
    exact hstep.refused
  · exact h.online b ⟨hb.1, hmem⟩

theorem Retries.stuck {s : ℕ → Bool} (hn : 0 < n)
    (h : Retries (blockFiles refuses) n ⟨bitmap, 0, s⟩ st) : Stuck refuses bitmap st := by
  induction h with
  | refl => exact ⟨le_refl _, fun b hb => absurd hb.1 hb.2⟩
  | tail hretries hstep ih =>
    obtain ⟨w, r, hrefused⟩ := (Retries.fresh hn hretries (.inl rfl)).refused hn hstep
    exact hrefused.stuck ih

/-- What the first run leaves behind when it takes the window at `w`: the window is offline, and
every window before it has a block that is online and refuses. -/
structure Left (refuses : ℕ → Bool) (n w : ℕ) (bitmap : Bitmap) (online : ℕ → Bool) : Prop where
  window : w ∈ windows bitmap.blocks n
  offline : ∀ b, w ≤ b → b < w + n → online b = false
  before : ∀ v ∈ windows bitmap.blocks n, v < w →
    ∃ b, v ≤ b ∧ b < v + n ∧ (refuses b && online b) = true

theorem Obeyed.left (h : Obeyed refuses n st w st') (hst : Stuck refuses bitmap st) :
    Left refuses n w bitmap st'.sys where
  window := windows_mono hst.sub h.least.1
  offline b hb hlt := by rw [h.files, if_pos ⟨hb, hlt⟩]
  before v hv hvw := by
    by_contra hnone
    push Not at hnone
    -- otherwise it would have been the window that was taken
    refine absurd (h.least.2 fun i hi => ?_) (Nat.not_le.2 hvw)
    by_contra hstruck
    have hon := hst.online (v + i) ⟨hv i hi, hstruck⟩
    have hout : ¬ (w ≤ v + i ∧ v + i < w + n) := fun hin => by
      rw [h.obeyed _ hin.1 hin.2] at hon
      cases hon
    refine hnone (v + i) (by omega) (by omega) ?_
    rwa [h.files, if_neg hout]

/-! ## The second run -/

/-- The window is still in the bitmap of the second run. -/
structure Held (refuses : ℕ → Bool) (n w : ℕ) (bitmap : Bitmap) (st : Search (ℕ → Bool)) :
    Prop where
  sub : st.bitmap.blocks ⊆ bitmap.blocks
  window : w ∈ windows st.bitmap.blocks n
  left : Left refuses n w bitmap st.sys

/-- A window that has a block in it that stays online comes before the one that was taken, and the
block that is struck off comes before it too. -/
theorem Refused.lt_taken {v : ℕ} (hstep : Refused refuses n st v r st')
    (h : Held refuses n w bitmap st) : r < w := by
  have hle := hstep.least.2 h.window
  have hout : ∀ b, (refuses b && st.sys b) = true → b < w ∨ w + n ≤ b := fun b hb => by
    by_contra hin
    rw [h.left.offline b (by omega) (by omega), Bool.and_false] at hb
    cases hb
  have hlt := hstep.lt
  rcases hout r hstep.refused with hr | hr
  · exact hr
  · omega

theorem Held.again {v : ℕ} (h : Held refuses n w bitmap st)
    (hstep : Refused refuses n st v r st') : Held refuses n w bitmap st' := by
  have hrw := hstep.lt_taken h
  refine ⟨hstep.blocks ▸ Set.sdiff_subset.trans h.sub, ?_, ?_, fun b hb hlt => ?_,
    fun u hu huw => ?_⟩
  · rw [hstep.blocks]
    exact mem_windows_diff_singleton h.window hrw
  · exact h.left.window
  · -- only blocks in front of `r` are put back online
    rw [hstep.files, h.left.offline b hb hlt, Bool.and_false, if_neg (by omega), ite_self]
  · obtain ⟨b, hub, hbu, hon⟩ := h.left.before u hu huw
    exact ⟨b, hub, hbu, hstep.online hon⟩

theorem Retries.held {s : ℕ → Bool} (hn : 0 < n) (h : Left refuses n w bitmap s)
    (hretries : Retries (blockFiles refuses) n ⟨bitmap, 0, s⟩ st) :
    Held refuses n w bitmap st := by
  induction hretries with
  | refl => exact ⟨le_refl _, h.window, h⟩
  | tail hretries hstep ih =>
    obtain ⟨v, r, hrefused⟩ := (Retries.fresh hn hretries (.inl rfl)).refused hn hstep
    exact ih.again hrefused

/-- A pass that does not fail takes the window again. -/
theorem Held.ready {v : ℕ} (h : Held refuses n w bitmap st) (hstep : Obeyed refuses n st v st') :
    v = w := by
  rcases Nat.eq_or_lt_of_le (hstep.least.2 h.window) with hvw | hvw
  · exact hvw
  · obtain ⟨b, hvb, hbv, hon⟩ := h.left.before v (windows_mono h.sub hstep.least.1) hvw
    rw [hstep.obeyed b hvb hbv] at hon
    cases hon

/-- The search from the files that a search has left ends at the same block. -/
theorem search_again {online : ℕ → Bool} (hn : 0 < n) (hfuel : bitmap.count < fuel')
    (h : search (blockFiles refuses) n fuel ⟨bitmap, 0, online⟩ = some (.ready st)) :
    ∃ st', search (blockFiles refuses) n fuel' ⟨bitmap, 0, st.sys⟩ = some (.ready st') ∧
      st'.regStart = st.regStart := by
  obtain ⟨st₁, hretries₁, hpass₁, -⟩ := retries_of_search _ _ h
  obtain ⟨w, htaken⟩ := (hretries₁.fresh hn (.inl rfl)).obeyed hn hpass₁
  have hleft := htaken.left (hretries₁.stuck hn)
  obtain ⟨p, hp⟩ := search_returns (blockFiles refuses) hn fuel' ⟨bitmap, 0, st.sys⟩ (.inl rfl)
    hfuel
  obtain ⟨st₂, hretries₂, hpass₂, hlast⟩ := retries_of_search _ _ hp
  have hheld := hretries₂.held hn hleft
  have hfresh := hretries₂.fresh hn (.inl rfl)
  have hcase := hfresh.pass_cases (blockFiles refuses) hn
  rw [hpass₂] at hcase
  cases hcase with
  | fileError _ => exact absurd hpass₂ (pass_ne_fileError (blockFiles_succeeds refuses) _ _)
  | notFound hempty => exact absurd hheld.window (hempty ▸ Set.notMem_empty w)
  | again => exact absurd rfl (hlast _)
  | ready =>
    obtain ⟨v, hagain⟩ := hfresh.obeyed hn hpass₂
    refine ⟨_, hp, ?_⟩
    rw [hagain.start, hheld.ready hagain, htaken.start]

/-- The tool, run again with nothing else changed, hands over the same range. -/
theorem main_again {env : Surroundings (ℕ → Bool)} {blocks : List ℕ} {bs size : ℕ}
    {s s' : ℕ → Bool} {range : MemoryRange} (h : Shown env blocks bs)
    (hfiles : env.files = blockFiles refuses) (hsize : 0 < size)
    (hfit : size * 2 ^ 20 ≤ (2 ^ 31 - 1) * bs)
    (hrun : main env fuel [Nat.toDigits 10 size] s = some (.handed range, s')) :
    ∃ s'', main env (blocks.length + 1) [Nat.toDigits 10 size] s'
      = some (.handed range, s'') := by
  have hbs := h.lt
  obtain ⟨n, hn, hpos, -⟩ := numBlocks_spec h.pos (by omega) hfit
  obtain ⟨bitmap, -, hcount, hmain⟩ := main_eq h (by omega) hn
  rw [hmain, hfiles] at hrun
  obtain ⟨p, hp, hend⟩ := Option.map_eq_some_iff.1 hrun
  cases p with
  | fileError _ => cases hend
  | notFound _ => cases hend
  | again _ => cases hend
  | ready st =>
    obtain ⟨hending, rfl⟩ := Prod.mk.inj hend
    obtain ⟨st', hagain, hstart⟩ := search_again hpos (Nat.lt_succ_of_le hcount) hp
    refine ⟨st'.sys, ?_⟩
    rw [hmain, hfiles, hagain, Option.map_some, handOver, hstart, hending]

end Offlining

end Petmem
