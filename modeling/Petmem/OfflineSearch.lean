import Petmem.Offlining
import Mathlib.Logic.Relation

/-!
# The search of the offlining tool

`reg_start` is not reset when the search begins again, and the scan writes it only where it comes
to a bit that is clear. That is enough: a value other than 0 is left over from a pass in which the
blocks from 0 on were no window (`Fresh`), and as bits are only ever cleared they are none later,
so the scan comes to a clear bit before it can stop.

Each pass that fails clears a bit that was set, so the loop ends.
-/

namespace Petmem
namespace Offlining

open Windows

variable {σ : Type} {sys : Sysfs σ} {n : ℕ} {bitmap : Bitmap} {st st' : Search σ}

/-! ## The scan -/

/-- What the loop over the bitmap ends with: no window, or the first one, and then `reg_start`
still has its old value `old` if the first one is at block 0. -/
inductive ScanCase (bitmap : Bitmap) (n old : ℕ) : ℕ × ℕ → Prop
  | none {regStart runLen : ℕ} : runLen < n → windows bitmap.blocks n = ∅ →
      ScanCase bitmap n old (regStart, runLen)
  | found {w regStart runLen : ℕ} : n ≤ runLen → IsLeast (windows bitmap.blocks n) w →
      (regStart = w ∨ w = 0 ∧ regStart = old) → ScanCase bitmap n old (regStart, runLen)

theorem scanBitmap_cases (bitmap : Bitmap) (n old : ℕ) :
    ∀ left i regStart runLen, i + left = bitmap.entries →
    Scanned bitmap.blocks n i runLen →
    (regStart = i - runLen ∨ runLen = i ∧ regStart = old) →
    ScanCase bitmap n old (scanBitmap bitmap n left i regStart runLen) := by
  intro left
  induction left with
  | zero =>
    intro i regStart runLen hi hscan _
    -- no window can begin behind the last entry
    exact .none hscan.lt (hscan.windows_eq_empty fun j hj => by
      have := hj.1
      omega)
  | succ left ih =>
    intro i regStart runLen hi hscan hreg
    rw [scanBitmap]
    by_cases hbit : bitmap.bit i = false
    · rw [if_pos hbit]
      have hnot : i ∉ bitmap.blocks := fun hmem => by
        rw [hmem.2] at hbit
        cases hbit
      exact ih (i + 1) (i + 1) 0 (by omega) (hscan.skip hnot) (.inl rfl)
    · rw [if_neg hbit]
      have hmem : i ∈ bitmap.blocks := ⟨by omega, by simpa using hbit⟩
      have hlt := hscan.lt
      have hle := hscan.len_le
      by_cases hfull : n ≤ runLen + 1
      · rw [if_pos hfull]
        -- the loop stops here; `regStart` is right unless no bit was clear so far
        refine .found hfull (hscan.found hmem (by omega)) ?_
        rcases hreg with rfl | ⟨rfl, rfl⟩
        · exact .inl rfl
        · exact .inr ⟨Nat.sub_self _, rfl⟩
      · rw [if_neg hfull]
        refine ih (i + 1) regStart (runLen + 1) (by omega) (hscan.extend hmem (by omega)) ?_
        rcases hreg with rfl | ⟨rfl, rfl⟩
        · exact .inl (by omega)
        · exact .inr ⟨rfl, rfl⟩

/-- `reg_start` is 0, or there is no window at block 0. -/
def Fresh (n : ℕ) (st : Search σ) : Prop :=
  st.regStart = 0 ∨ 0 ∉ windows st.bitmap.blocks n

/-- The scan of a pass finds the first window. -/
theorem Fresh.scan_cases (h : Fresh n st) (hn : 0 < n) :
    ((st.scan n).2 < n ∧ windows st.bitmap.blocks n = ∅) ∨
    (n ≤ (st.scan n).2 ∧ IsLeast (windows st.bitmap.blocks n) (st.scan n).1) := by
  have hscan := scanBitmap_cases st.bitmap n st.regStart st.bitmap.entries 0 st.regStart 0
    (Nat.zero_add _) (Scanned.start hn) (.inr ⟨rfl, rfl⟩)
  unfold Search.scan
  generalize scanBitmap st.bitmap n st.bitmap.entries 0 st.regStart 0 = res at hscan ⊢
  cases hscan with
  | none hlt hempty => exact .inl ⟨hlt, hempty⟩
  | found hle hleast hreg =>
    refine .inr ⟨hle, ?_⟩
    rcases hreg with rfl | ⟨rfl, rfl⟩
    · exact hleast
    · -- the window at block 0: the old value is right
      rcases h with h0 | h0
      · exact h0.symm ▸ hleast
      · exact absurd hleast.1 h0

/-! ## Verification -/

/-- The first blocks of the window at `regStart` were read, and were offline. -/
inductive Verified (sys : Sysfs σ) (regStart : ℕ) : ℕ → σ → σ → Prop
  | none {s : σ} : Verified sys regStart 0 s s
  | read {i : ℕ} {s s₁ s₂ : σ} {text : List Char} : Verified sys regStart i s s₁ →
      sys.status (i + regStart) s₁ = some (text, s₂) → isOffline text = true →
      Verified sys regStart (i + 1) s s₂

/-- What the second loop ends with: every block was offline, or some block was not; its bit was
cleared, and the blocks in front of it were put back online. -/
inductive VerifyCase (sys : Sysfs σ) (regStart n : ℕ) (bitmap : Bitmap) (s : σ) :
    Bitmap × Bool × σ → Prop
  | offline {s' : σ} : Verified sys regStart n s s' →
      VerifyCase sys regStart n bitmap s (bitmap, true, s')
  | refused {i : ℕ} {s₁ s₂ s₃ : σ} {text : List Char} : i < n → Verified sys regStart i s s₁ →
      sys.status (i + regStart) s₁ = some (text, s₂) → isOffline text = false →
      requestBlocks sys .online regStart i 0 s₂ = .ok s₃ →
      VerifyCase sys regStart n bitmap s (bitmap.clear (i + regStart), false, s₃)

theorem verifyBlocks_cases {regStart : ℕ} {s : σ} {res : Bitmap × Bool × σ} :
    ∀ left i s₁, i + left = n → Verified sys regStart i s s₁ →
      verifyBlocks sys regStart left i bitmap s₁ = .ok res →
      VerifyCase sys regStart n bitmap s res := by
  intro left
  induction left with
  | zero =>
    intro i s₁ hi hver h
    cases h
    obtain rfl : i = n := by omega
    exact .offline hver
  | succ left ih =>
    intro i s₁ hi hver h
    rw [verifyBlocks] at h
    cases hread : sys.status (i + regStart) s₁ with
    | none =>
      rw [hread] at h
      cases h
    | some r =>
      obtain ⟨text, s₂⟩ := r
      rw [hread] at h
      cases htext : isOffline text with
      -- this block is offline, so one more was read
      | true =>
        simp only [htext, if_true] at h
        exact ih (i + 1) s₂ (by omega) (hver.read hread htext) h
      | false =>
        simp only [htext, Bool.false_eq_true, if_false] at h
        cases hreq : requestBlocks sys .online regStart i 0 s₂ with
        | error s =>
          rw [hreq] at h
          cases h
        | ok s₃ =>
          rw [hreq] at h
          cases h
          exact .refused (by omega) hver hread htext hreq

/-! ## A pass -/

/-- What a pass can do, where `reg_start` is in order. -/
inductive PassCase (sys : Sysfs σ) (n : ℕ) (st : Search σ) : Pass σ → Prop
  | fileError {s : σ} : (windows st.bitmap.blocks n).Nonempty →
      PassCase sys n st (.fileError s)
  | notFound {r : ℕ} : windows st.bitmap.blocks n = ∅ →
      PassCase sys n st (.notFound { st with regStart := r })
  | again {w i : ℕ} {s s₁ s₂ s₃ : σ} {text : List Char} : IsLeast (windows st.bitmap.blocks n) w →
      requestBlocks sys .offline w n 0 st.sys = .ok s → i < n → Verified sys w i s s₁ →
      sys.status (i + w) s₁ = some (text, s₂) → isOffline text = false →
      requestBlocks sys .online w i 0 s₂ = .ok s₃ →
      PassCase sys n st (.again ⟨st.bitmap.clear (i + w), w, s₃⟩)
  | ready {w : ℕ} {s s' : σ} : IsLeast (windows st.bitmap.blocks n) w →
      requestBlocks sys .offline w n 0 st.sys = .ok s → Verified sys w n s s' →
      PassCase sys n st (.ready ⟨st.bitmap, w, s'⟩)

theorem Fresh.pass_cases (sys : Sysfs σ) (h : Fresh n st) (hn : 0 < n) :
    PassCase sys n st (pass sys n st) := by
  unfold pass
  rcases h.scan_cases hn with ⟨hlt, hempty⟩ | ⟨hle, hleast⟩
  · rw [if_pos hlt]
    exact .notFound hempty
  · rw [if_neg (by omega)]
    cases hreq : requestBlocks sys .offline (st.scan n).1 n 0 st.sys with
    | error s => exact .fileError ⟨_, hleast.1⟩
    | ok s =>
      simp only
      cases hver : verifyBlocks sys (st.scan n).1 n 0 st.bitmap s with
      | error s' => exact .fileError ⟨_, hleast.1⟩
      | ok res =>
        cases verifyBlocks_cases n 0 s (Nat.zero_add n) .none hver with
        | offline hall => exact .ready hleast hreq hall
        | refused hi hsome hread htext hback =>
          exact .again hleast hreq hi hsome hread htext hback

/-- What the bitmap loses in a pass that fails. -/
theorem Fresh.again_spec (h : Fresh n st) (hn : 0 < n) (hrun : pass sys n st = .again st') :
    ∃ b ∈ st.bitmap.blocks, st'.bitmap = st.bitmap.clear b ∧ Fresh n st' := by
  have hcase := h.pass_cases sys hn
  rw [hrun] at hcase
  cases hcase with
  | @again w i s s₁ s₂ s₃ text hleast _ hi _ _ _ _ =>
    have hmem : i + w ∈ st.bitmap.blocks := mem_of_mem_windows hleast.1 (by omega) (by omega)
    refine ⟨i + w, hmem, rfl, ?_⟩
    cases w with
    | zero => exact .inl rfl
    | succ w =>
      -- a window at block 0 would have come before `w`
      refine .inr fun hzero => ?_
      change 0 ∈ windows (st.bitmap.clear (i + (w + 1))).blocks n at hzero
      rw [Bitmap.blocks_clear _ hmem.1] at hzero
      exact absurd (hleast.2 (windows_mono Set.sdiff_subset hzero)) (by omega)

/-! ## The loop -/

/-- The states between the passes. -/
def Retries (sys : Sysfs σ) (n : ℕ) : Search σ → Search σ → Prop :=
  Relation.ReflTransGen fun st st' => pass sys n st = .again st'

theorem Retries.fresh (hn : 0 < n) (h : Retries sys n st st') (hst : Fresh n st) :
    Fresh n st' := by
  induction h with
  | refl => exact hst
  | tail _ hstep ih =>
    obtain ⟨-, -, -, hfresh⟩ := ih.again_spec hn hstep
    exact hfresh

/-- What the loop returns is the result of a pass that was the last one. -/
theorem retries_of_search {p : Pass σ} : ∀ fuel st, search sys n fuel st = some p →
    ∃ st', Retries sys n st st' ∧ pass sys n st' = p ∧ ∀ st'', p ≠ .again st'' := by
  intro fuel
  induction fuel with
  | zero =>
    intro st h
    cases h
  | succ fuel ih =>
    intro st h
    rw [search] at h
    cases hpass : pass sys n st with
    | again st₁ =>
      rw [hpass] at h
      obtain ⟨st', hretries, hlast⟩ := ih st₁ h
      exact ⟨st', .head hpass hretries, hlast⟩
    | fileError s =>
      rw [hpass] at h
      cases h
      exact ⟨st, .refl, hpass, fun _ => nofun⟩
    | notFound st₁ =>
      rw [hpass] at h
      cases h
      exact ⟨st, .refl, hpass, fun _ => nofun⟩
    | ready st₁ =>
      rw [hpass] at h
      cases h
      exact ⟨st, .refl, hpass, fun _ => nofun⟩

/-- One pass for each bit that is set, and one more, are enough. -/
theorem search_returns (sys : Sysfs σ) (hn : 0 < n) : ∀ fuel (st : Search σ), Fresh n st →
    st.bitmap.count < fuel → ∃ p, search sys n fuel st = some p := by
  intro fuel
  induction fuel with
  | zero =>
    intro st _ hlt
    omega
  | succ fuel ih =>
    intro st hst hlt
    rw [search]
    cases hpass : pass sys n st with
    | again st₁ =>
      obtain ⟨b, hb, hclear, hfresh⟩ := hst.again_spec hn hpass
      have hcount := st.bitmap.count_clear hb
      rw [← hclear] at hcount
      exact ih st₁ hfresh (by omega)
    | fileError s => exact ⟨_, rfl⟩
    | notFound st₁ => exact ⟨_, rfl⟩
    | ready st₁ => exact ⟨_, rfl⟩

/-! ## Files that can be opened, read and written -/

/-- Every open, read and write of a `state` file succeeds. -/
structure Sysfs.Succeeds (sys : Sysfs σ) : Prop where
  request : ∀ b req s, ∃ s', sys.request b req s = some s'
  status : ∀ b s, ∃ res, sys.status b s = some res

theorem requestBlocks_returns (hsys : sys.Succeeds) (req : Request) (regStart : ℕ) :
    ∀ left i s, ∃ s', requestBlocks sys req regStart left i s = .ok s' := by
  intro left
  induction left with
  | zero => exact fun _ s => ⟨s, rfl⟩
  | succ left ih =>
    intro i s
    obtain ⟨s', hs'⟩ := hsys.request (i + regStart) req s
    rw [requestBlocks, hs']
    exact ih (i + 1) s'

theorem verifyBlocks_returns (hsys : sys.Succeeds) (regStart : ℕ) :
    ∀ left i bitmap s, ∃ res, verifyBlocks sys regStart left i bitmap s = .ok res := by
  intro left
  induction left with
  | zero => exact fun _ bitmap s => ⟨(bitmap, true, s), rfl⟩
  | succ left ih =>
    intro i bitmap s
    obtain ⟨⟨text, s₁⟩, hread⟩ := hsys.status (i + regStart) s
    rw [verifyBlocks, hread]
    cases htext : isOffline text with
    | true =>
      simp only [htext, if_true]
      exact ih (i + 1) bitmap s₁
    | false =>
      obtain ⟨s₂, hback⟩ := requestBlocks_returns hsys .online regStart i 0 s₁
      simp only [htext, Bool.false_eq_true, if_false, hback]
      exact ⟨_, rfl⟩

theorem pass_ne_fileError (hsys : sys.Succeeds) (st : Search σ) (s : σ) :
    pass sys n st ≠ .fileError s := by
  unfold pass
  by_cases hlt : (st.scan n).2 < n
  · rw [if_pos hlt]
    exact nofun
  · obtain ⟨s₁, hreq⟩ := requestBlocks_returns hsys .offline (st.scan n).1 n 0 st.sys
    obtain ⟨⟨bitmap, memReady, s₂⟩, hver⟩ :=
      verifyBlocks_returns hsys (st.scan n).1 n 0 st.bitmap s₁
    simp only [if_neg hlt, hreq, hver]
    cases memReady <;> exact nofun

/-! ## The whole search -/

/-- **The search is right in every pass, and ends.** However the blocks behave, a pass gives up
exactly when there is no window in the bitmap, and otherwise ends its scan with the first one in
`reg_start`; a pass that fails clears one bit that was set; the blocks that are taken in the end
were all verified; and there is at most one pass more than there were bits. -/
theorem search_correct (hsys : sys.Succeeds) (hn : 0 < n) (bitmap : Bitmap) (s : σ) :
    (∀ st, Retries sys n ⟨bitmap, 0, s⟩ st →
      ((∃ st', pass sys n st = .notFound st') ↔ windows st.bitmap.blocks n = ∅) ∧
      (∀ w, IsLeast (windows st.bitmap.blocks n) w → (st.scan n).1 = w) ∧
      (∀ st', pass sys n st = .again st' → ∃ b ∈ st.bitmap.blocks,
        st'.bitmap.blocks = st.bitmap.blocks \ {b} ∧ st'.bitmap.count + 1 = st.bitmap.count) ∧
      ∀ st', pass sys n st = .ready st' → IsLeast (windows st.bitmap.blocks n) st'.regStart ∧
        ∃ s₁, requestBlocks sys .offline st'.regStart n 0 st.sys = .ok s₁ ∧
          Verified sys st'.regStart n s₁ st'.sys) ∧
    ∃ p st, search sys n (bitmap.count + 1) ⟨bitmap, 0, s⟩ = some p ∧
      Retries sys n ⟨bitmap, 0, s⟩ st ∧ pass sys n st = p ∧
      ∃ st', p = .notFound st' ∨ p = .ready st' := by
  refine ⟨fun st hst => ?_, ?_⟩
  · have hfresh := hst.fresh hn (.inl rfl)
    have hcase := hfresh.pass_cases sys hn
    refine ⟨⟨fun ⟨st', hrun⟩ => ?_, fun hempty => ?_⟩, fun w hw => ?_, fun st' hrun => ?_,
      fun st' hrun => ?_⟩
    · rw [hrun] at hcase
      cases hcase with
      | notFound hempty => exact hempty
    · generalize hrun : pass sys n st = p at hcase
      cases hcase with
      | fileError _ => exact absurd hrun (pass_ne_fileError hsys st _)
      | notFound _ => exact ⟨_, rfl⟩
      | again hleast _ _ _ _ _ _ => exact absurd hleast.1 (hempty ▸ Set.notMem_empty _)
      | ready hleast _ _ => exact absurd hleast.1 (hempty ▸ Set.notMem_empty _)
    · rcases hfresh.scan_cases hn with ⟨-, hempty⟩ | ⟨-, hleast⟩
      · exact absurd hw.1 (hempty ▸ Set.notMem_empty _)
      · exact hleast.unique hw
    · obtain ⟨b, hb, hclear, -⟩ := hfresh.again_spec hn hrun
      rw [hclear]
      exact ⟨b, hb, st.bitmap.blocks_clear hb.1, st.bitmap.count_clear hb⟩
    · rw [hrun] at hcase
      cases hcase with
      | ready hleast hreq hver => exact ⟨hleast, _, hreq, hver⟩
  -- each pass that fails clears a bit, so the fuel lasts
  · obtain ⟨p, hp⟩ := search_returns sys hn (bitmap.count + 1) ⟨bitmap, 0, s⟩ (.inl rfl)
      (Nat.lt_succ_self _)
    obtain ⟨st, hretries, hpass, hlast⟩ := retries_of_search _ _ hp
    refine ⟨p, st, hp, hretries, hpass, ?_⟩
    cases p with
    | fileError s' => exact absurd hpass (pass_ne_fileError hsys st s')
    | notFound st₁ => exact ⟨st₁, .inl rfl⟩
    | again st₁ => exact absurd rfl (hlast st₁)
    | ready st₁ => exact ⟨st₁, .inr rfl⟩

/-! ## Blocks that obey or refuse -/

/-- Whether a block is online after a request: one that refuses does not go offline. -/
def answer (refuses : Bool) : Request → Bool → Bool
  | .offline, online => refuses && online
  | .online, _ => true

/-- The files of blocks some of which refuse to go offline; the state says which are online. -/
def blockFiles (refuses : ℕ → Bool) : Sysfs (ℕ → Bool) where
  request b req online := some (Function.update online b (answer (refuses b) req (online b)))
  status b online := some ((if online b then "online\n" else "offline\n").toList, online)

theorem blockFiles_succeeds (refuses : ℕ → Bool) : (blockFiles refuses).Succeeds where
  request _ _ _ := ⟨_, rfl⟩
  status _ _ := ⟨_, rfl⟩

/-- The first of three blocks refuses: the loop ends with the other two, after at most four
passes. -/
theorem search_correct_of_three_blocks :
    ∃ st', search (blockFiles fun b => b == 0) 2 4 ⟨⟨3, [7], rfl⟩, 0, fun _ => true⟩
        = some (.ready st') ∧ st'.regStart = 1 := by
  have hrun : ∃ st₁, search (blockFiles fun b => b == 0) 2 4 ⟨⟨3, [7], rfl⟩, 0, fun _ => true⟩
      = some (.ready st₁) ∧ st₁.regStart = 1 := ⟨_, rfl, rfl⟩
  obtain ⟨st₁, hready, hstart⟩ := hrun
  obtain ⟨-, p, -, hp, -, -, st', hst'⟩ := search_correct (n := 2)
    (blockFiles_succeeds fun b => b == 0) (by norm_num) ⟨3, [7], rfl⟩ (fun _ => true)
  obtain rfl : .ready st₁ = p := Option.some.inj (hready.symm.trans hp)
  rcases hst' with hst' | hst'
  · cases hst'
  · cases hst'
    exact ⟨st₁, hp, hstart⟩

end Offlining

end Petmem
