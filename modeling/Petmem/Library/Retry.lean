import Mathlib.Data.Nat.Notation

/-!
# Actions that are tried again

An attempt ends with a result, or asks to be repeated from another state. `loop` repeats it with a
bound on the number of attempts; `Ends` and `Diverges` are about the loop without a bound. It does
not end where it can be repeated for ever (`diverges_of_invariant`).
-/

namespace Retry

variable {σ ρ : Type*}

/-- At most `fuel` attempts. -/
def loop (attempt : σ → ρ ⊕ σ) : ℕ → σ → Option ρ
  | 0, _ => none
  | fuel + 1, s =>
    match attempt s with
    | .inl r => some r
    | .inr s => loop attempt fuel s

/-- The loop comes to an end with result `r`. -/
def Ends (attempt : σ → ρ ⊕ σ) (s : σ) (r : ρ) : Prop := ∃ fuel, loop attempt fuel s = some r

/-- The loop does not come to an end. -/
def Diverges (attempt : σ → ρ ⊕ σ) (s : σ) : Prop := ∀ fuel, loop attempt fuel s = none

variable {attempt : σ → ρ ⊕ σ} {s s' : σ} {r r' : ρ}

theorem loop_of_inl (h : attempt s = .inl r) (fuel : ℕ) : loop attempt (fuel + 1) s = some r := by
  rw [loop, h]

theorem loop_of_inr (h : attempt s = .inr s') (fuel : ℕ) :
    loop attempt (fuel + 1) s = loop attempt fuel s' := by
  rw [loop, h]

theorem ends_iff_of_inl (h : attempt s = .inl r) : Ends attempt s r' ↔ r' = r := by
  constructor
  · rintro ⟨fuel, hrun⟩
    cases fuel with
    | zero => cases hrun
    | succ fuel =>
      rw [loop_of_inl h] at hrun
      exact (Option.some.inj hrun).symm
  · rintro rfl
    exact ⟨1, loop_of_inl h 0⟩

theorem ends_iff_of_inr (h : attempt s = .inr s') : Ends attempt s r ↔ Ends attempt s' r := by
  constructor
  · rintro ⟨fuel, hrun⟩
    cases fuel with
    | zero => cases hrun
    | succ fuel =>
      rw [loop_of_inr h] at hrun
      exact ⟨fuel, hrun⟩
  · rintro ⟨fuel, hrun⟩
    exact ⟨fuel + 1, (loop_of_inr h fuel).trans hrun⟩

theorem not_diverges (h : Ends attempt s r) : ¬ Diverges attempt s := by
  obtain ⟨fuel, hrun⟩ := h
  intro hd
  rw [hd fuel] at hrun
  cases hrun

/-- Where each attempt leads to another one the loop does not end. -/
theorem diverges_of_invariant {I : σ → Prop}
    (hstep : ∀ s, I s → ∃ s', attempt s = .inr s' ∧ I s') (h : I s) : Diverges attempt s := by
  intro fuel
  induction fuel generalizing s with
  | zero => rfl
  | succ fuel ih =>
    obtain ⟨s', ha, h'⟩ := hstep s h
    rw [loop_of_inr ha]
    exact ih h'

theorem diverges_iff_of_inr (h : attempt s = .inr s') :
    Diverges attempt s ↔ Diverges attempt s' := by
  constructor
  · intro hd fuel
    rw [← loop_of_inr h]
    exact hd (fuel + 1)
  · intro hd fuel
    cases fuel with
    | zero => rfl
    | succ fuel => rw [loop_of_inr h, hd]

end Retry
