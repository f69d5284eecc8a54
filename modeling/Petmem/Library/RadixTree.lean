import Mathlib.Data.Set.Basic
import Mathlib.Data.Nat.Notation

/-!
# Radix trees of tables

A table memory `T` gives, for a frame and an index, the frame the entry there refers to, or
nothing when the entry is not present. A key `a` is looked up from a root by following its
indices `idx a 0`, `idx a 1`, …; `node T r a ℓ` is the frame reached after `ℓ` steps.

`Separated` says that the trees of several roots share no frame: two lookups that meet in
a frame come from one root, along one path. It survives removing entries
(`Separated.of_le`) and entering a fresh frame (`Separated.install`). `SlotUpdate` is the
change of a single entry, and `SlotUpdate.node_eq` / `SlotUpdate.node_slot` say which
lookups see it.
-/

namespace RadixTree

variable {F I A : Type*} (idx : A → ℕ → I)

/-- The first `ℓ` indices of `a` and `b` agree. -/
def SamePath (ℓ : ℕ) (a b : A) : Prop := ∀ n < ℓ, idx a n = idx b n

/-- The frame reached from the root `r` after `ℓ` steps along `a`. -/
def node (T : F → I → Option F) (r : F) (a : A) : ℕ → Option F
  | 0 => some r
  | ℓ + 1 => (node T r a ℓ).bind fun f => T f (idx a ℓ)

/-- Lookups of the keys in `D`, up to depth `d`, share no frame unless they share the path. -/
def Separated (T : F → I → Option F) (roots : Set F) (D : Set A) (d : ℕ) : Prop :=
  ∀ r ∈ roots, ∀ r' ∈ roots, ∀ a ∈ D, ∀ a' ∈ D, ∀ ℓ ≤ d, ∀ ℓ' ≤ d, ∀ f,
    node idx T r a ℓ = some f → node idx T r' a' ℓ' = some f →
      r = r' ∧ ℓ = ℓ' ∧ SamePath idx ℓ a a'

variable {idx} {T T' : F → I → Option F} {roots : Set F} {D : Set A} {d ℓ ℓ' : ℕ}
  {r r' f g : F} {a a' b : A}

/-! ## Paths -/

theorem SamePath.refl (ℓ : ℕ) (a : A) : SamePath idx ℓ a a := fun _ _ => rfl

theorem SamePath.symm (h : SamePath idx ℓ a b) : SamePath idx ℓ b a :=
  fun n hn => (h n hn).symm

theorem SamePath.trans (h : SamePath idx ℓ a b) (h' : SamePath idx ℓ b a') :
    SamePath idx ℓ a a' := fun n hn => (h n hn).trans (h' n hn)

theorem SamePath.mono (h : SamePath idx ℓ a b) (hle : ℓ' ≤ ℓ) : SamePath idx ℓ' a b :=
  fun n hn => h n (Nat.lt_of_lt_of_le hn hle)

theorem samePath_succ :
    SamePath idx (ℓ + 1) a b ↔ SamePath idx ℓ a b ∧ idx a ℓ = idx b ℓ := by
  constructor
  · intro h
    exact ⟨h.mono (Nat.le_succ _), h ℓ (Nat.lt_succ_self _)⟩
  · rintro ⟨h, hℓ⟩ n hn
    by_cases heq : n = ℓ
    · rw [heq, hℓ]
    · exact h n (by omega)

/-! ## Lookups -/

theorem node_succ : node idx T r a (ℓ + 1) = (node idx T r a ℓ).bind fun f => T f (idx a ℓ) :=
  rfl

theorem node_succ_of_eq (h : node idx T r a ℓ = some f) :
    node idx T r a (ℓ + 1) = T f (idx a ℓ) := by
  rw [node_succ, h, Option.bind_some]

theorem node_succ_eq_some :
    node idx T r a (ℓ + 1) = some g ↔ ∃ f, node idx T r a ℓ = some f ∧ T f (idx a ℓ) = some g :=
  Option.bind_eq_some_iff

theorem node_congr (h : SamePath idx ℓ a b) : node idx T r a ℓ = node idx T r b ℓ := by
  induction ℓ with
  | zero => rfl
  | succ ℓ ih =>
    rw [samePath_succ] at h
    rw [node_succ, node_succ, ih h.1, h.2]

theorem node_eq_none_of_le (h : node idx T r a ℓ = none) (hle : ℓ ≤ ℓ') :
    node idx T r a ℓ' = none := by
  induction ℓ' with
  | zero =>
    rw [Nat.le_zero.1 hle] at h
    exact h
  | succ n ih =>
    by_cases heq : ℓ = n + 1
    · rw [← heq, h]
    · rw [node_succ, ih (by omega), Option.bind_none]

theorem exists_node_of_le (h : node idx T r a ℓ' = some g) (hle : ℓ ≤ ℓ') :
    ∃ f, node idx T r a ℓ = some f := by
  cases hn : node idx T r a ℓ with
  | none =>
    rw [node_eq_none_of_le hn hle] at h
    cases h
  | some f => exact ⟨f, rfl⟩

/-- Lookups only shrink when the entries they read do. -/
theorem node_of_le
    (h : ∀ ℓ < d, ∀ f g, node idx T r a ℓ = some f → T' f (idx a ℓ) = some g →
      T f (idx a ℓ) = some g)
    (hℓ : ℓ ≤ d) (hf : node idx T' r a ℓ = some f) : node idx T r a ℓ = some f := by
  induction ℓ generalizing f with
  | zero => exact hf
  | succ ℓ ih =>
    obtain ⟨e, he, hef⟩ := node_succ_eq_some.1 hf
    have he' := ih (by omega) he
    exact node_succ_eq_some.2 ⟨e, he', h ℓ (by omega) e f he' hef⟩

/-- Lookups stay when the entries they read do. -/
theorem node_eq_of_eq
    (h : ∀ ℓ < d, ∀ f, node idx T r a ℓ = some f → T' f (idx a ℓ) = T f (idx a ℓ))
    (hℓ : ℓ ≤ d) : node idx T' r a ℓ = node idx T r a ℓ := by
  induction ℓ with
  | zero => rfl
  | succ ℓ ih =>
    rw [node_succ, node_succ, ih (by omega)]
    cases hn : node idx T r a ℓ with
    | none => rfl
    | some f => exact h ℓ (by omega) f hn

theorem Separated.of_le (h : Separated idx T roots D d)
    (hle : ∀ r ∈ roots, ∀ a ∈ D, ∀ ℓ ≤ d, ∀ f, node idx T' r a ℓ = some f →
      node idx T r a ℓ = some f) : Separated idx T' roots D d :=
  fun r hr r' hr' a ha a' ha' ℓ hℓ ℓ' hℓ' f hf hf' =>
    h r hr r' hr' a ha a' ha' ℓ hℓ ℓ' hℓ' f (hle r hr a ha ℓ hℓ f hf)
      (hle r' hr' a' ha' ℓ' hℓ' f hf')

/-! ## Changing one entry -/

/-- `T'` is `T` with the entry at depth `ℓ₀` on the path of `a₀` changed to `v`, as far as
lookups of the keys in `D` can see. -/
structure SlotUpdate (idx : A → ℕ → I) (T T' : F → I → Option F) (roots : Set F) (D : Set A)
    (d : ℕ) (r₀ : F) (a₀ : A) (ℓ₀ : ℕ) (v : Option F) : Prop where
  set : ∃ f, node idx T r₀ a₀ ℓ₀ = some f ∧ T' f (idx a₀ ℓ₀) = v
  keep : ∀ r ∈ roots, ∀ a ∈ D, ∀ ℓ < d, ∀ f, node idx T r a ℓ = some f →
    ¬ (r = r₀ ∧ ℓ = ℓ₀ ∧ SamePath idx (ℓ₀ + 1) a a₀) → T' f (idx a ℓ) = T f (idx a ℓ)

/-- In separated trees a change confined to one slot of one frame is a `SlotUpdate`. -/
theorem Separated.slotUpdate {r₀ f₀ : F} {a₀ : A} {ℓ₀ : ℕ} {v : Option F}
    (h : Separated idx T roots D d) (hr₀ : r₀ ∈ roots) (ha₀ : a₀ ∈ D) (hℓ₀ : ℓ₀ < d)
    (hf₀ : node idx T r₀ a₀ ℓ₀ = some f₀) (hset : T' f₀ (idx a₀ ℓ₀) = v)
    (hkeep : ∀ r ∈ roots, ∀ a ∈ D, ∀ ℓ < d, ∀ f, node idx T r a ℓ = some f →
      ¬ (f = f₀ ∧ idx a ℓ = idx a₀ ℓ₀) → T' f (idx a ℓ) = T f (idx a ℓ)) :
    SlotUpdate idx T T' roots D d r₀ a₀ ℓ₀ v where
  set := ⟨f₀, hf₀, hset⟩
  keep r hr a ha ℓ hℓ f hf hne := by
    refine hkeep r hr a ha ℓ hℓ f hf ?_
    rintro ⟨rfl, hidx⟩
    obtain ⟨h1, h2, h3⟩ := h r hr r₀ hr₀ a ha a₀ ha₀ ℓ (by omega) ℓ₀ (by omega) f hf hf₀
    subst h2
    exact hne ⟨h1, rfl, samePath_succ.2 ⟨h3, hidx⟩⟩

namespace SlotUpdate

variable {r₀ : F} {a₀ : A} {ℓ₀ : ℕ} {v : Option F}

/-- A lookup that does not pass through the slot is unchanged. -/
theorem node_eq (h : SlotUpdate idx T T' roots D d r₀ a₀ ℓ₀ v) (hr : r ∈ roots) (ha : a ∈ D)
    (hℓ : ℓ ≤ d) (hne : ¬ (r = r₀ ∧ ℓ₀ < ℓ ∧ SamePath idx (ℓ₀ + 1) a a₀)) :
    node idx T' r a ℓ = node idx T r a ℓ := by
  refine node_eq_of_eq (d := ℓ) (fun n hn f hf => ?_) (le_refl _)
  refine h.keep r hr a ha n (by omega) f hf ?_
  rintro ⟨h1, rfl, h3⟩
  exact hne ⟨h1, hn, h3⟩

/-- A lookup that ends at the slot sees its new value. -/
theorem node_slot (h : SlotUpdate idx T T' roots D d r₀ a₀ ℓ₀ v) (hr : r₀ ∈ roots)
    (ha : a ∈ D) (hℓ : ℓ₀ < d) (hp : SamePath idx (ℓ₀ + 1) a a₀) :
    node idx T' r₀ a (ℓ₀ + 1) = v := by
  obtain ⟨f, hf, hset⟩ := h.set
  rw [samePath_succ] at hp
  have hf' : node idx T' r₀ a ℓ₀ = some f := by
    rw [h.node_eq hr ha (by omega) (by omega), node_congr hp.1, hf]
  rw [node_succ_of_eq hf', hp.2, hset]

/-- Clearing an entry cuts off what lies below it. -/
theorem node_cleared (h : SlotUpdate idx T T' roots D d r₀ a₀ ℓ₀ none) (hr : r₀ ∈ roots)
    (ha : a ∈ D) (hd : ℓ₀ < d) (hp : SamePath idx (ℓ₀ + 1) a a₀) (hℓ : ℓ₀ < ℓ) :
    node idx T' r₀ a ℓ = none :=
  node_eq_none_of_le (h.node_slot hr ha hd hp) hℓ

/-- Lookups after an entry was cleared are lookups before. -/
theorem node_le_of_none (h : SlotUpdate idx T T' roots D d r₀ a₀ ℓ₀ none) (hd : ℓ₀ < d)
    (hr : r ∈ roots) (ha : a ∈ D) (hℓ : ℓ ≤ d) (hf : node idx T' r a ℓ = some f) :
    node idx T r a ℓ = some f := by
  by_cases hne : r = r₀ ∧ ℓ₀ < ℓ ∧ SamePath idx (ℓ₀ + 1) a a₀
  · obtain ⟨rfl, h2, h3⟩ := hne
    rw [h.node_cleared hr ha hd h3 h2] at hf
    cases hf
  · rwa [h.node_eq hr ha hℓ hne] at hf

end SlotUpdate

/-- Entering a frame `g` with no entries of its own adds one node to the trees. -/
theorem node_install {r₀ : F} {a₀ : A} {ℓ₀ : ℕ}
    (h : SlotUpdate idx T T' roots D d r₀ a₀ ℓ₀ (some g)) (hd : ℓ₀ < d)
    (hempty : node idx T r₀ a₀ (ℓ₀ + 1) = none)
    (hblank : ℓ₀ + 1 < d → ∀ a ∈ D, T' g (idx a (ℓ₀ + 1)) = none)
    (hr : r ∈ roots) (ha : a ∈ D) (hℓ : ℓ ≤ d) :
    (node idx T' r a ℓ = node idx T r a ℓ ∧
        ¬ (r = r₀ ∧ ℓ = ℓ₀ + 1 ∧ SamePath idx (ℓ₀ + 1) a a₀)) ∨
      (node idx T' r a ℓ = some g ∧ r = r₀ ∧ ℓ = ℓ₀ + 1 ∧ SamePath idx (ℓ₀ + 1) a a₀) := by
  by_cases hne : r = r₀ ∧ ℓ₀ < ℓ ∧ SamePath idx (ℓ₀ + 1) a a₀
  · obtain ⟨rfl, hlt, hp⟩ := hne
    have hslot := h.node_slot hr ha hd hp
    by_cases heq : ℓ = ℓ₀ + 1
    · subst heq
      exact .inr ⟨hslot, rfl, rfl, hp⟩
    · -- below the new frame there is nothing, before and after
      refine .inl ⟨?_, fun hc => heq hc.2.1⟩
      have hbelow : node idx T' r a (ℓ₀ + 1 + 1) = none := by
        rw [node_succ_of_eq hslot, hblank (by omega) a ha]
      rw [node_eq_none_of_le hbelow (by omega),
        node_eq_none_of_le ((node_congr hp).trans hempty) (by omega)]
  · refine .inl ⟨h.node_eq hr ha hℓ hne, ?_⟩
    rintro ⟨h1, h2, h3⟩
    exact hne ⟨h1, by omega, h3⟩

/-- Separated trees stay separated when a frame that is in none of them is entered. -/
theorem Separated.install {r₀ : F} {a₀ : A} {ℓ₀ : ℕ} (hs : Separated idx T roots D d)
    (h : SlotUpdate idx T T' roots D d r₀ a₀ ℓ₀ (some g)) (hd : ℓ₀ < d)
    (hempty : node idx T r₀ a₀ (ℓ₀ + 1) = none)
    (hblank : ℓ₀ + 1 < d → ∀ a ∈ D, T' g (idx a (ℓ₀ + 1)) = none)
    (hfresh : ∀ r ∈ roots, ∀ a ∈ D, ∀ ℓ ≤ d, node idx T r a ℓ ≠ some g) :
    Separated idx T' roots D d := by
  intro r hr r' hr' a ha a' ha' ℓ hℓ ℓ' hℓ' f hf hf'
  rcases node_install h hd hempty hblank hr ha hℓ with ⟨h1, -⟩ | ⟨h1, rfl, rfl, hp⟩ <;>
    rcases node_install h hd hempty hblank hr' ha' hℓ' with ⟨h2, -⟩ | ⟨h2, rfl, rfl, hp'⟩
  · rw [h1] at hf
    rw [h2] at hf'
    exact hs r hr r' hr' a ha a' ha' ℓ hℓ ℓ' hℓ' f hf hf'
  · rw [h1] at hf
    rw [h2] at hf'
    cases hf'
    exact absurd hf (hfresh r hr a ha ℓ hℓ)
  · rw [h1] at hf
    rw [h2] at hf'
    cases hf
    exact absurd hf' (hfresh r' hr' a' ha' ℓ' hℓ')
  · exact ⟨rfl, rfl, hp.trans hp'.symm⟩

end RadixTree
