import Mathlib.Data.Set.Insert
import Mathlib.Logic.Function.Basic

/-!
# Items in frames and slots

A store keeps items of type `ι` in frames or, when frames are short, in slots of a backing store;
an item that was never stored is nowhere. `taken` is the set of slots that are marked as in use.

`Slotted` says that the items in `P` do not share slots and that their slots are taken. It is kept
when an item moves to a free slot (`Slotted.evict`), when a slot is given up and its item is left
out of `P` (`Slotted.release`), and when that item moves to a frame (`Slotted.enter`). `Covering`
says the converse, that no slot is taken in vain.
-/

namespace SlotStore

/-- Where an item is. -/
inductive Place (F S : Type*)
  | nowhere
  | frame (g : F)
  | slot (i : S)
  deriving DecidableEq

variable {ι F S : Type*} {place place' : ι → Place F S} {taken taken' : Set S} {P P' N : Set ι}
  {n : ι} {i : S} {g : F}

/-- The items of `P` that are in slots have slots of their own, which are taken. -/
structure Slotted (place : ι → Place F S) (taken : Set S) (P : Set ι) : Prop where
  taken : ∀ n ∈ P, ∀ i, place n = .slot i → i ∈ taken
  own : ∀ n ∈ P, ∀ m ∈ P, ∀ i, place n = .slot i → place m = .slot i → n = m

/-- Every slot that is taken is the slot of an item of `P`. -/
def Covering (place : ι → Place F S) (taken : Set S) (P : Set ι) : Prop :=
  ∀ i ∈ taken, ∃ n ∈ P, place n = .slot i

namespace Slotted

/-- Items can be left out, and can leave their slots. -/
theorem shrink (h : Slotted place taken P) (hsub : P' ⊆ P)
    (hplace : ∀ n ∈ P', ∀ i, place' n = .slot i → place n = .slot i) :
    Slotted place' taken P' where
  taken n hn i hi := h.taken n (hsub hn) i (hplace n hn i hi)
  own n hn m hm i hi hi' := h.own n (hsub hn) m (hsub hm) i (hplace n hn i hi) (hplace m hm i hi')

theorem congr (h : Slotted place taken P) (hplace : ∀ n ∈ P, place' n = place n) :
    Slotted place' taken P :=
  h.shrink (le_refl _) fun n hn i hi => by rwa [hplace n hn] at hi

/-- Items that are in no slot can be added. -/
theorem union (h : Slotted place taken P) (hN : ∀ n ∈ N, ∀ i, place n ≠ .slot i) :
    Slotted place taken (P ∪ N) where
  taken n hn i hi := by
    rcases hn with hn | hn
    · exact h.taken n hn i hi
    · exact absurd hi (hN n hn i)
  own n hn m hm i hi hi' := by
    rcases hn with hn | hn
    · rcases hm with hm | hm
      · exact h.own n hn m hm i hi hi'
      · exact absurd hi' (hN m hm i)
    · exact absurd hi (hN n hn i)

variable [DecidableEq ι]

/-- An item moves to a slot that was free. -/
theorem evict (h : Slotted place taken P) (hi : i ∉ taken) (n : ι) :
    Slotted (Function.update place n (.slot i)) (insert i taken) P := by
  -- no other item is in the slot
  have hother : ∀ m ∈ P, m ≠ n → ∀ j, Function.update place n (.slot i) m = .slot j →
      place m = .slot j ∧ j ∈ taken ∧ j ≠ i := by
    intro m hm hne j hj
    rw [Function.update_of_ne hne] at hj
    have hjt := h.taken m hm j hj
    refine ⟨hj, hjt, ?_⟩
    rintro rfl
    exact hi hjt
  have hself : ∀ j, Function.update place n (.slot i) n = .slot j → j = i := by
    intro j hj
    rw [Function.update_self] at hj
    injection hj with hji
    exact hji.symm
  constructor
  · intro m hm j hj
    by_cases hne : m = n
    · subst hne
      exact .inl (hself j hj)
    · exact .inr (hother m hm hne j hj).2.1
  · intro m hm m' hm' j hj hj'
    by_cases hne : m = n
    · by_cases hne' : m' = n
      · rw [hne, hne']
      · subst hne
        exact absurd (hself j hj) (hother m' hm' hne' j hj').2.2
    · by_cases hne' : m' = n
      · subst hne'
        exact absurd (hself j hj') (hother m hm hne j hj).2.2
      · exact h.own m hm m' hm' j (hother m hm hne j hj).1 (hother m' hm' hne' j hj').1

omit [DecidableEq ι] in
/-- The slot of an item is given up; the item is left out. -/
theorem release (h : Slotted place taken P) (hn : n ∈ P) (hi : place n = .slot i) :
    Slotted place (taken \ {i}) (P \ {n}) where
  taken m hm j hj := by
    refine ⟨h.taken m hm.1 j hj, ?_⟩
    rintro rfl
    exact hm.2 (h.own m hm.1 n hn j hj hi)
  own m hm m' hm' j hj hj' := h.own m hm.1 m' hm'.1 j hj hj'

/-- An item that was left out moves to a frame. -/
theorem enter (h : Slotted place taken (P \ {n})) (g : F) :
    Slotted (Function.update place n (.frame g)) taken P := by
  have hne : ∀ m j, Function.update place n (.frame g) m = .slot j →
      m ≠ n ∧ place m = .slot j := by
    intro m j hj
    by_cases hm : m = n
    · subst hm
      rw [Function.update_self] at hj
      cases hj
    · rw [Function.update_of_ne hm] at hj
      exact ⟨hm, hj⟩
  constructor
  · intro m hm j hj
    obtain ⟨hmn, hj⟩ := hne m j hj
    exact h.taken m ⟨hm, hmn⟩ j hj
  · intro m hm m' hm' j hj hj'
    obtain ⟨hmn, hj⟩ := hne m j hj
    obtain ⟨hmn', hj'⟩ := hne m' j hj'
    exact h.own m ⟨hm, hmn⟩ m' ⟨hm', hmn'⟩ j hj hj'

end Slotted

namespace Covering

theorem congr (h : Covering place taken P)
    (hplace : ∀ n ∈ P, ∀ i, place n = .slot i → place' n = .slot i) :
    Covering place' taken P := by
  intro i hi
  obtain ⟨n, hn, hni⟩ := h i hi
  exact ⟨n, hn, hplace n hn i hni⟩

/-- The item of a slot that is given up covers no other slot. -/
theorem release (h : Covering place taken P) (hi : place n = .slot i) :
    Covering place (taken \ {i}) (P \ {n}) := by
  rintro j ⟨hj, hne⟩
  obtain ⟨m, hm, hmj⟩ := h j hj
  refine ⟨m, ⟨hm, ?_⟩, hmj⟩
  rintro rfl
  rw [hi] at hmj
  injection hmj with hij
  exact hne hij.symm

variable [DecidableEq ι]

/-- An item that is in no slot moves to a new one. -/
theorem evict (h : Covering place taken P) (hn : n ∈ P) (hout : ∀ j, place n ≠ .slot j) (i : S) :
    Covering (Function.update place n (.slot i)) (insert i taken) P := by
  rintro j (rfl | hj)
  · exact ⟨n, hn, Function.update_self ..⟩
  · obtain ⟨m, hm, hmj⟩ := h j hj
    refine ⟨m, hm, ?_⟩
    rw [Function.update_of_ne, hmj]
    rintro rfl
    exact hout j hmj

/-- An item that was left out moves to a frame. -/
theorem enter (h : Covering place taken (P \ {n})) (g : F) :
    Covering (Function.update place n (.frame g)) taken P := by
  intro j hj
  obtain ⟨m, ⟨hm, hne⟩, hmj⟩ := h j hj
  exact ⟨m, hm, by rw [Function.update_of_ne hne, hmj]⟩

end Covering

end SlotStore
