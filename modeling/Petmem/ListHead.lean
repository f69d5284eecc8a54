import Petmem.SecondChance

/-!
# Where the list head is taken for a region

`list_entry` applied to the list head gives a region made of the words in front of the `mem_map`.
`free_address` reads it as the neighbour of the first and of the last region; the clock comes to it
when its hand is on a node and no page behind the hand is chosen. The results of both, as functions
of these words, are compared here.
-/

namespace Petmem
namespace OnDemand

open ByteMemory Regions

variable {page : ℕ} {l : List VaddrReg} {p : Position}

/-! ## `free_address` -/

/-- The first merge leaves the nodes before the region alone. -/
theorem mergeNext_before {head : VaddrReg} {p' : Position} (h : mergeNext head page p = .ok p') :
    p'.before = p.before := by
  unfold mergeNext at h
  split at h
  · split at h
    · rw [← Except.ok.inj h]
    · rw [← Except.ok.inj h]
  · split at h
    · cases h
    · rw [← Except.ok.inj h]

variable {cr3 : ℕ} {hand : Option ℕ} {xs ys ys' : List (Option ℕ × VaddrReg)}

variable {env : Env} {ok : List Event → State → Event → Prop} {k : Kern} {node : ℕ}
  {es : List Event} {s : State}

end OnDemand

end Petmem
