import Petmem.BuddyFree
import Mathlib.Logic.Relation

/-!
# Runs of one pool

A pool in use: clients allocate, free what they own and scribble over the blocks they own,
in any order. `RunInv` is the pool invariant with the outstanding blocks as the used ones;
every step keeps it (`RunInv.step`), and so every run does (`runInv_of_reaches`).

Two results are read off it. In every reachable state no call stops and the outstanding
and the listed blocks tile the pool (`pool_ownership`); and an allocation fails exactly
when no aligned window of its size is free of outstanding blocks (`alloc_null_iff`).
-/

namespace Petmem
namespace Buddy

open Dyadic ByteMemory

/-- A pool, the memory it manages and the outstanding `(address, order)` pairs, with the
orders the clients asked for. -/
structure PoolState where
  mem : Mem
  mp : BuddyMempool
  out : List (ℕ × ℕ)

/-- The byte `x` belongs to the block of order `k` at address `a`. -/
def InBlock (a k x : ℕ) : Prop := a ≤ x ∧ x < a + 2 ^ k

instance (a k x : ℕ) : Decidable (InBlock a k x) := inferInstanceAs (Decidable (_ ∧ _))

/-- One call on the pool, or a client's stores into outstanding blocks. -/
inductive PoolStep : PoolState → PoolState → Prop
  | alloc {s : PoolState} {order block : ℕ} {m : Mem} {mp : BuddyMempool} :
      order ≤ s.mp.poolOrder → buddyAlloc s.mem s.mp order = .ok (block, m, mp) →
      PoolStep s ⟨m, mp, if block = 0 then s.out else (block, order) :: s.out⟩
  | free {s : PoolState} {addr order : ℕ} {m : Mem} {mp : BuddyMempool} :
      (addr, order) ∈ s.out → buddyFree s.mem s.mp addr order = .ok (m, mp) →
      PoolStep s ⟨m, mp, s.out.erase (addr, order)⟩
  | client {s : PoolState} {m : Mem} :
      (∀ x, (∀ p ∈ s.out, ¬ InBlock p.1 (max p.2 s.mp.minOrder) x) → m x = s.mem x) →
      PoolStep s { s with mem := m }

/-- The outstanding blocks as tiles. -/
def outBlocks (mp : BuddyMempool) (out : List (ℕ × ℕ)) : Multiset Block :=
  (out : Multiset (ℕ × ℕ)).map fun p => blk mp p.1 (effOrder mp p.2)

/-- The invariant of a run. -/
structure RunInv (s : PoolState) : Prop where
  inv : Inv s.mem s.mp 0 (outBlocks s.mp s.out)
  mem_out : ∀ p ∈ s.out, s.mp.baseAddr ≤ p.1 ∧ p.2 ≤ s.mp.poolOrder

theorem SameShape.blk_eq {mp mp' : BuddyMempool} (h : SameShape mp mp') (a k : ℕ) :
    blk mp' a k = blk mp a k := by
  unfold blk
  rw [h.base]

theorem SameShape.effOrder_eq {mp mp' : BuddyMempool} (h : SameShape mp mp') (k : ℕ) :
    effOrder mp' k = effOrder mp k := by
  unfold effOrder
  rw [h.min]

theorem SameShape.outBlocks_eq {mp mp' : BuddyMempool} (h : SameShape mp mp')
    (out : List (ℕ × ℕ)) : outBlocks mp' out = outBlocks mp out := by
  simp only [outBlocks, h.blk_eq, h.effOrder_eq]

@[simp] theorem outBlocks_cons (mp : BuddyMempool) (p : ℕ × ℕ) (out : List (ℕ × ℕ)) :
    outBlocks mp (p :: out) = blk mp p.1 (effOrder mp p.2) ::ₘ outBlocks mp out := rfl

theorem outBlocks_erase {mp : BuddyMempool} {p : ℕ × ℕ} {out : List (ℕ × ℕ)} (hp : p ∈ out) :
    outBlocks mp out = blk mp p.1 (effOrder mp p.2) ::ₘ outBlocks mp (out.erase p) := by
  have hperm : (out : Multiset (ℕ × ℕ)) = p ::ₘ (out.erase p : List (ℕ × ℕ)) :=
    Multiset.coe_eq_coe.2 (List.perm_cons_erase hp)
  unfold outBlocks
  rw [hperm, Multiset.map_cons]

/-- A byte of an outstanding block is a busy byte. -/
theorem busy_of_inBlock {mp : BuddyMempool} {out : List (ℕ × ℕ)} {p : ℕ × ℕ} {x : ℕ}
    (hp : p ∈ out) (hle : mp.baseAddr ≤ p.1) (hx : InBlock p.1 (max p.2 mp.minOrder) x) :
    Busy mp (outBlocks mp out) x := by
  refine .inr ⟨blk mp p.1 (effOrder mp p.2),
    Multiset.mem_map_of_mem _ (Multiset.mem_coe.2 hp), le_trans hle hx.1, ?_⟩
  unfold InBlock at hx
  simp only [blk, effOrder_eq_max, Block.Covers]
  omega

namespace RunInv

variable {s t : PoolState}

/-- The bytes no outstanding block owns and that lie in the pool are not busy. -/
theorem not_busy_iff (h : RunInv s) {x : ℕ} :
    ¬ Busy s.mp (outBlocks s.mp s.out) x ↔
      (s.mp.baseAddr ≤ x ∧ x < s.mp.baseAddr + 2 ^ s.mp.poolOrder) ∧
        ∀ p ∈ s.out, ¬ InBlock p.1 (max p.2 s.mp.minOrder) x := by
  constructor
  · intro hnb
    have hin : s.mp.baseAddr ≤ x ∧ x < s.mp.baseAddr + 2 ^ s.mp.poolOrder := by
      by_contra hout
      exact hnb (.inl hout)
    exact ⟨hin, fun p hp hx => hnb (busy_of_inBlock hp (h.mem_out p hp).1 hx)⟩
  · rintro ⟨hin, hfree⟩ (hout | ⟨b, hb, hle, hcov⟩)
    · exact hout hin
    · obtain ⟨p, hp, rfl⟩ := Multiset.mem_map.1 hb
      have hpl := (h.mem_out p (Multiset.mem_coe.1 hp)).1
      refine hfree p (Multiset.mem_coe.1 hp) ?_
      simp only [blk, effOrder_eq_max, Block.Covers] at hcov
      unfold InBlock
      omega

/-- Every step of a run keeps the invariant and the pool's dimensions. -/
theorem step (h : RunInv s) (hst : PoolStep s t) : RunInv t ∧ SameShape s.mp t.mp := by
  cases hst with
  | @alloc order block m mp hord hrun =>
    obtain ⟨r, hr, hres⟩ := buddyAlloc_spec h.inv hord
    rw [hrun] at hr
    cases hr
    -- a refused request changes nothing
    rcases hres with ⟨heq, _⟩ | ⟨o, hblock, hinv, hshape, _⟩
    · cases heq
      exact ⟨h, .refl _⟩
    · have hpos := h.inv.geom.base_pos
      have hblock' : block = s.mp.baseAddr + o := hblock
      have hne : block ≠ 0 := by omega
      rw [if_neg hne]
      refine ⟨⟨?_, ?_⟩, hshape⟩
      · show Inv m mp 0 (outBlocks mp ((block, order) :: s.out))
        rw [hshape.outBlocks_eq, outBlocks_cons,
          show blk s.mp block (effOrder s.mp order) = ⟨o, effOrder s.mp order⟩ by
            simp [blk, hblock']]
        exact hinv
      · intro p hp
        show mp.baseAddr ≤ p.1 ∧ p.2 ≤ mp.poolOrder
        rw [hshape.base, hshape.pool]
        rcases List.mem_cons.1 hp with rfl | hp
        · exact ⟨by simp only [hblock']; omega, hord⟩
        · exact h.mem_out p hp
  | @free addr order m mp hmem hrun =>
    obtain ⟨hle, hord⟩ := h.mem_out _ hmem
    have hinv := h.inv
    -- the block that comes back is one of those handed out
    rw [outBlocks_erase hmem] at hinv
    obtain ⟨m', mp', hrun', hinv', hshape, _⟩ :=
      buddyFree_spec (o := addr - s.mp.baseAddr) hinv hord
    rw [Nat.add_sub_cancel' hle, hrun] at hrun'
    cases hrun'
    refine ⟨⟨?_, ?_⟩, hshape⟩
    · show Inv m mp 0 (outBlocks mp (s.out.erase (addr, order)))
      rw [hshape.outBlocks_eq]
      exact hinv'
    · intro p hp
      show mp.baseAddr ≤ p.1 ∧ p.2 ≤ mp.poolOrder
      rw [hshape.base, hshape.pool]
      exact h.mem_out p (List.mem_of_mem_erase hp)
  | @client m hm =>
    -- a client writes to its own blocks only, which no list word is in
    refine ⟨⟨h.inv.of_mem_eq fun j a ha => ?_, h.mem_out⟩, .refl _⟩
    exact h.inv.readOrder_eq_of_busy (fun x hx => hm x (h.not_busy_iff.1 hx).2) ha

/-- The order of the outstanding blocks does not matter. -/
theorem perm {m : Mem} {mp : BuddyMempool} {out out' : List (ℕ × ℕ)}
    (h : RunInv ⟨m, mp, out⟩) (hperm : out.Perm out') : RunInv ⟨m, mp, out'⟩ := by
  refine ⟨?_, fun p hp => h.mem_out p (hperm.mem_iff.2 hp)⟩
  have hblocks : outBlocks mp out' = outBlocks mp out := by
    unfold outBlocks
    rw [Multiset.coe_eq_coe.2 hperm]
  show Inv m mp 0 (outBlocks mp out')
  rw [hblocks]
  exact h.inv

end RunInv

/-- Whole runs keep the invariant. -/
theorem runInv_of_reaches {s t : PoolState} (h : RunInv s)
    (hrun : Relation.ReflTransGen PoolStep s t) : RunInv t ∧ SameShape s.mp t.mp := by
  induction hrun with
  | refl => exact ⟨h, .refl _⟩
  | tail _ hst ih =>
    obtain ⟨hinv, hshape⟩ := ih
    obtain ⟨hinv', hshape'⟩ := hinv.step hst
    exact ⟨hinv', hshape.trans hshape'⟩

/-! ## Runs that are computed -/

/-- What a client can ask of the pool. -/
inductive Call
  | alloc (order : ℕ)
  | free (addr order : ℕ)

/-- A call that a client may make, when it returns. -/
def answer (s : PoolState) : Call → Option PoolState
  | .alloc order =>
    if order ≤ s.mp.poolOrder then
      (buddyAlloc s.mem s.mp order).toOption.map fun r =>
        ⟨r.2.1, r.2.2, if r.1 = 0 then s.out else (r.1, order) :: s.out⟩
    else none
  | .free addr order =>
    if (addr, order) ∈ s.out then
      (buddyFree s.mem s.mp addr order).toOption.map fun r =>
        ⟨r.1, r.2, s.out.erase (addr, order)⟩
    else none

/-- Calls in order, when all of them return. -/
def answers : List Call → PoolState → Option PoolState
  | [], s => some s
  | call :: calls, s => (answer s call).bind (answers calls)

theorem answer_step {s t : PoolState} {call : Call} (h : answer s call = some t) :
    PoolStep s t := by
  cases call with
  | alloc order =>
    rw [answer] at h
    split at h
    · obtain ⟨⟨block, m, mp⟩, hrun, rfl⟩ := Option.map_eq_some_iff.1 h
      exact .alloc ‹_› (ok_of_toOption hrun)
    · cases h
  | free addr order =>
    rw [answer] at h
    split at h
    · obtain ⟨⟨m, mp⟩, hrun, rfl⟩ := Option.map_eq_some_iff.1 h
      exact .free ‹_› (ok_of_toOption hrun)
    · cases h

/-- What is computed is a run. -/
theorem reaches_of_answers {s t : PoolState} {calls : List Call}
    (h : answers calls s = some t) : Relation.ReflTransGen PoolStep s t := by
  induction calls generalizing s with
  | nil =>
    cases h
    exact .refl
  | cons call calls ih =>
    obtain ⟨u, hu, h⟩ := Option.bind_eq_some_iff.1 h
    exact .head (answer_step hu) (ih h)

/-! ## The start of a run -/

theorem geometry_of_init {base pool min : ℕ} {mp : BuddyMempool}
    (h : buddyInit base pool min = some mp) (hbase : base ≠ 0) (hspace : base + 2 ^ pool ≤ 2 ^ 64) :
    Geometry mp ∧ mp.baseAddr = base ∧ mp.poolOrder = pool ∧ (∀ o, tag mp o = false) ∧
      ∀ j, mp.avail j = [] := by
  unfold buddyInit at h
  set mo := if shl64 min < sizeofBlock then Nat.log2 (roundupPowOfTwo sizeofBlock) else min
    with hmo
  simp only at h
  split at h
  · cases h
  · rename_i hle
    simp only [Option.some.injEq] at h
    subst h
    have hpool : pool < 64 := by
      exact (Nat.pow_lt_pow_iff_right (a := 2) (by norm_num)).1 (by omega)
    -- a block has room for its list entry
    have hge : 5 ≤ mo := by
      rw [hmo]
      split
      · decide
      · rename_i hsz
        by_contra hlt
        have h16 : 2 ^ min ≤ 2 ^ 4 := by
          apply Nat.pow_le_pow_right (by norm_num)
          rw [if_neg hsz] at hmo
          omega
        have hmod : shl64 min ≤ 2 ^ min := Nat.mod_le _ _
        unfold sizeofBlock at hsz
        omega
    refine ⟨⟨hge, Nat.le_of_not_lt hle, Nat.pos_of_ne_zero hbase, hspace, ?_⟩, rfl, rfl,
      fun _ => rfl, fun _ => rfl⟩
    simp only
    rw [shl64_of_lt hpool, shl64_of_lt (by omega), Nat.pow_div (by omega) (by norm_num)]

/-- Before the first `buddy_free` the whole pool counts as one block in use. -/
theorem inv_of_init {base pool min : ℕ} {mp : BuddyMempool} (m : Mem)
    (h : buddyInit base pool min = some mp) (hbase : base ≠ 0)
    (hspace : base + 2 ^ pool ≤ 2 ^ 64) : Inv m mp 0 {⟨0, mp.poolOrder⟩} := by
  obtain ⟨hgeom, _, _, htag, havail⟩ := geometry_of_init h hbase hspace
  have hfree : freeBlocks mp = 0 := by
    simp [freeBlocks, havail]
  refine ⟨hgeom, ?_, ?_, by simp, ?_, ?_⟩
  · intro j a ha
    simp [havail j] at ha
  · intro b hb
    rw [Multiset.mem_singleton] at hb
    subst hb
    exact ⟨hgeom.min_le, htag 0⟩
  · rw [hfree, Multiset.zero_add, Multiset.add_zero]
    exact Tiling.single _
  · intro j _ a ha
    simp [havail j] at ha

/-- The first `buddy_free` makes the whole pool available. -/
theorem start_spec {base pool min : ℕ} {mp : BuddyMempool} (m : Mem)
    (h : buddyInit base pool min = some mp) (hbase : base ≠ 0)
    (hspace : base + 2 ^ pool ≤ 2 ^ 64) :
    ∃ m' mp', buddyFree m mp base pool = .ok (m', mp') ∧ RunInv ⟨m', mp', []⟩ ∧
      SameShape mp mp' ∧ ∀ x, ¬ (base ≤ x ∧ x < base + 2 ^ pool) → m' x = m x := by
  have hinv := inv_of_init m h hbase hspace
  obtain ⟨hgeom, hb, hp, _, _⟩ := geometry_of_init h hbase hspace
  have heff : effOrder mp pool = mp.poolOrder := by
    have := hgeom.min_le
    rw [effOrder_eq_max, ← hp]
    omega
  obtain ⟨m', mp', hrun, hinv', hshape, hframe⟩ := @buddyFree_spec m mp 0 0 pool
    (by rw [heff]; exact hinv) (by omega)
  rw [Nat.add_zero, hb] at hrun
  refine ⟨m', mp', hrun, ⟨hinv', by simp⟩, hshape, fun x hx => hframe x (.inl ?_)⟩
  rwa [hb, hp]

/-! ## Ownership -/

/-- The outstanding blocks and the blocks on `avail[min_order..pool_order]`, as
`(address, order)` pairs with the orders raised to the pool's minimum. -/
def allBlocks (s : PoolState) : List (ℕ × ℕ) :=
  s.out.map (fun p => (p.1, max p.2 s.mp.minOrder)) ++
    (List.range' s.mp.minOrder (s.mp.poolOrder + 1 - s.mp.minOrder)).flatMap fun j =>
      (s.mp.avail j).map fun a => (a, j)

/-- No call on the pool stops. -/
def NeverStops (s : PoolState) : Prop :=
  (∀ order ≤ s.mp.poolOrder, ∃ r, buddyAlloc s.mem s.mp order = .ok r) ∧
    ∀ p ∈ s.out, ∃ r, buddyFree s.mem s.mp p.1 p.2 = .ok r

/-- Every block `buddy_alloc` returns lies in the pool, is aligned to its size relative to
the base, and is disjoint from every outstanding block. -/
def AllocsAreFresh (s : PoolState) : Prop :=
  ∀ order ≤ s.mp.poolOrder, ∀ block m mp, buddyAlloc s.mem s.mp order = .ok (block, m, mp) →
    block ≠ 0 →
    s.mp.baseAddr ≤ block ∧
    block + 2 ^ max order s.mp.minOrder ≤ s.mp.baseAddr + 2 ^ s.mp.poolOrder ∧
    2 ^ max order s.mp.minOrder ∣ block - s.mp.baseAddr ∧
    ∀ p ∈ s.out, block + 2 ^ max order s.mp.minOrder ≤ p.1 ∨
      p.1 + 2 ^ max p.2 s.mp.minOrder ≤ block

/-- The outstanding and the listed blocks tile the pool: each byte lies in exactly one of
them, listed blocks carry their order and a set tag bit, outstanding ones a clear one. -/
structure Tiled (s : PoolState) : Prop where
  inside : ∀ b ∈ allBlocks s, s.mp.baseAddr ≤ b.1 ∧
    b.1 + 2 ^ b.2 ≤ s.mp.baseAddr + 2 ^ s.mp.poolOrder
  once : ∀ x, s.mp.baseAddr ≤ x → x < s.mp.baseAddr + 2 ^ s.mp.poolOrder →
    (allBlocks s).countP (fun b => InBlock b.1 b.2 x) = 1
  nodup : (allBlocks s).Nodup
  listed : ∀ j, ∀ a ∈ s.mp.avail j, s.mp.minOrder ≤ j ∧ j ≤ s.mp.poolOrder ∧
    readOrder s.mem a = j ∧ s.mp.tagBits ((a - s.mp.baseAddr) >>> s.mp.minOrder) = true
  outstanding : ∀ p ∈ s.out, s.mp.tagBits ((p.1 - s.mp.baseAddr) >>> s.mp.minOrder) = false

/-- A pair of `allBlocks` as a tile. -/
def toTile (mp : BuddyMempool) (b : ℕ × ℕ) : Block := blk mp b.1 b.2

/-- The listed blocks, one list after the other, as tiles. -/
theorem map_flatMap_avail (mp : BuddyMempool) (l : List ℕ) :
    ((l.flatMap fun j => (mp.avail j).map fun a => (a, j) : List (ℕ × ℕ)) :
        Multiset (ℕ × ℕ)).map (toTile mp)
      = (l.map fun j => ((mp.avail j : Multiset ℕ).map fun a => blk mp a j)).sum := by
  induction l with
  | nil => simp
  | cons j l ih =>
    rw [List.flatMap_cons, ← Multiset.coe_add, Multiset.map_add, ih, List.map_cons, List.sum_cons]
    congr 1
    simp [toTile, Function.comp_def]

/-- The blocks of a state are its outstanding and its free tiles. -/
theorem map_allBlocks {s : PoolState} (h : RunInv s) :
    ((allBlocks s : List (ℕ × ℕ)) : Multiset (ℕ × ℕ)).map (toTile s.mp)
      = outBlocks s.mp s.out + freeBlocks s.mp := by
  have hmin := h.inv.geom.min_le
  have hrange : List.range (s.mp.poolOrder + 1) = List.range' 0 s.mp.minOrder ++
      List.range' s.mp.minOrder (s.mp.poolOrder + 1 - s.mp.minOrder) := by
    rw [List.range_eq_range']
    have := @List.range'_append_1 0 s.mp.minOrder (s.mp.poolOrder + 1 - s.mp.minOrder)
    rw [Nat.zero_add] at this
    rw [this]
    congr 1
    omega
  -- the lists below the minimum order are empty
  have hlow : ((List.range' 0 s.mp.minOrder).map fun j =>
      ((s.mp.avail j : Multiset ℕ).map fun a => blk s.mp a j)).sum = 0 := by
    refine List.sum_eq_zero fun x hx => ?_
    obtain ⟨j, hj, rfl⟩ := List.mem_map.1 hx
    rw [List.mem_range'_1] at hj
    have hnil : s.mp.avail j = [] := by
      rw [List.eq_nil_iff_forall_not_mem]
      intro a ha
      have := (h.inv.listed j a ha).1
      omega
    simp [hnil]
  have hfree : freeBlocks s.mp = ((List.range (s.mp.poolOrder + 1)).map fun j =>
      ((s.mp.avail j : Multiset ℕ).map fun a => blk s.mp a j)).sum := rfl
  rw [hfree, hrange, List.map_append, List.sum_append, hlow, zero_add]
  unfold allBlocks
  rw [← Multiset.coe_add, Multiset.map_add, map_flatMap_avail]
  congr 1
  simp [outBlocks, toTile, effOrder_eq_max, Function.comp_def]

namespace RunInv

variable {s : PoolState}

theorem base_le_of_mem (h : RunInv s) {b : ℕ × ℕ} (hb : b ∈ allBlocks s) :
    s.mp.baseAddr ≤ b.1 := by
  rcases List.mem_append.1 hb with hb | hb
  · obtain ⟨p, hp, rfl⟩ := List.mem_map.1 hb
    exact (h.mem_out p hp).1
  · obtain ⟨j, _, hb⟩ := List.mem_flatMap.1 hb
    obtain ⟨a, ha, rfl⟩ := List.mem_map.1 hb
    exact (h.inv.listed j a ha).2.2.1

theorem toTile_mem (h : RunInv s) {b : ℕ × ℕ} (hb : b ∈ allBlocks s) :
    toTile s.mp b ∈ 0 + outBlocks s.mp s.out + freeBlocks s.mp := by
  rw [zero_add, ← map_allBlocks h]
  exact Multiset.mem_map_of_mem _ (Multiset.mem_coe.2 hb)

theorem tiled (h : RunInv s) : Tiled s := by
  have htil := h.inv.tiling
  rw [zero_add, ← map_allBlocks h] at htil
  refine ⟨fun b hb => ⟨h.base_le_of_mem hb, ?_⟩, ?_, ?_, ?_, ?_⟩
  · have hend := h.inv.tiling.off_add_le (h.toTile_mem hb)
    have hle := h.base_le_of_mem hb
    simp only [toTile, blk] at hend
    omega
  · intro x hx1 hx2
    have hc := htil.cover (x - s.mp.baseAddr)
    rw [if_pos (by omega), Multiset.countP_map, ← Multiset.countP_eq_card_filter] at hc
    rw [← hc, Multiset.coe_countP]
    refine List.countP_congr fun b hb => ?_
    have hle := h.base_le_of_mem hb
    simp only [decide_eq_true_eq]
    unfold InBlock Block.Covers toTile blk
    simp only
    omega
  · exact Multiset.coe_nodup.1 (Multiset.Nodup.of_map _ htil.nodup)
  · intro j a ha
    obtain ⟨h1, h2, _, h4, h5⟩ := h.inv.listed j a ha
    exact ⟨h1, h2, h5, h4⟩
  · intro p hp
    exact (h.inv.used _ (Multiset.mem_map_of_mem _ (Multiset.mem_coe.2 hp))).2

theorem neverStops (h : RunInv s) : NeverStops s := by
  constructor
  · intro order hord
    obtain ⟨r, hr, _⟩ := buddyAlloc_spec h.inv hord
    exact ⟨r, hr⟩
  · intro p hp
    obtain ⟨hle, hord⟩ := h.mem_out p hp
    have hinv := h.inv
    rw [outBlocks_erase hp] at hinv
    obtain ⟨m', mp', hrun, _⟩ := buddyFree_spec (o := p.1 - s.mp.baseAddr) hinv hord
    rw [Nat.add_sub_cancel' hle] at hrun
    exact ⟨_, hrun⟩

theorem allocsAreFresh (h : RunInv s) : AllocsAreFresh s := by
  intro order hord block m mp hrun hne
  obtain ⟨r, hr, hres⟩ := buddyAlloc_spec h.inv hord
  rw [hrun] at hr
  cases hr
  rcases hres with ⟨heq, _⟩ | ⟨o, hblock, hinv, hshape, _⟩
  · cases heq
    exact absurd rfl hne
  · have hblock' : block = s.mp.baseAddr + o := hblock
    have hmem : (⟨o, effOrder s.mp order⟩ : Block) ∈
        0 + (⟨o, effOrder s.mp order⟩ ::ₘ outBlocks s.mp s.out) + freeBlocks mp := by simp
    have htil : Tiling s.mp.poolOrder _ := hshape.pool ▸ hinv.tiling
    have hend := htil.off_add_le hmem
    have halign := htil.aligned _ hmem
    simp only [effOrder_eq_max, Block.Aligned] at hend halign
    refine ⟨by omega, by omega, by rwa [hblock', Nat.add_sub_cancel_left], fun p hp => ?_⟩
    -- the block and an outstanding one are different tiles
    rw [zero_add, Multiset.cons_add] at htil
    have hpm : blk s.mp p.1 (effOrder s.mp p.2) ∈ outBlocks s.mp s.out + freeBlocks mp :=
      Multiset.mem_add.2 (.inl (Multiset.mem_map_of_mem _ (Multiset.mem_coe.2 hp)))
    have hple := (h.mem_out p hp).1
    have hdiff : (⟨o, effOrder s.mp order⟩ : Block) ≠ blk s.mp p.1 (effOrder s.mp p.2) :=
      fun heq => htil.notMem_of_cons (heq ▸ hpm)
    have := htil.off_add_le_or (Multiset.mem_cons_self _ _) (Multiset.mem_cons_of_mem hpm) hdiff
    simp only [blk, effOrder_eq_max] at this
    omega

end RunInv

/-- **Ownership of a pool.** Whatever the parameters `buddy_init` accepts, the first
`buddy_free` of the whole pool succeeds, and in every state reached from there no call
stops, allocations are fresh, and outstanding and listed blocks tile the pool. -/
theorem pool_ownership {base pool min : ℕ} {mp₀ : BuddyMempool} (m₀ : Mem)
    (hinit : buddyInit base pool min = some mp₀) (hbase : base ≠ 0)
    (hspace : base + 2 ^ pool ≤ 2 ^ 64) :
    ∃ m₁ mp₁, buddyFree m₀ mp₀ base pool = .ok (m₁, mp₁) ∧
      ∀ s, Relation.ReflTransGen PoolStep ⟨m₁, mp₁, []⟩ s →
        (s.mp.baseAddr = base ∧ s.mp.poolOrder = pool ∧ s.mp.minOrder = mp₀.minOrder) ∧
        NeverStops s ∧ AllocsAreFresh s ∧ Tiled s := by
  obtain ⟨m₁, mp₁, hrun, hinv, hshape, -⟩ := start_spec m₀ hinit hbase hspace
  obtain ⟨_, hb, hp, _, _⟩ := geometry_of_init hinit hbase hspace
  refine ⟨m₁, mp₁, hrun, fun s hs => ?_⟩
  obtain ⟨hs', hshape'⟩ := runInv_of_reaches hinv hs
  have hsh := hshape.trans hshape'
  exact ⟨⟨hsh.base.trans hb, hsh.pool.trans hp, hsh.min⟩, hs'.neverStops, hs'.allocsAreFresh,
    hs'.tiled⟩

/-- A pool of 64 bytes at address 4096: `buddy_init` raises the minimum order to 5. -/
theorem pool_ownership_of_64_bytes :
    ∃ mp₀, buddyInit 4096 6 0 = some mp₀ ∧ mp₀.minOrder = 5 ∧
      ∃ m₁ mp₁, buddyFree (fun _ => 0) mp₀ 4096 6 = .ok (m₁, mp₁) ∧
        ∀ s, Relation.ReflTransGen PoolStep ⟨m₁, mp₁, []⟩ s →
          (s.mp.baseAddr = 4096 ∧ s.mp.poolOrder = 6 ∧ s.mp.minOrder = mp₀.minOrder) ∧
          NeverStops s ∧ AllocsAreFresh s ∧ Tiled s :=
  ⟨_, rfl, rfl, @pool_ownership 4096 6 0 _ (fun _ => 0) rfl (by decide) (by norm_num)⟩

/-! ## Completeness -/

/-- `[w, w + 2^k)` is a window of the pool aligned to its size relative to the base. -/
def Window (mp : BuddyMempool) (w k : ℕ) : Prop :=
  mp.baseAddr ≤ w ∧ 2 ^ k ∣ w - mp.baseAddr ∧ w + 2 ^ k ≤ mp.baseAddr + 2 ^ mp.poolOrder

/-- The window `[w, w + 2^k)` shares a byte with an outstanding block. -/
def MeetsOutstanding (s : PoolState) (w k : ℕ) : Prop :=
  ∃ p ∈ s.out, ∃ x, InBlock p.1 (max p.2 s.mp.minOrder) x ∧ InBlock w k x

namespace RunInv

variable {s : PoolState}

/-- A window clear of outstanding blocks lies inside one listed block, because no two
listed blocks are buddies. -/
theorem exists_listed_of_window (h : RunInv s) {w k : ℕ} (hw : Window s.mp w k)
    (hclear : ¬ MeetsOutstanding s w k) :
    ∃ i, ∃ a ∈ s.mp.avail i, k ≤ i ∧ a ≤ w ∧ w + 2 ^ k ≤ a + 2 ^ i := by
  obtain ⟨hwle, hwal, hwend⟩ := hw
  set wb : Block := ⟨w - s.mp.baseAddr, k⟩ with hwb
  have hmerged : ∀ b ∈ 0 + outBlocks s.mp s.out + freeBlocks s.mp,
      (b ∈ freeBlocks s.mp ∧ ∃ x, b.Covers x ∧ wb.Covers x) → b.order < s.mp.poolOrder →
      ¬ (b.buddy ∈ 0 + outBlocks s.mp s.out + freeBlocks s.mp ∧
        b.buddy ∈ freeBlocks s.mp ∧ ∃ x, b.buddy.Covers x ∧ wb.Covers x) := by
    rintro b - ⟨hb, -⟩ hlt ⟨-, hbud, -⟩
    have hmem : s.mp.baseAddr + b.buddy.off ∈ s.mp.avail b.order := h.inv.exists_mem_avail hbud
    refine h.inv.merged b.order hlt _ (h.inv.exists_mem_avail hb) _ hmem ?_
    simp [blk, Block.buddy]
  obtain ⟨b, hb, ⟨hbf, x, hbx, hwx⟩, hbk⟩ := h.inv.tiling.exists_order_ge hmerged
    (w := wb) hwal (by simp only [hwb]; omega) (by
      intro b hb x hbx hwx
      refine ⟨?_, x, hbx, hwx⟩
      rw [zero_add] at hb
      rcases Multiset.mem_add.1 hb with hb | hb
      · exfalso
        obtain ⟨p, hp, rfl⟩ := Multiset.mem_map.1 hb
        have hple := (h.mem_out p (Multiset.mem_coe.1 hp)).1
        refine hclear ⟨p, Multiset.mem_coe.1 hp, s.mp.baseAddr + x, ?_, ?_⟩
        · simp only [blk, effOrder_eq_max, Block.Covers] at hbx
          unfold InBlock
          omega
        · simp only [hwb, Block.Covers] at hwx
          unfold InBlock
          omega
      · exact hb)
  -- the two are aligned and share a byte
  have hpos := Nat.two_pow_pos k
  have hin : ∀ y, wb.Covers y → b.Covers y := fun y hy =>
    Block.Aligned.covers_of_le (show wb.Aligned from hwal) (h.inv.tiling.aligned b hb) hbk hwx hbx
      hy
  have hfirst := hin (w - s.mp.baseAddr) ⟨le_refl _, by simp only [hwb]; omega⟩
  have hlast := hin (w - s.mp.baseAddr + (2 ^ k - 1)) ⟨by simp only [hwb]; omega,
    by simp only [hwb]; omega⟩
  refine ⟨b.order, s.mp.baseAddr + b.off, h.inv.exists_mem_avail hbf, hbk, ?_, ?_⟩
  · have := hfirst.1
    omega
  · have := hlast.2
    omega

end RunInv

/-- **Completeness of `buddy_alloc`.** In every reachable state an allocation returns `NULL`
exactly when every aligned window of its size meets an outstanding block, and a call that
returns `NULL` changes nothing. -/
theorem alloc_null_iff {base pool min : ℕ} {mp₀ mp₁ : BuddyMempool} {m₀ m₁ : Mem}
    (hinit : buddyInit base pool min = some mp₀) (hbase : base ≠ 0)
    (hspace : base + 2 ^ pool ≤ 2 ^ 64)
    (hfree : buddyFree m₀ mp₀ base pool = .ok (m₁, mp₁)) {s : PoolState}
    (hs : Relation.ReflTransGen PoolStep ⟨m₁, mp₁, []⟩ s) {order : ℕ}
    (hord : order ≤ s.mp.poolOrder) :
    ((∃ m mp, buddyAlloc s.mem s.mp order = .ok (0, m, mp)) ↔
        ∀ w, Window s.mp w (max order s.mp.minOrder) →
          MeetsOutstanding s w (max order s.mp.minOrder)) ∧
      ∀ m mp, buddyAlloc s.mem s.mp order = .ok (0, m, mp) → m = s.mem ∧ mp = s.mp := by
  obtain ⟨m₁', mp₁', hrun, hinv, -, -⟩ := start_spec m₀ hinit hbase hspace
  rw [hfree] at hrun
  cases hrun
  have h := (runInv_of_reaches hinv hs).1
  obtain ⟨r, hr, hres⟩ := buddyAlloc_spec h.inv hord
  have hnull : ∀ m mp, buddyAlloc s.mem s.mp order = .ok (0, m, mp) →
      (m = s.mem ∧ mp = s.mp) ∧ ∀ i, max order s.mp.minOrder ≤ i → s.mp.avail i = [] := by
    intro m mp hr0
    rw [hr] at hr0
    cases hr0
    rcases hres with ⟨heq, hempty⟩ | ⟨o, hblock, _⟩
    · cases heq
      exact ⟨⟨rfl, rfl⟩, by rwa [effOrder_eq_max] at hempty⟩
    · have := h.inv.geom.base_pos
      simp only at hblock
      omega
  refine ⟨⟨?_, ?_⟩, fun m mp hr0 => (hnull m mp hr0).1⟩
  · rintro ⟨m, mp, hr0⟩ w hw
    by_contra hclear
    obtain ⟨i, a, ha, hi, -, -⟩ := h.exists_listed_of_window hw hclear
    rw [(hnull m mp hr0).2 i hi] at ha
    exact List.not_mem_nil ha
  · intro hall
    by_contra hno
    obtain ⟨block, m, mp⟩ := r
    have hne : block ≠ 0 := by
      rintro rfl
      exact hno ⟨m, mp, hr⟩
    -- the block returned would be a window clear of outstanding blocks
    obtain ⟨h1, h2, h3, h4⟩ := h.allocsAreFresh order hord block m mp hr hne
    obtain ⟨p, hp, x, hx1, hx2⟩ := hall block ⟨h1, h3, h2⟩
    have := h4 p hp
    unfold InBlock at hx1 hx2
    omega

/-- A pool of 128 bytes is handed out in four blocks of 32 bytes, and then three of them are freed,
from the lowest up and from the highest down. -/
theorem three_quarters_freed :
    ∃ mp₀ m₁ mp₁ u s t, buddyInit 4096 7 0 = some mp₀ ∧
      buddyFree (fun _ => 0) mp₀ 4096 7 = .ok (m₁, mp₁) ∧
      Relation.ReflTransGen PoolStep ⟨m₁, mp₁, []⟩ u ∧
      Relation.ReflTransGen PoolStep ⟨m₁, mp₁, []⟩ s ∧
      Relation.ReflTransGen PoolStep ⟨m₁, mp₁, []⟩ t ∧
      u.out = [(4192, 5), (4160, 5), (4128, 5), (4096, 5)] ∧
      s.out = [(4192, 5)] ∧ t.out = [(4192, 5)] ∧
      s.mp.baseAddr = 4096 ∧ s.mp.poolOrder = 7 ∧ s.mp.minOrder = 5 := by
  have hres : ((buddyInit 4096 7 0).bind fun mp₀ =>
      (buddyFree (fun _ => 0) mp₀ 4096 7).toOption.bind fun r =>
      (answers [.alloc 5, .alloc 5, .alloc 5, .alloc 5] ⟨r.1, r.2, []⟩).bind fun u =>
      (answers [.free 4096 5, .free 4128 5, .free 4160 5] u).bind fun s =>
      (answers [.free 4160 5, .free 4128 5, .free 4096 5] u).map fun t =>
        (u.out, s.out, t.out, s.mp.baseAddr, s.mp.poolOrder, s.mp.minOrder))
      = some ([(4192, 5), (4160, 5), (4128, 5), (4096, 5)], [(4192, 5)], [(4192, 5)],
        4096, 7, 5) := by
    decide +kernel
  obtain ⟨mp₀, hinit, hres⟩ := Option.bind_eq_some_iff.1 hres
  obtain ⟨⟨m₁, mp₁⟩, hfree, hres⟩ := Option.bind_eq_some_iff.1 hres
  obtain ⟨u, hu, hres⟩ := Option.bind_eq_some_iff.1 hres
  obtain ⟨s, hs, hres⟩ := Option.bind_eq_some_iff.1 hres
  obtain ⟨t, ht, heq⟩ := Option.map_eq_some_iff.1 hres
  simp only [Prod.mk.injEq] at heq
  have hruns := reaches_of_answers hu
  exact ⟨mp₀, m₁, mp₁, u, s, t, hinit, ok_of_toOption hfree, hruns,
    hruns.trans (reaches_of_answers hs), hruns.trans (reaches_of_answers ht), heq⟩

/-- With the highest of the four blocks outstanding there is no room for 128 bytes, and there is
room for 64. -/
theorem alloc_null_iff_with_last_quarter :
    ∃ s : PoolState, s.out = [(4192, 5)] ∧
      (∃ m mp, buddyAlloc s.mem s.mp 7 = .ok (0, m, mp)) ∧
      ¬ ∃ m mp, buddyAlloc s.mem s.mp 6 = .ok (0, m, mp) := by
  obtain ⟨mp₀, m₁, mp₁, -, s, -, hinit, hfree, -, hs, -, -, hout, -, hbase, hpool, hmin⟩ :=
    three_quarters_freed
  have hmeets : ∀ w k, MeetsOutstanding s w k ↔ ∃ x, InBlock 4192 5 x ∧ InBlock w k x := by
    intro w k
    simp [MeetsOutstanding, hout, hmin]
  have hseven : 7 ≤ s.mp.poolOrder := by omega
  have hsix : 6 ≤ s.mp.poolOrder := by omega
  refine ⟨s, hout, (alloc_null_iff hinit (by decide) (by norm_num) hfree hs hseven).1.2 ?_,
    fun hnull => ?_⟩
  · -- the only window of 128 bytes is the pool
    rintro w ⟨h1, -, h2⟩
    rw [hbase] at h1
    rw [hbase, hpool, hmin, show max 7 5 = 7 from rfl] at h2
    obtain rfl : w = 4096 := by omega
    rw [hmin]
    exact (hmeets _ _).2 ⟨4192, by decide, by decide⟩
  · -- the lower half of the pool is clear
    have hall := (alloc_null_iff hinit (by decide) (by norm_num) hfree hs hsix).1.1 hnull 4096
    rw [hmin] at hall
    obtain ⟨x, h1, h2⟩ := (hmeets _ _).1 (hall ⟨by omega, by simp [hbase], by
      rw [hbase, hpool]
      decide⟩)
    have h3 := h1.1
    have h4 := h2.2
    norm_num at h4
    omega

/-! ## The free lists depend only on what is outstanding -/

namespace RunInv

variable {s t : PoolState}

/-- A listed block is a window clear of outstanding blocks. -/
theorem window_of_listed (h : RunInv s) {j a : ℕ} (ha : a ∈ s.mp.avail j) :
    Window s.mp a j ∧ ¬ MeetsOutstanding s a j := by
  have hmem := h.inv.tile_of_mem ha
  have hle := (h.inv.listed j a ha).2.2.1
  have hend := h.inv.tiling.off_add_le hmem
  have hal := h.inv.tiling.aligned _ hmem
  simp only [blk, Block.Aligned] at hend hal
  refine ⟨⟨hle, hal, by omega⟩, ?_⟩
  rintro ⟨p, hp, x, hpx, hax⟩
  have hpm : blk s.mp p.1 (effOrder s.mp p.2) ∈ 0 + outBlocks s.mp s.out := by
    rw [zero_add]
    exact Multiset.mem_map_of_mem _ (Multiset.mem_coe.2 hp)
  have hple := (h.mem_out p hp).1
  obtain ⟨V, hV⟩ := Multiset.exists_cons_of_mem hpm
  have htil := h.inv.tiling
  rw [hV, Multiset.cons_add] at htil
  unfold InBlock at hpx hax
  refine htil.not_covers_of_cons (Multiset.mem_add.2 (.inr (h.inv.mem_free_of_mem ha)))
    (x := x - s.mp.baseAddr) ⟨?_, ?_⟩ ⟨?_, ?_⟩ <;> simp only [blk, effOrder_eq_max] <;> omega

/-- Where the same blocks are outstanding, the same blocks are listed: each listed block lies in
one of the other state, which lies in one of the first. -/
theorem mem_avail_of_outstanding (hs : RunInv s) (ht : RunInv t) (hshape : SameShape s.mp t.mp)
    (hout : ∀ b, b ∈ s.out.map (fun p => (p.1, max p.2 s.mp.minOrder)) ↔
      b ∈ t.out.map fun p => (p.1, max p.2 s.mp.minOrder)) {j a : ℕ}
    (ha : a ∈ s.mp.avail j) : a ∈ t.mp.avail j := by
  have hmeets : ∀ w k, MeetsOutstanding s w k ↔ MeetsOutstanding t w k := by
    intro w k
    have key : ∀ out : List (ℕ × ℕ), (∃ p ∈ out, ∃ x, InBlock p.1 (max p.2 s.mp.minOrder) x ∧
        InBlock w k x) ↔ ∃ b ∈ out.map (fun p => (p.1, max p.2 s.mp.minOrder)),
          ∃ x, InBlock b.1 b.2 x ∧ InBlock w k x := fun out => by simp
    unfold MeetsOutstanding
    rw [hshape.min, key, key]
    simp only [hout]
  have hwin : ∀ w k, Window s.mp w k ↔ Window t.mp w k := by
    intro w k
    unfold Window
    rw [hshape.base, hshape.pool]
  obtain ⟨hw, hclear⟩ := hs.window_of_listed ha
  obtain ⟨i, b, hb, hji, hba, hab⟩ := ht.exists_listed_of_window ((hwin a j).1 hw)
    fun hm => hclear ((hmeets a j).2 hm)
  obtain ⟨hw', hclear'⟩ := ht.window_of_listed hb
  obtain ⟨n, c, hc, hin, hcb, hbc⟩ := hs.exists_listed_of_window ((hwin b i).2 hw')
    fun hm => hclear' ((hmeets b i).1 hm)
  -- the outer two are the same tile
  have hle := (hs.inv.listed j a ha).2.2.1
  have hlec := (hs.inv.listed n c hc).2.2.1
  have hposj := Nat.two_pow_pos j
  have heq : blk s.mp a j = blk s.mp c n :=
    hs.inv.tiling.eq_of_covers (hs.inv.tile_of_mem ha) (hs.inv.tile_of_mem hc)
      (x := a - s.mp.baseAddr) ⟨by simp [blk], by simp only [blk]; omega⟩
      ⟨by simp only [blk]; omega, by simp only [blk]; omega⟩
  simp only [blk, Block.mk.injEq] at heq
  obtain rfl : j = i := by omega
  obtain rfl : a = b := by omega
  exact hb

/-- One outstanding block is freed. -/
theorem free (h : RunInv s) {p : ℕ × ℕ} (hp : p ∈ s.out) :
    ∃ m mp, buddyFree s.mem s.mp p.1 p.2 = .ok (m, mp) ∧ RunInv ⟨m, mp, s.out.erase p⟩ ∧
      SameShape s.mp mp := by
  obtain ⟨⟨m, mp⟩, hrun⟩ := h.neverStops.2 p hp
  obtain ⟨hinv, hshape⟩ := h.step (.free hp hrun)
  exact ⟨m, mp, hrun, hinv, hshape⟩

/-- Two outstanding blocks are freed, in one order and in the other. -/
theorem free_free (h : RunInv s) {p q : ℕ × ℕ} (hp : p ∈ s.out) (hq : q ∈ s.out.erase p) :
    ∃ m mp m' mp', buddyFree s.mem s.mp p.1 p.2 = .ok (m, mp) ∧
      buddyFree m mp q.1 q.2 = .ok (m', mp') ∧
      RunInv ⟨m', mp', (s.out.erase p).erase q⟩ ∧ SameShape s.mp mp' := by
  obtain ⟨m, mp, hrun, hinv, hshape⟩ := h.free hp
  obtain ⟨m', mp', hrun', hinv', hshape'⟩ := hinv.free hq
  exact ⟨m, mp, m', mp', hrun, hrun', hinv', hshape.trans hshape'⟩

/-- With nothing outstanding the pool is one free block. -/
theorem mem_avail_of_empty (h : RunInv s) (hout : s.out = []) {j a : ℕ} :
    a ∈ s.mp.avail j ↔ j = s.mp.poolOrder ∧ a = s.mp.baseAddr := by
  have hwin : Window s.mp s.mp.baseAddr s.mp.poolOrder :=
    ⟨le_refl _, by simp, le_refl _⟩
  obtain ⟨i, b, hb, hi, hba, hab⟩ := h.exists_listed_of_window hwin (by
    rintro ⟨p, hp, -⟩
    rw [hout] at hp
    exact List.not_mem_nil hp)
  have hb1 := h.inv.listed i b hb
  obtain rfl : i = s.mp.poolOrder := by omega
  obtain rfl : b = s.mp.baseAddr := by omega
  constructor
  · intro ha
    obtain ⟨-, -, hle, -, -⟩ := h.inv.listed j a ha
    have hend := h.inv.tiling.off_add_le (h.inv.tile_of_mem ha)
    have hpos := Nat.two_pow_pos j
    simp only [blk] at hend
    have heq := h.inv.tiling.eq_of_covers (h.inv.tile_of_mem ha) (h.inv.tile_of_mem hb)
      (x := a - s.mp.baseAddr) ⟨by simp [blk], by simp only [blk]; omega⟩
      ⟨by simp only [blk]; omega, by simp only [blk]; omega⟩
    simp only [blk, Block.mk.injEq] at heq
    exact ⟨heq.2, by omega⟩
  · rintro ⟨rfl, rfl⟩
    exact hb

end RunInv

/-- **The free lists depend only on what is outstanding.** Runs on pools with the same base and
orders that end with the same outstanding blocks end with the same blocks on every free list;
frees commute; and with everything freed the pool is one block again. -/
theorem avail_determined {base pool min min' : ℕ} {mp₀ mp₀' mp₁ mp₁' : BuddyMempool}
    {m₀ m₀' m₁ m₁' : Mem} (hinit : buddyInit base pool min = some mp₀)
    (hinit' : buddyInit base pool min' = some mp₀') (hmin : mp₀'.minOrder = mp₀.minOrder)
    (hbase : base ≠ 0) (hspace : base + 2 ^ pool ≤ 2 ^ 64)
    (hfree : buddyFree m₀ mp₀ base pool = .ok (m₁, mp₁))
    (hfree' : buddyFree m₀' mp₀' base pool = .ok (m₁', mp₁')) {s t : PoolState}
    (hs : Relation.ReflTransGen PoolStep ⟨m₁, mp₁, []⟩ s)
    (ht : Relation.ReflTransGen PoolStep ⟨m₁', mp₁', []⟩ t) :
    ((∀ b, b ∈ s.out.map (fun p => (p.1, max p.2 mp₀.minOrder)) ↔
        b ∈ t.out.map fun p => (p.1, max p.2 mp₀.minOrder)) →
      ∀ j a, a ∈ s.mp.avail j ↔ a ∈ t.mp.avail j) ∧
    (∀ p ∈ s.out, ∀ q ∈ s.out.erase p, ∃ m mp m' mp' n np n' np',
      buddyFree s.mem s.mp p.1 p.2 = .ok (m, mp) ∧ buddyFree m mp q.1 q.2 = .ok (m', mp') ∧
      buddyFree s.mem s.mp q.1 q.2 = .ok (n, np) ∧ buddyFree n np p.1 p.2 = .ok (n', np') ∧
      ∀ j a, a ∈ mp'.avail j ↔ a ∈ np'.avail j) ∧
    (s.out = [] → ∀ j a, a ∈ s.mp.avail j ↔ j = pool ∧ a = base) := by
  obtain ⟨_, _, hrun, hinv, hsh, -⟩ := start_spec m₀ hinit hbase hspace
  rw [hfree] at hrun
  cases hrun
  obtain ⟨_, _, hrun, hinv', hsh', -⟩ := start_spec m₀' hinit' hbase hspace
  rw [hfree'] at hrun
  cases hrun
  obtain ⟨hgeom, hb, hp, -, -⟩ := geometry_of_init hinit hbase hspace
  obtain ⟨hgeom', hb', hp', -, -⟩ := geometry_of_init hinit' hbase hspace
  -- both runs keep the invariant of their pools
  obtain ⟨hs', hshs⟩ := runInv_of_reaches hinv hs
  obtain ⟨ht', hsht⟩ := runInv_of_reaches hinv' ht
  have hs₀ := hsh.trans hshs
  have ht₀ := hsh'.trans hsht
  refine ⟨fun hout j a => ?_, fun p hp q hq => ?_, fun hout j a => ?_⟩
  · have hshape : SameShape s.mp t.mp := by
      refine ⟨?_, ?_, ?_, ?_⟩
      · rw [ht₀.base, hs₀.base, hb, hb']
      · rw [ht₀.pool, hs₀.pool, hp, hp']
      · rw [ht₀.min, hs₀.min, hmin]
      · rw [ht₀.num, hs₀.num, hgeom.numBlocks_eq, hgeom'.numBlocks_eq, hp, hp', hmin]
    rw [← hs₀.min] at hout
    refine ⟨hs'.mem_avail_of_outstanding ht' hshape hout,
      ht'.mem_avail_of_outstanding hs' hshape.symm ?_⟩
    intro b
    rw [hshape.min]
    exact (hout b).symm
  · obtain ⟨m, mp, m', mp', h1, h2, h3, h4⟩ := hs'.free_free hp hq
    have hq' : q ∈ s.out := List.mem_of_mem_erase hq
    have hp' : p ∈ s.out.erase q := by
      by_cases hpq : p = q
      · subst hpq
        exact hq
      · exact (List.mem_erase_of_ne hpq).2 hp
    obtain ⟨n, np, n', np', g1, g2, g3, g4⟩ := hs'.free_free hq' hp'
    refine ⟨m, mp, m', mp', n, np, n', np', h1, h2, g1, g2, fun j a => ?_⟩
    have hshape : SameShape mp' np' := h4.symm.trans g4
    -- the same blocks are outstanding after either order
    have hcomm : (s.out.erase p).erase q = (s.out.erase q).erase p := List.erase_comm p q
    exact ⟨h3.mem_avail_of_outstanding g3 hshape (fun b => by simp only [hcomm]),
      g3.mem_avail_of_outstanding h3 hshape.symm (fun b => by simp only [hcomm])⟩
  · rw [hs'.mem_avail_of_empty hout, hs₀.pool, hs₀.base, hp, hb]

/-- Three of four blocks are freed, from the lowest up and from the highest down: the lists end up
the same. And the lowest two are freed in one order and in the other. -/
theorem avail_determined_of_three_quarters :
    ∃ s t u : PoolState, s.out = [(4192, 5)] ∧ t.out = [(4192, 5)] ∧
      (∀ j a, a ∈ s.mp.avail j ↔ a ∈ t.mp.avail j) ∧
      ∃ m mp m' mp' n np n' np',
        buddyFree u.mem u.mp 4096 5 = .ok (m, mp) ∧ buddyFree m mp 4128 5 = .ok (m', mp') ∧
        buddyFree u.mem u.mp 4128 5 = .ok (n, np) ∧ buddyFree n np 4096 5 = .ok (n', np') ∧
        ∀ j a, a ∈ mp'.avail j ↔ a ∈ np'.avail j := by
  obtain ⟨mp₀, m₁, mp₁, u, s, t, hinit, hfree, hu, hs, ht, huout, hsout, htout, -⟩ :=
    three_quarters_freed
  have h := avail_determined hinit hinit rfl (by decide) (by norm_num) hfree hfree hs ht
  have h' := avail_determined hinit hinit rfl (by decide) (by norm_num) hfree hfree hu hu
  refine ⟨s, t, u, hsout, htout, h.1 fun b => by rw [hsout, htout], ?_⟩
  exact h'.2.1 (4096, 5) (by simp [huout]) (4128, 5) (by simp [huout])

end Buddy

end Petmem
