import Petmem.Swap
import Mathlib.Tactic.Common

/-!
# Processes that share the swap file

Every process that opens the device gets a `swap_space` of its own: the bitmap is read from the
file once, in `swap_init`, and never written back. The pages of all processes go to the same
file. `SwapRun` interleaves the calls of any number of processes, and `stored` reads off a
history which pages a process has in which slots.

A page comes back as it was written as long as no process takes a slot in which another one has a
page (`SlotApart`); the bitmaps alone do not keep the processes apart.
-/

namespace Petmem
namespace Swap

open ByteMemory

variable {P : Type} [DecidableEq P]

/-- The swap file, and the swap space of each process that has the device open. -/
structure Device (P : Type) where
  file : SwapFile
  space : P → Option SwapSpace

/-- What happened: a process opened or closed the device, swapped a page out to a slot, found no
free slot for it, or swapped a page in. -/
inductive SwapEvent (P : Type)
  | init (p : P)
  | free (p : P)
  | out (p : P) (page : ℕ → Byte) (index : ℕ)
  | full (p : P) (page : ℕ → Byte)
  | swapIn (p : P) (index : ℕ) (page : ℕ → Byte)

/-- One call of a process; `clear_up_memory` calls `swap_out_page` with `index = 0`. -/
inductive SwapStep (d : Device P) : SwapEvent P → Device P → Prop
  | init {p : P} : d.space p = none →
      SwapStep d (.init p) { d with space := Function.update d.space p (some (swapInit d.file)) }
  | free {p : P} : SwapStep d (.free p) { d with space := Function.update d.space p none }
  | out {p : P} {page : ℕ → Byte} {swap swap' : SwapSpace} {file' : SwapFile} {i : ℕ} :
      d.space p = some swap → swapOutPage 0 page swap d.file = .ok (i, swap', file') →
      checkBitmap swap i = .ok 0 →
      SwapStep d (.out p page i) ⟨file', Function.update d.space p (some swap')⟩
  | full {p : P} {page : ℕ → Byte} {swap swap' : SwapSpace} {file' : SwapFile} {i : ℕ} :
      d.space p = some swap → swapOutPage 0 page swap d.file = .ok (i, swap', file') →
      checkBitmap swap i ≠ .ok 0 →
      SwapStep d (.full p page) ⟨file', Function.update d.space p (some swap')⟩
  | swapIn {p : P} {swap swap' : SwapSpace} {i : ℕ} {page : ℕ → Byte} :
      d.space p = some swap → swapInPage i swap d.file = .ok (page, swap') →
      SwapStep d (.swapIn p i page) { d with space := Function.update d.space p (some swap') }

/-- The page that process `q` has in slot `j` after a history, most recent event first. -/
def stored : List (SwapEvent P) → P → ℕ → Option (ℕ → Byte)
  | [], _, _ => none
  | .init p :: es, q, j => if q = p then none else stored es q j
  | .free p :: es, q, j => if q = p then none else stored es q j
  | .out p page i :: es, q, j => if q = p ∧ j = i then some page else stored es q j
  | .full _ _ :: es, q, j => stored es q j
  | .swapIn p i _ :: es, q, j => if q = p ∧ j = i then none else stored es q j

/-- The first free slot of a bitmap. -/
def IsFirstFree (swap : SwapSpace) (i : ℕ) : Prop :=
  checkBitmap swap i = .ok 0 ∧ ∀ j < i, checkBitmap swap j ≠ .ok 0

/-- The slot that a page would be swapped out to has its offset in 31 bits, and no other process
has a page in it. -/
def SlotApart (es : List (SwapEvent P)) (d : Device P) : SwapEvent P → Prop
  | .out p _ _ => ∀ swap, d.space p = some swap → ∀ i, IsFirstFree swap i →
      i < 2 ^ 19 ∧ ∀ q, q ≠ p → stored es q i = none
  | _ => True

/-- The run with the history `es` has reached `d`; no process had the device open before. -/
inductive SwapRun (ok : List (SwapEvent P) → Device P → SwapEvent P → Prop) (file : SwapFile) :
    List (SwapEvent P) → Device P → Prop
  | start : SwapRun ok file [] ⟨file, fun _ => none⟩
  | step {es : List (SwapEvent P)} {d d' : Device P} {ev : SwapEvent P} : SwapRun ok file es d →
      ok es d ev → SwapStep d ev d' → SwapRun ok file (ev :: es) d'

/-! ## Single calls -/

theorem inMap_of_free {swap : SwapSpace} {i : ℕ} (h : checkBitmap swap i = .ok 0) :
    InMap swap i ∧ slotBit swap i = false := by
  have hlt : i < swap.size := by
    by_contra hge
    unfold checkBitmap at h
    rw [if_neg hge] at h
    cases h
  have hmap := inMap_of_checkBitmap hlt h
  refine ⟨hmap, ?_⟩
  rw [checkBitmap_of_inMap hmap] at h
  cases hb : slotBit swap i with
  | false => rfl
  | true =>
    rw [hb] at h
    cases h

theorem checkBitmap_of_free {swap : SwapSpace} {i : ℕ} (h : InMap swap i)
    (hb : slotBit swap i = false) : checkBitmap swap i = .ok 0 := by
  rw [checkBitmap_of_inMap h, hb]
  rfl

/-- A call that found a slot: it is the first free one, and the page is written there. -/
theorem swapOutPage_taken {page : ℕ → Byte} {swap swap' : SwapSpace} {file file' : SwapFile}
    {i : ℕ} (h : swapOutPage 0 page swap file = .ok (i, swap', file'))
    (hfree : checkBitmap swap i = .ok 0) :
    IsFirstFree swap i ∧ SetSlot swap i true swap' ∧
      file' = fileWrite file page 4096 (sext32 (i * 4096)) := by
  obtain ⟨hmap, hbit⟩ := inMap_of_free hfree
  generalize hres : (i, swap', file') = res at h
  cases swapOutPage_cases h with
  | @taken s swap₁ hin hlt hb hused hset =>
    obtain ⟨rfl, hrest⟩ := Prod.mk.inj hres
    obtain ⟨rfl, rfl⟩ := Prod.mk.inj hrest
    refine ⟨⟨hfree, fun j hj hj0 => ?_⟩, hset, rfl⟩
    have := (inMap_of_free hj0).2
    rw [hused j hj] at this
    cases this
  | full hused =>
    obtain ⟨rfl, -⟩ := Prod.mk.inj hres
    have hlt := hmap.lt_size
    -- a full bitmap leaves the index 0, and slot 0 is in use then
    rw [hused 0 (by omega)] at hbit
    cases hbit

/-- A call that found none changes nothing. -/
theorem swapOutPage_full {page : ℕ → Byte} {swap swap' : SwapSpace} {file file' : SwapFile}
    {i : ℕ} (h : swapOutPage 0 page swap file = .ok (i, swap', file'))
    (hfree : checkBitmap swap i ≠ .ok 0) : swap' = swap ∧ file' = file := by
  generalize hres : (i, swap', file') = res at h
  cases swapOutPage_cases h with
  | @taken s swap₁ hin hlt hb hused hset =>
    obtain ⟨rfl, -⟩ := Prod.mk.inj hres
    exact absurd (checkBitmap_of_free hin hb) hfree
  | full hused => exact Prod.mk.inj (Prod.mk.inj hres).2

/-! ## Pages stay in their slots -/

/-- The page of process `p` in slot `i` is there: its bit is set in the bitmap of `p`, and the
file has its bytes. -/
structure Present (d : Device P) (p : P) (i : ℕ) (page : ℕ → Byte) : Prop where
  lt : i < 2 ^ 19
  used : ∃ swap, d.space p = some swap ∧ InMap swap i ∧ slotBit swap i = true
  bytes : ∀ n < 4096, slotBytes d.file i n = page n

/-- Another process's swap space does not matter. -/
theorem Present.of_ne {d : Device P} {p q : P} {i : ℕ} {page : ℕ → Byte} (h : Present d p i page)
    (hne : p ≠ q) (space : Option SwapSpace) :
    Present { d with space := Function.update d.space q space } p i page := by
  refine ⟨h.lt, ?_, h.bytes⟩
  simp only [Function.update_of_ne hne]
  exact h.used

/-- A change of another bit of the process's own bitmap. -/
theorem Present.of_setSlot {d : Device P} {p : P} {i j : ℕ} {page : ℕ → Byte} {v : Bool}
    {swap swap' : SwapSpace} (h : Present d p i page) (hp : d.space p = some swap)
    (hset : SetSlot swap j v swap') (hij : i ≠ j) :
    Present { d with space := Function.update d.space p (some swap') } p i page := by
  obtain ⟨swap₁, hp₁, hmap, hbit⟩ := h.used
  obtain rfl : swap = swap₁ := Option.some.inj (hp.symm.trans hp₁)
  refine ⟨h.lt, ⟨swap', ?_, hset.inMap hmap, ?_⟩, h.bytes⟩
  · simp
  · rw [hset.bit, if_neg hij, hbit]

omit [DecidableEq P] in
/-- A page written to another slot. -/
theorem Present.of_write {d : Device P} {p : P} {i j : ℕ} {page page' : ℕ → Byte}
    (h : Present d p i page) (hj : j < 2 ^ 19) (hij : i ≠ j) :
    Present { d with file := fileWrite d.file page' 4096 (j * 4096) } p i page :=
  ⟨h.lt, h.used, fun n hn => (slotBytes_fileWrite_of_ne hj hij hn).trans (h.bytes n hn)⟩

/-- `put_value` either stops, or sets one bit, or is out of bounds and does nothing. -/
theorem putValue_cases {swap swap' : SwapSpace} {i : ℕ} {v : Bool}
    (h : putValue swap i v = .ok swap') : swap' = swap ∨ SetSlot swap i v swap' := by
  by_cases hlt : i < swap.size
  · have hmap : i / 8 < swap.allocMap.length := by
      by_contra hge
      unfold putValue at h
      rw [if_pos hlt, show i >>> 3 = i / 8 from Nat.shiftRight_eq_div_pow i 3,
        List.getElem?_eq_none (by omega)] at h
      cases h
    obtain ⟨swap₁, hrun, hset⟩ := putValue_spec v ⟨hlt, hmap⟩
    rw [h] at hrun
    exact .inr (Except.ok.inj hrun ▸ hset)
  · unfold putValue at h
    rw [if_neg hlt] at h
    exact .inl (Except.ok.inj h).symm

/-- One call keeps the pages of all processes in place. -/
theorem step_present {es : List (SwapEvent P)} {d d' : Device P} {ev : SwapEvent P}
    (hinv : ∀ p i page, stored es p i = some page → Present d p i page)
    (hok : SlotApart es d ev) (hstep : SwapStep d ev d') :
    ∀ p i page, stored (ev :: es) p i = some page → Present d' p i page := by
  intro q j page hq
  cases hstep with
  | @init p hnone =>
    simp only [stored] at hq
    split at hq
    · cases hq
    · exact (hinv q j page hq).of_ne ‹_› _
  | @free p =>
    simp only [stored] at hq
    split at hq
    · cases hq
    · exact (hinv q j page hq).of_ne ‹_› _
  | @out p page' swap swap' file' i hp hrun hfree =>
    obtain ⟨hfirst, hset, rfl⟩ := swapOutPage_taken hrun hfree
    obtain ⟨hlt, hothers⟩ := hok swap hp i hfirst
    obtain ⟨hmap, hbit⟩ := inMap_of_free hfree
    rw [sext32_of_lt (by omega)]
    simp only [stored] at hq
    split at hq
    · rename_i heq
      obtain ⟨rfl, rfl⟩ := heq
      obtain rfl := Option.some.inj hq
      -- the page that was just written
      refine ⟨hlt, ⟨swap', by simp, hset.inMap hmap, by rw [hset.bit, if_pos rfl]⟩,
        fun n hn => slotBytes_fileWrite_same hlt hn⟩
    · rename_i hne
      have hold := hinv q j page hq
      by_cases hqp : q = p
      · subst hqp
        -- the process's own pages are in other slots
        have hji : j ≠ i := fun hji => hne ⟨rfl, hji⟩
        exact (hold.of_setSlot hp hset hji).of_write hlt hji
      · -- the condition keeps the slots of the two processes apart
        have hji : j ≠ i := by
          rintro rfl
          rw [hothers q hqp] at hq
          cases hq
        exact (hold.of_ne hqp (some swap')).of_write hlt hji
  | @full p page' swap swap' file' i hp hrun hused =>
    obtain ⟨rfl, rfl⟩ := swapOutPage_full hrun hused
    rw [← hp, Function.update_eq_self]
    exact hinv q j page hq
  | @swapIn p swap swap' i page' hp hrun =>
    simp only [stored] at hq
    split at hq
    · cases hq
    · rename_i hne
      have hold := hinv q j page hq
      by_cases hqp : q = p
      · subst hqp
        unfold swapInPage at hrun
        obtain ⟨swap₁, hput, hrun⟩ := bind_eq_ok.1 hrun
        obtain ⟨-, rfl⟩ := Prod.mk.inj (Except.ok.inj hrun)
        rcases putValue_cases hput with rfl | hset
        · rw [← hp, Function.update_eq_self]
          exact hold
        · exact hold.of_setSlot hp hset fun hji => hne ⟨rfl, hji⟩
      · exact hold.of_ne hqp _

variable {file : SwapFile} {es : List (SwapEvent P)} {d : Device P}

theorem run_present (h : SwapRun SlotApart file es d) :
    ∀ p i page, stored es p i = some page → Present d p i page := by
  induction h with
  | start =>
    intro p i page hp
    cases hp
  | step _ hok hstep ih => exact step_present ih hok hstep

/-- In every run in which no process takes a slot that holds another's page, a page that was
swapped out comes back with its bytes. -/
theorem swap_isolation (h : SwapRun SlotApart file es d) {p : P} {i : ℕ} {page : ℕ → Byte}
    (hp : stored es p i = some page) :
    ∃ swap swap' got, d.space p = some swap ∧ swapInPage i swap d.file = .ok (got, swap') ∧
      ∀ n < 4096, got n = page n := by
  obtain ⟨hlt, ⟨swap, hspace, hmap, -⟩, hbytes⟩ := run_present h p i page hp
  obtain ⟨swap', hin, -⟩ := swapInPage_spec d.file hmap
  refine ⟨swap, swap', _, hspace, hin, fun n hn => ?_⟩
  rw [fileRead_slot d.file hlt]
  exact hbytes n hn

/-- A swap file with eight empty slots. -/
def smallFile : SwapFile := ⟨fun _ => 0, 8 * 4096⟩

theorem IsFirstFree.eq {swap : SwapSpace} {i j : ℕ} (hi : IsFirstFree swap i)
    (hj : IsFirstFree swap j) : i = j := by
  rcases Nat.lt_trichotomy i j with hlt | heq | hlt
  · exact absurd hi.1 (hj.2 i hlt)
  · exact heq
  · exact absurd hj.1 (hi.2 j hlt)

theorem slotApart_out {p : P} {page : ℕ → Byte} {swap : SwapSpace} {i : ℕ}
    (hp : d.space p = some swap) (hi : IsFirstFree swap i) (hlt : i < 2 ^ 19)
    (hothers : ∀ q, q ≠ p → stored es q i = none) : SlotApart es d (.out p page i) := by
  intro swap₁ hp₁ j hj
  obtain rfl : swap = swap₁ := Option.some.inj (hp.symm.trans hp₁)
  obtain rfl := hi.eq hj
  exact ⟨hlt, hothers⟩

/-- The first page that is swapped out says in its first byte that slot 0 is in use; a process
that opens the device after that takes slot 1. -/
theorem swap_isolation_of_marked_page :
    ∃ es d, SwapRun (P := Bool) SlotApart smallFile es d ∧
      stored es true 0 = some (fun _ => 1) ∧ stored es false 1 = some (fun _ => 2) ∧
      ∃ swap swap' got, d.space true = some swap ∧ swapInPage 0 swap d.file = .ok (got, swap') ∧
        ∀ n < 4096, got n = 1 := by
  have h1 : SwapRun SlotApart smallFile [.init true] _ :=
    .step .start (show SlotApart _ _ (.init true) from trivial) (.init rfl)
  have h2 : SwapRun SlotApart smallFile [.out true (fun _ => 1) 0, .init true] _ :=
    .step h1 (slotApart_out rfl ⟨rfl, by omega⟩ (by omega) fun q _ => by simp [stored])
      (.out rfl (by with_unfolding_all rfl) rfl)
  have h3 : SwapRun SlotApart smallFile [.init false, .out true (fun _ => 1) 0, .init true] _ :=
    .step h2 (show SlotApart _ _ (.init false) from trivial) (.init rfl)
  have hfirst : IsFirstFree
      (swapInit (fileWrite smallFile (fun _ => 1) 4096 (sext32 (0 * 4096)))) 1 := by
    refine ⟨by with_unfolding_all rfl, fun j hj => ?_⟩
    obtain rfl : j = 0 := by omega
    decide +kernel
  have h4 : SwapRun SlotApart smallFile
      [.out false (fun _ => 2) 1, .init false, .out true (fun _ => 1) 0, .init true] _ :=
    .step h3 (slotApart_out rfl hfirst (by omega) fun q hq => by cases q <;> simp_all [stored])
      (.out rfl (by with_unfolding_all rfl) hfirst.1)
  exact ⟨_, _, h4, rfl, rfl, swap_isolation h4 (p := true) (i := 0) rfl⟩

/-- Two processes open the device, and both swap a page out to slot 0. The first one gets the
page of the second back. -/
theorem swap_not_isolated :
    ∃ es d, SwapRun (P := Bool) (fun _ _ _ => True) smallFile es d ∧
      stored es true 0 = some (fun _ => 1) ∧
      ∃ swap swap' got, d.space true = some swap ∧ swapInPage 0 swap d.file = .ok (got, swap') ∧
        got 0 = 2 := by
  have h1 : SwapRun (fun _ _ _ => True) smallFile [.init true] _ :=
    .step .start trivial (.init rfl)
  have h2 : SwapRun (fun _ _ _ => True) smallFile [.init false, .init true] _ :=
    .step h1 trivial (.init rfl)
  have h3 : SwapRun (fun _ _ _ => True) smallFile
      [.out true (fun _ => 1) 0, .init false, .init true] _ :=
    .step h2 trivial (.out rfl (by with_unfolding_all rfl) rfl)
  have h4 : SwapRun (fun _ _ _ => True) smallFile
      [.out false (fun _ => 2) 0, .out true (fun _ => 1) 0, .init false, .init true] _ :=
    .step h3 trivial (.out rfl (by with_unfolding_all rfl) rfl)
  refine ⟨_, _, h4, rfl, _, _, _, rfl, rfl, ?_⟩
  with_unfolding_all rfl

end Swap

end Petmem
