import Petmem.Library.ByteMemory
import Mathlib.Data.Nat.Bitwise
import Mathlib.Tactic.NormNum

/-!
# Kernel constants and machine arithmetic

The constants of `petmem.h` and of the x86-64 kernel the module is built for, the direct
map, and the C integer conversions the sources rely on. Addresses and `unsigned long`
values are natural numbers with an explicit `% 2^64` where the C expression can wrap.
-/

namespace Petmem

open ByteMemory

/-- Why an operation gives no result: a `BUG_ON` fires, the clock's `while(1)` never
returns, a list traversal starts at a node that is in no list, a list operation is applied
to memory that is not a list node, `alloc_map` is accessed past its end, or the process is
killed because an access of its is refused. -/
inductive Stop
  | bugOn
  | diverges
  | danglingHand
  | listCorrupted
  | outOfBounds
  | segv
deriving DecidableEq, Repr

/-- A sequence of operations gives a result when each of them does. -/
theorem bind_eq_ok {α β : Type} {x : Except Stop α} {f : α → Except Stop β} {b : β} :
    (x >>= f) = .ok b ↔ ∃ a, x = .ok a ∧ f a = .ok b := by
  cases x with
  | error e => simp [bind, Except.bind]
  | ok a => simp [bind, Except.bind]

/-- A sequence of operations fails where the first of them to fail does. -/
theorem bind_eq_error {α β : Type} {x : Except Stop α} {f : α → Except Stop β} {e : Stop} :
    (x >>= f) = .error e ↔ x = .error e ∨ ∃ a, x = .ok a ∧ f a = .error e := by
  cases x with
  | error e' => simp [bind, Except.bind]
  | ok a => simp [bind, Except.bind]

/-- A result that is there is one of a run that did not stop. -/
theorem ok_of_toOption {α : Type} {x : Except Stop α} {y : α} (h : x.toOption = some y) :
    x = .ok y := by
  cases x with
  | error e => cases h
  | ok z => rw [Option.some.inj h]

/-! ## Unsigned and signed C arithmetic -/

/-- `a - b` on `unsigned long`. -/
def sub64 (a b : ℕ) : ℕ := (a + (2 ^ 64 - b % 2 ^ 64)) % 2 ^ 64

/-- `1UL << n`. -/
def shl64 (n : ℕ) : ℕ := 2 ^ n % 2 ^ 64

/-- `fls`: the position of the highest set bit, counted from 1; 0 for 0. -/
def fls (n : ℕ) : ℕ := if n = 0 then 0 else Nat.log2 n + 1

/-- `roundup_pow_of_two`. -/
def roundupPowOfTwo (n : ℕ) : ℕ := 2 ^ fls (n - 1)

/-- A C `int` result (`x` modulo `2^32`, two's complement) converted to a 64-bit unsigned
value: the sign bit is copied into the upper half. -/
@[irreducible] def sext32 (x : ℕ) : ℕ :=
  if x % 2 ^ 32 < 2 ^ 31 then x % 2 ^ 32 else x % 2 ^ 32 + (2 ^ 64 - 2 ^ 32)

/-! ## Pages and the direct map -/

/-- `PAGE_SHIFT`. -/
def pageShift : ℕ := 12

/-- `PAGE_SIZE`. -/
def pageSize : ℕ := 4096

/-- `PAGE_OFFSET`: where the kernel maps physical address 0. -/
def pageOffset : ℕ := 0xffff880000000000

/-- Physical addresses the direct map covers lie below this bound (64 TB). -/
def physLimit : ℕ := 2 ^ 46

/-- `__va`. -/
@[irreducible] def va (x : ℕ) : ℕ := (x + pageOffset) % 2 ^ 64

/-- `__pa`. -/
@[irreducible] def pa (v : ℕ) : ℕ := sub64 v pageOffset

/-- `PETMEM_REGION_START`. -/
def petmemRegionStart : ℕ := 0x1000000000

/-- `PETMEM_REGION_END`. -/
def petmemRegionEnd : ℕ := 0x3000000000

/-! ## Facts about the conversions -/

theorem sub64_of_le {a b : ℕ} (h : b ≤ a) (ha : a < 2 ^ 64) : sub64 a b = a - b := by
  unfold sub64
  omega

theorem shl64_of_lt {n : ℕ} (h : n < 64) : shl64 n = 2 ^ n :=
  Nat.mod_eq_of_lt (Nat.pow_lt_pow_right (by norm_num) h)

theorem sext32_of_lt {x : ℕ} (h : x < 2 ^ 31) : sext32 x = x := by
  unfold sext32
  rw [Nat.mod_eq_of_lt (by omega), if_pos h]

theorem va_lt (x : ℕ) : va x < 2 ^ 64 := by
  unfold va
  exact Nat.mod_lt _ (by norm_num)

theorem va_of_lt {x : ℕ} (h : x < physLimit) : va x = x + pageOffset := by
  unfold va physLimit pageOffset at *
  omega

theorem pa_va {x : ℕ} (h : x < 2 ^ 64) : pa (va x) = x := by
  unfold pa sub64 va pageOffset
  omega

end Petmem
