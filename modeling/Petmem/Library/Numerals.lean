import Mathlib.Data.Nat.Notation
import Mathlib.Tactic.IntervalCases
import Mathlib.Tactic.NormNum

/-!
# Numerals

What the C library reads out of a text: `strtoll` skips blanks, takes a sign and a prefix, and
reads digits up to the first character that is none. What comes behind does not matter.
-/

namespace Numerals

variable {b n : ℕ} {text rest : List Char}

/-! ## Digits -/

/-- The value of a character as a digit. -/
def digitValue (c : Char) : ℕ :=
  if 48 ≤ c.toNat ∧ c.toNat ≤ 57 then c.toNat - 48
  else if 97 ≤ c.toNat ∧ c.toNat ≤ 122 then c.toNat - 87
  else if 65 ≤ c.toNat ∧ c.toNat ≤ 90 then c.toNat - 55
  else 36

/-- The digits in base `b` at the front of a text, behind the number `acc`. -/
def readDigits (b : ℕ) : ℕ → List Char → ℕ
  | acc, [] => acc
  | acc, c :: text =>
    if digitValue c < b then readDigits b (acc * b + digitValue c) text else acc

theorem digitValue_digitChar (h : n < 16) : digitValue (Nat.digitChar n) = n := by
  interval_cases n <;> rfl

theorem readDigits_cons_digit (hn : n < b) (hb : b ≤ 16) (acc : ℕ) :
    readDigits b acc (Nat.digitChar n :: text) = readDigits b (acc * b + n) text := by
  rw [readDigits, digitValue_digitChar (by omega), if_pos hn]

/-- Reading on behind a number that is written out. -/
theorem readDigits_toDigits (hb : 1 < b) (hb16 : b ≤ 16) (n : ℕ) :
    ∀ rest, readDigits b 0 (Nat.toDigits b n ++ rest) = readDigits b n rest := by
  induction n using Nat.strong_induction_on with
  | _ n ih =>
    intro rest
    rw [Nat.toDigits_eq_if hb]
    by_cases hlt : n < b
    · rw [if_pos hlt, List.singleton_append, readDigits_cons_digit hlt hb16, Nat.zero_mul,
        Nat.zero_add]
    · have hdiv : n / b < n := Nat.div_lt_self (by omega) hb
      -- the last digit is read behind the others
      rw [if_neg hlt, List.append_assoc, ih _ hdiv, List.singleton_append,
        readDigits_cons_digit (Nat.mod_lt n (by omega)) hb16, Nat.div_add_mod']

/-! ## The functions of the C library -/

/-- `isspace`. -/
def isSpace (c : Char) : Bool := c.toNat = 32 ∨ 9 ≤ c.toNat ∧ c.toNat ≤ 13

/-- The prefix that `strtoll` skips in base 16: `0x` in front of a digit. -/
def hasPrefix (text : List Char) : Bool :=
  ("0x".toList.isPrefixOf text ∨ "0X".toList.isPrefixOf text) ∧
    ((text.drop 2).head?.map digitValue).getD 36 < 16

/-- `strtoll`, for base 10 and 16. -/
def strtoll (base : ℕ) (text : List Char) : ℤ :=
  let text := text.dropWhile isSpace
  let sign := (text.head?.map Char.toNat).getD 0
  let text := if sign = 45 ∨ sign = 43 then text.tail else text
  let text := if base = 16 ∧ hasPrefix text then text.drop 2 else text
  let value : ℤ := if sign = 45 then -(readDigits base 0 text : ℤ) else readDigits base 0 text
  max (-2 ^ 63) (min (2 ^ 63 - 1) value)

/-- `atoll`. -/
def atoll (text : List Char) : ℤ := strtoll 10 text

/-- `atoi`: the value of `strtol` as an `int`. -/
def atoi (text : List Char) : ℤ := (BitVec.ofInt 32 (strtoll 10 text)).toInt

/-- What is written out is digits. -/
theorem mem_toDigits (hb : 1 < b) (hb16 : b ≤ 16) (n : ℕ) :
    ∀ c ∈ Nat.toDigits b n, ∃ d < 16, c = Nat.digitChar d := by
  induction n using Nat.strong_induction_on with
  | _ n ih =>
    intro c hc
    rw [Nat.toDigits_eq_if hb] at hc
    by_cases hlt : n < b
    · rw [if_pos hlt, List.mem_singleton] at hc
      exact ⟨n, by omega, hc⟩
    · have hmod := Nat.mod_lt n (show 0 < b by omega)
      rw [if_neg hlt, List.mem_append, List.mem_singleton] at hc
      rcases hc with hc | hc
      · exact ih _ (Nat.div_lt_self (by omega) hb) c hc
      · exact ⟨n % b, by omega, hc⟩

/-- A digit is no blank, no sign and no `x`. -/
theorem digitChar_cases : ∀ d < 16, isSpace (Nat.digitChar d) = false ∧
    (Nat.digitChar d).toNat ≠ 45 ∧ (Nat.digitChar d).toNat ≠ 43 ∧
    (Nat.digitChar d).toNat ≠ 120 ∧ (Nat.digitChar d).toNat ≠ 88 := by
  decide

theorem hasPrefix_of_second (h : ∀ c ∈ text.tail.head?, c.toNat ≠ 120 ∧ c.toNat ≠ 88) :
    hasPrefix text = false := by
  cases text with
  | nil => rfl
  | cons c text =>
    cases text with
    | nil => simp [hasPrefix]
    | cons d text =>
      have hd := h d rfl
      have hx : 'x' ≠ d := by
        rintro rfl
        exact hd.1 rfl
      have hX : 'X' ≠ d := by
        rintro rfl
        exact hd.2 rfl
      simp [hasPrefix, hx, hX]

/-- `strtoll` reads the number that is written out, up to the end of the text or a blank. -/
theorem strtoll_toDigits (hb : b = 10 ∨ b = 16) (hn : n < 2 ^ 63)
    (hrest : ∀ c ∈ rest.head?, isSpace c = true) :
    strtoll b (Nat.toDigits b n ++ rest) = n := by
  have hb1 : 1 < b := by omega
  have hb16 : b ≤ 16 := by omega
  have hdigit := mem_toDigits hb1 hb16 n
  have hread : readDigits b 0 (Nat.toDigits b n ++ rest) = n := by
    rw [readDigits_toDigits hb1 hb16]
    cases rest with
    | nil => rfl
    | cons c rest =>
      -- a blank is no digit
      have hc := hrest c rfl
      simp only [isSpace, decide_eq_true_eq] at hc
      have hvalue : digitValue c = 36 := by
        unfold digitValue
        rw [if_neg (by omega), if_neg (by omega), if_neg (by omega)]
      rw [readDigits, if_neg (by omega)]
  obtain ⟨c, cs, hcs⟩ := List.exists_cons_of_ne_nil (Nat.toDigits_ne_nil (b := b) (n := n))
  rw [hcs] at hdigit hread ⊢
  obtain ⟨d, hd, rfl⟩ := hdigit c List.mem_cons_self
  obtain ⟨hblank, hminus, hplus, -⟩ := digitChar_cases d hd
  have hprefix : hasPrefix (Nat.digitChar d :: cs ++ rest) = false := by
    refine hasPrefix_of_second fun c hc => ?_
    rw [List.cons_append, List.tail_cons] at hc
    cases cs with
    | cons c' cs =>
      obtain rfl : c' = c := Option.some.inj hc
      obtain ⟨d', hd', rfl⟩ := hdigit c' (by simp)
      exact (digitChar_cases d' hd').2.2.2
    | nil =>
      have hc := hrest c hc
      simp only [isSpace, decide_eq_true_eq] at hc
      omega
  rw [List.cons_append] at hread hprefix ⊢
  unfold strtoll
  rw [List.dropWhile_cons_of_neg (by rw [hblank]; decide)]
  simp only [List.head?_cons, Option.map_some, Option.getD_some, hminus, hplus, or_self, if_false,
    hprefix, Bool.false_eq_true, and_false, hread]
  omega

theorem atoi_toDigits (hn : n < 2 ^ 31) : atoi (Nat.toDigits 10 n) = n := by
  have hread : strtoll 10 (Nat.toDigits 10 n ++ []) = n :=
    strtoll_toDigits (.inl rfl) (by omega) (by simp)
  rw [List.append_nil] at hread
  unfold atoi
  rw [hread, BitVec.toInt_ofInt]
  exact Int.bmod_eq_of_le (by omega) (by omega)

end Numerals
