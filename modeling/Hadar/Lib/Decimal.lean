import Hadar.Lib.BigEndian
import Hadar.Lib.Lexicographic

/-!
# Decimal numbers

A number written in ASCII digits on a fixed width, and the number a string of digits denotes where
it stays below a limit. Reading gives back what was written, and on one width the byte-wise
lexicographic order is the order of the numbers written.
-/

set_option autoImplicit false

namespace Hadar.Lib

/-- The ASCII digit for `d`. -/
def digit (d : ℕ) : UInt8 := UInt8.ofNat (48 + d)

/-- What an ASCII digit stands for. -/
def digitValue (b : UInt8) : Option ℕ :=
  if 48 ≤ b.toNat ∧ b.toNat < 58 then some (b.toNat - 48) else none

/-- The lowest `w` decimal digits of `n`, zeros in front. -/
def toDecimal : ℕ → ℕ → List UInt8
  | 0, _ => []
  | w + 1, n => toDecimal w (n / 10) ++ [digit (n % 10)]

/-- Reads one digit more, where the number stays below the limit. -/
def pushDigit (limit acc : ℕ) (b : UInt8) : Option ℕ :=
  match digitValue b with
  | none => none
  | some d => if acc * 10 + d < limit then some (acc * 10 + d) else none

/-- The number that a string of digits denotes, if it is below the limit all along. -/
def ofDecimal (limit : ℕ) (digits : List UInt8) : Option ℕ := digits.foldlM (pushDigit limit) 0

/-! ## One digit -/

theorem toNat_digit {d : ℕ} (h : d < 10) : (digit d).toNat = 48 + d := by
  rw [digit, UInt8.toNat_ofNat']
  omega

theorem digitValue_digit {d : ℕ} (h : d < 10) : digitValue (digit d) = some d := by
  rw [digitValue, toNat_digit h, if_pos (by omega), Nat.add_sub_cancel_left]

/-- Digits are ordered as what they stand for. -/
theorem compare_digit {d e : ℕ} (hd : d < 10) (he : e < 10) :
    compare (digit d) (digit e) = compare d e := by
  rw [compare_uint8, toNat_digit hd, toNat_digit he]
  rcases Nat.lt_trichotomy d e with h | h | h
  · rw [Nat.compare_eq_lt.mpr h, Nat.compare_eq_lt.mpr (by omega)]
  · rw [Nat.compare_eq_eq.mpr h, Nat.compare_eq_eq.mpr (by omega)]
  · rw [Nat.compare_eq_gt.mpr h, Nat.compare_eq_gt.mpr (by omega)]

theorem pushDigit_eq_some {limit acc n : ℕ} {b : UInt8} :
    pushDigit limit acc b = some n ↔ ∃ d, digitValue b = some d ∧ n = acc * 10 + d ∧ n < limit := by
  unfold pushDigit
  constructor
  · intro h
    split at h
    · cases h
    · rename_i d hd
      split at h
      · cases h
        exact ⟨d, hd, rfl, by assumption⟩
      · cases h
  · rintro ⟨d, hd, rfl, hlt⟩
    simp only [hd, if_pos hlt]

/-! ## Writing and reading -/

@[simp] theorem length_toDecimal (w n : ℕ) : (toDecimal w n).length = w := by
  induction w generalizing n with
  | zero => rfl
  | succ w ih => simp [toDecimal, ih]

/-- Every byte written is a digit. -/
theorem isDigit_of_mem_toDecimal {w n : ℕ} {b : UInt8} (h : b ∈ toDecimal w n) :
    48 ≤ b.toNat ∧ b.toNat < 58 := by
  induction w generalizing n with
  | zero => cases h
  | succ w ih =>
    rcases List.mem_append.mp h with h | h
    · exact ih h
    · obtain rfl := List.mem_singleton.mp h
      have hd : n % 10 < 10 := Nat.mod_lt _ (by decide)
      rw [toNat_digit hd]
      omega

theorem ofDecimal_concat (limit : ℕ) (digits : List UInt8) (b : UInt8) :
    ofDecimal limit (digits ++ [b]) =
      (ofDecimal limit digits).bind fun acc => pushDigit limit acc b := by
  rw [ofDecimal, List.foldlM_append, ofDecimal]
  cases digits.foldlM (pushDigit limit) 0 with
  | none => rfl
  | some acc => simp

/-- Reading back what was written gives the number. -/
theorem ofDecimal_toDecimal {limit w n : ℕ} (hfits : n < 10 ^ w) (hlimit : n < limit) :
    ofDecimal limit (toDecimal w n) = some n := by
  induction w generalizing n with
  | zero =>
    obtain rfl : n = 0 := by simpa using hfits
    rfl
  | succ w ih =>
    have hshort : n / 10 < 10 ^ w := by
      rw [pow_succ] at hfits
      omega
    have hd : n % 10 < 10 := Nat.mod_lt _ (by decide)
    rw [toDecimal, ofDecimal_concat, ih hshort (by omega), Option.bind_some,
      pushDigit_eq_some]
    exact ⟨n % 10, digitValue_digit hd, by omega, hlimit⟩

/-! ## Order -/

/-- Numbers are ordered by all their digits but the last, and then by the last. -/
theorem compare_by_digits (m n : ℕ) :
    compare m n = (compare (m / 10) (n / 10)).then (compare (m % 10) (n % 10)) := by
  rcases Nat.lt_trichotomy (m / 10) (n / 10) with h | h | h
  · rw [Nat.compare_eq_lt.mpr h, Nat.compare_eq_lt.mpr (by omega)]
    rfl
  · rw [Nat.compare_eq_eq.mpr h, Ordering.eq_then]
    rcases Nat.lt_trichotomy (m % 10) (n % 10) with h' | h' | h'
    · rw [Nat.compare_eq_lt.mpr h', Nat.compare_eq_lt.mpr (by omega)]
    · rw [Nat.compare_eq_eq.mpr h', Nat.compare_eq_eq.mpr (by omega)]
    · rw [Nat.compare_eq_gt.mpr h', Nat.compare_eq_gt.mpr (by omega)]
  · rw [Nat.compare_eq_gt.mpr h, Nat.compare_eq_gt.mpr (by omega)]
    rfl

/-- On one width the order of the digits is the order of the numbers. -/
theorem compare_toDecimal {w m n : ℕ} (hm : m < 10 ^ w) (hn : n < 10 ^ w) :
    compare (toDecimal w m) (toDecimal w n) = compare m n := by
  induction w generalizing m n with
  | zero =>
    obtain rfl : m = 0 := by simpa using hm
    obtain rfl : n = 0 := by simpa using hn
    rfl
  | succ w ih =>
    rw [pow_succ] at hm hn
    have hlengths : (toDecimal w (m / 10)).length = (toDecimal w (n / 10)).length := by simp
    have hlast : compare [digit (m % 10)] [digit (n % 10)] = compare (m % 10) (n % 10) := by
      have hd : m % 10 < 10 := Nat.mod_lt _ (by decide)
      have he : n % 10 < 10 := Nat.mod_lt _ (by decide)
      rw [List.compare_cons_cons, compare_digit hd he, List.compare_nil_nil, Ordering.then_eq]
    rw [toDecimal, toDecimal, compare_append hlengths, ih (by omega) (by omega), hlast,
      ← compare_by_digits]

end Hadar.Lib
