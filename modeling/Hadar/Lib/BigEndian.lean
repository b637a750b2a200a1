import Mathlib.Tactic.Ring
import Mathlib.Tactic.Common

/-!
# Big-endian numbers

A number written on a fixed width of bytes, most significant byte first, and read back.
The two directions invert each other, and on one width the byte-wise lexicographic order
is the order of the numbers written.
-/

set_option autoImplicit false

namespace Hadar.Lib

/-- The big-endian bytes of `n` on a width of `w`; what does not fit is dropped. -/
def toBE : ℕ → ℕ → List UInt8
  | 0, _ => []
  | w + 1, n => UInt8.ofNat (n / 256 ^ w) :: toBE w n

/-- The number a string of big-endian bytes denotes. -/
def ofBE : List UInt8 → ℕ
  | [] => 0
  | b :: bs => b.toNat * 256 ^ bs.length + ofBE bs

@[simp] theorem length_toBE (w n : ℕ) : (toBE w n).length = w := by
  induction w with
  | zero => rfl
  | succ w ih => simp [toBE, ih]

/-- A string of `w` bytes denotes a number below `256 ^ w`. -/
theorem ofBE_lt (bs : List UInt8) : ofBE bs < 256 ^ bs.length := by
  induction bs with
  | nil => simp [ofBE]
  | cons b bs ih =>
    have hb : b.toNat ≤ 255 := Nat.le_of_lt_succ b.toNat_lt
    have hmul : b.toNat * 256 ^ bs.length ≤ 255 * 256 ^ bs.length := Nat.mul_le_mul_right _ hb
    simp only [ofBE, List.length_cons, pow_succ]
    omega

/-- Reading back what was written gives the number, up to what the width could not hold. -/
theorem ofBE_toBE (w n : ℕ) : ofBE (toBE w n) = n % 256 ^ w := by
  induction w with
  | zero => simp [toBE, ofBE, Nat.mod_one]
  | succ w ih =>
    have hsplit : n % 256 ^ (w + 1) = n % 256 ^ w + 256 ^ w * (n / 256 ^ w % 256) := by
      rw [pow_succ, Nat.mod_mul]
    rw [toBE, ofBE, length_toBE, ih, hsplit, UInt8.toNat_ofNat', Nat.mul_comm, Nat.add_comm]

theorem ofBE_toBE_of_lt {w n : ℕ} (h : n < 256 ^ w) : ofBE (toBE w n) = n := by
  rw [ofBE_toBE, Nat.mod_eq_of_lt h]

/-- The bytes written depend only on what the width can hold. -/
theorem toBE_add_mul (w n k : ℕ) : toBE w (k * 256 ^ w + n) = toBE w n := by
  induction w generalizing k with
  | zero => rfl
  | succ w ih =>
    have hsplit : k * 256 ^ (w + 1) + n = k * 256 * 256 ^ w + n := by ring
    have hpos : 0 < 256 ^ w := Nat.pow_pos (by decide)
    have hdiv : (k * 256 * 256 ^ w + n) / 256 ^ w = n / 256 ^ w + k * 256 := by
      rw [Nat.add_comm, Nat.add_mul_div_right _ _ hpos]
    rw [hsplit, toBE, ih (k * 256), hdiv, toBE]
    congr 1
    apply UInt8.toNat_inj.mp
    simp only [UInt8.toNat_ofNat']
    omega

/-- Writing back what was read gives the bytes. -/
theorem toBE_ofBE (bs : List UInt8) : toBE bs.length (ofBE bs) = bs := by
  induction bs with
  | nil => rfl
  | cons b bs ih =>
    have hdiv : (b.toNat * 256 ^ bs.length + ofBE bs) / 256 ^ bs.length = b.toNat := by
      rw [Nat.mul_comm, Nat.mul_add_div (Nat.pow_pos (by decide)),
        Nat.div_eq_of_lt (ofBE_lt bs), Nat.add_zero]
    simp only [List.length_cons, toBE, ofBE, hdiv, toBE_add_mul, ih, UInt8.ofNat_toNat]

/-- On one width, equal bytes write equal numbers. -/
theorem toBE_inj {w m n : ℕ} (hm : m < 256 ^ w) (hn : n < 256 ^ w) :
    toBE w m = toBE w n ↔ m = n := by
  constructor
  · intro h
    rw [← ofBE_toBE_of_lt hm, h, ofBE_toBE_of_lt hn]
  · rintro rfl; rfl

/-! ## Byte order -/

/-- Bytes are ordered as the numbers they stand for. -/
theorem compare_uint8 (a b : UInt8) : compare a b = compare a.toNat b.toNat := by
  simp only [compare, compareOfLessAndEq, UInt8.lt_iff_toNat_lt, UInt8.toNat_inj.symm]

/-- On one width the order of the bytes is the order of the numbers. -/
theorem compare_toBE {w m n : ℕ} (hm : m < 256 ^ w) (hn : n < 256 ^ w) :
    compare (toBE w m) (toBE w n) = compare m n := by
  induction w generalizing m n with
  | zero =>
    have h0 : m = n := by simp at hm hn; omega
    subst h0
    simp [toBE]
  | succ w ih =>
    have hpos : 0 < 256 ^ w := Nat.pow_pos (by decide)
    have hmq : m / 256 ^ w < 256 := by
      rw [Nat.div_lt_iff_lt_mul hpos]; rw [pow_succ] at hm; omega
    have hnq : n / 256 ^ w < 256 := by
      rw [Nat.div_lt_iff_lt_mul hpos]; rw [pow_succ] at hn; omega
    have htail : ∀ k, toBE w k = toBE w (k % 256 ^ w) := fun k => by
      conv_lhs => rw [← Nat.div_add_mod' k (256 ^ w)]
      exact toBE_add_mul w _ _
    show List.compareLex compare (toBE (w + 1) m) (toBE (w + 1) n) = _
    simp only [toBE, List.compareLex_cons_cons, compare_uint8, UInt8.toNat_ofNat',
      Nat.mod_eq_of_lt hmq, Nat.mod_eq_of_lt hnq]
    have ih' : List.compareLex compare (toBE w m) (toBE w n) =
        compare (m % 256 ^ w) (n % 256 ^ w) := by
      rw [htail m, htail n]
      exact ih (Nat.mod_lt _ hpos) (Nat.mod_lt _ hpos)
    rw [ih']
    have hm' := Nat.div_add_mod m (256 ^ w)
    have hn' := Nat.div_add_mod n (256 ^ w)
    have hmr := Nat.mod_lt m hpos
    have hnr := Nat.mod_lt n hpos
    -- the leading digit decides unless the two agree on it
    rcases Nat.lt_trichotomy (m / 256 ^ w) (n / 256 ^ w) with hlt | heq | hgt
    · have hmn : m < n := by
        have := Nat.mul_le_mul_left (256 ^ w) (Nat.succ_le_of_lt hlt)
        rw [Nat.mul_succ] at this
        omega
      rw [Nat.compare_eq_lt.mpr hlt, Nat.compare_eq_lt.mpr hmn]
      rfl
    · rw [heq] at hm'
      rw [Nat.compare_eq_eq.mpr heq, Ordering.eq_then]
      rcases Nat.lt_trichotomy (m % 256 ^ w) (n % 256 ^ w) with h | h | h
      · rw [Nat.compare_eq_lt.mpr h, Nat.compare_eq_lt.mpr (by omega)]
      · rw [Nat.compare_eq_eq.mpr h, Nat.compare_eq_eq.mpr (by omega)]
      · rw [Nat.compare_eq_gt.mpr h, Nat.compare_eq_gt.mpr (by omega)]
    · have hmn : n < m := by
        have := Nat.mul_le_mul_left (256 ^ w) (Nat.succ_le_of_lt hgt)
        rw [Nat.mul_succ] at this
        omega
      rw [Nat.compare_eq_gt.mpr hgt, Nat.compare_eq_gt.mpr hmn]
      rfl

end Hadar.Lib
