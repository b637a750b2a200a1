import Mathlib.Tactic.Common

/-!
# Lexicographic order and beginnings

Lists are compared by their first difference, and a list comes before its extensions. So a
common beginning does not matter to the order, and the lists that begin alike are next to one
another: whatever lies between two of them begins as they do.
-/

set_option autoImplicit false

namespace Hadar.Lib

open Std

section Lexicographic

variable {α : Type} [Ord α]

/-- Lists whose first parts have one length are compared part by part. -/
theorem compare_append {a b : List α} (h : a.length = b.length) (x y : List α) :
    compare (a ++ x) (b ++ y) = (compare a b).then (compare x y) := by
  induction a generalizing b with
  | nil =>
    obtain rfl : b = [] := List.length_eq_zero_iff.mp h.symm
    simp
  | cons p a ih =>
    obtain _ | ⟨q, b⟩ := b
    · cases h
    · rw [List.cons_append, List.cons_append, List.compare_cons_cons, List.compare_cons_cons,
        ih (Nat.succ.inj h), Ordering.then_assoc]

variable [ReflOrd α]

/-- A first element in common does not matter to the order. -/
theorem compare_cons_self (a : α) (x y : List α) : compare (a :: x) (a :: y) = compare x y := by
  have hself : compare a a = .eq := ReflCmp.compare_self
  rw [List.compare_cons_cons, hself, Ordering.eq_then]

/-- A beginning in common does not matter to the order. -/
theorem compare_append_left (front x y : List α) :
    compare (front ++ x) (front ++ y) = compare x y := by
  induction front with
  | nil => rfl
  | cons a rest ih => rw [List.cons_append, List.cons_append, compare_cons_self, ih]

/-- A list comes before its extensions. -/
theorem isLE_compare_append (front x : List α) : (compare front (front ++ x)).isLE = true := by
  have h := compare_append_left front [] x
  rw [List.append_nil] at h
  rw [h]
  exact List.isLE_compare_nil_left

end Lexicographic

section Between

variable {α : Type} [Ord α] [TransOrd α] [LawfulEqOrd α] {front key x y : List α}

/-- What lies between two extensions of a list extends it too. -/
theorem prefix_of_between (h : (compare (front ++ x) key).isLE = true)
    (h' : (compare key (front ++ y)).isLE = true) : front <+: key := by
  induction front generalizing key with
  | nil => exact List.nil_prefix
  | cons a rest ih =>
    cases key with
    | nil => simp at h
    | cons b key =>
      rw [List.cons_append, List.compare_cons_cons, Ordering.isLE_then_iff_and] at h h'
      have hfirst : compare a b = .eq := OrientedCmp.isLE_antisymm h.1 h'.1
      obtain rfl : a = b := LawfulEqCmp.eq_of_compare hfirst
      rw [hfirst] at h h'
      exact List.cons_prefix_cons.mpr ⟨rfl, ih (by simpa using h.2) (by simpa using h'.2)⟩

end Between

end Hadar.Lib
