import Hadar.Interface.Paging
import Hadar.Lib.BigEndian
import Hadar.Lib.Lexicographic

/-!
# The keys that begin with a prefix

`Bounds::prefix` ends before the prefix without its trailing `0xff` bytes and with the byte in
front of them incremented. Every extension of the prefix lies before that. And whatever lies from
the prefix up to there begins with what is in front of the incremented byte, goes on with that
byte, and then with `0xff` bytes for as long as the prefix does.
-/

set_option autoImplicit false

namespace Hadar.Storage

open Hadar.Lib Std

/-- A byte below `0xff` is one less than what it is incremented to. -/
theorem toNat_increment {last : UInt8} (h : last < 255) : (last + 1).toNat = last.toNat + 1 := by
  have hlt : last.toNat < 255 := UInt8.lt_iff_toNat_lt.mp h
  rw [UInt8.toNat_add]
  exact Nat.mod_eq_of_lt (Nat.succ_lt_succ hlt)

/-- What `Bounds::prefix` ends before lies past every extension of the prefix.
SOURCE: crates/storage-api/src/bounds.rs:70-88 -/
theorem compare_successor {l stop : Bytes} (h : Bounds.successor l = some stop) (tail : Bytes) :
    compare (l.reverse ++ tail) stop = .lt := by
  induction l generalizing tail with
  | nil => cases h
  | cons last rest ih =>
    rw [List.reverse_cons, List.append_assoc]
    rw [Bounds.successor] at h
    by_cases hlast : last < 255
    · rw [if_pos hlast] at h
      obtain rfl : rest.reverse ++ [last + 1] = stop := by
        simpa using h
      have hnum : last.toNat < (last + 1).toNat := by
        rw [toNat_increment hlast]
        exact Nat.lt_succ_self _
      rw [compare_append_left, List.singleton_append, List.compare_cons_cons, compare_uint8,
        Nat.compare_eq_lt.mpr hnum]
      rfl
    · rw [if_neg hlast] at h
      exact ih h _

/-- What lies from a prefix up to where its bounds end begins with it.
SOURCE: crates/storage-api/src/bounds.rs:70-88 -/
theorem prefix_of_successor {l key : Bytes} (hstart : (compare l.reverse key).isLE = true)
    (hstop : ∀ stop, Bounds.successor l = some stop → compare key stop = .lt) :
    l.reverse <+: key := by
  induction l with
  | nil => exact List.nil_prefix
  | cons last rest ih =>
    rw [List.reverse_cons] at hstart ⊢
    have hfront : rest.reverse <+: key := by
      by_cases hlast : last < 255
      · have hlt := hstop _ (by rw [Bounds.successor, if_pos hlast])
        rw [List.reverse_cons] at hlt
        exact prefix_of_between hstart (by rw [hlt]; rfl)
      · refine ih (TransCmp.isLE_trans (isLE_compare_append _ _) hstart) fun stop hstop' => ?_
        exact hstop stop (by rwa [Bounds.successor, if_neg hlast])
    obtain ⟨tail, rfl⟩ := hfront
    rw [compare_append_left] at hstart
    cases tail with
    | nil => simp at hstart
    | cons b tail =>
      rw [List.compare_cons_cons, Ordering.isLE_then_iff_and, compare_uint8,
        Nat.isLE_compare] at hstart
      have hle : b.toNat ≤ last.toNat := by
        by_cases hlast : last < 255
        · -- the key lies before the incremented byte
          have hlt := hstop _ (by rw [Bounds.successor, if_pos hlast])
          rw [List.reverse_cons, compare_append_left, List.compare_cons_cons, compare_uint8,
            Ordering.then_eq_lt, toNat_increment hlast] at hlt
          rcases hlt with hlt | ⟨-, hlt⟩
          · exact Nat.le_of_lt_succ (Nat.compare_eq_lt.mp hlt)
          · cases tail <;> cases hlt
        · have := b.toNat_lt
          have : 255 ≤ last.toNat := Nat.not_lt.mp fun h => hlast (UInt8.lt_iff_toNat_lt.mpr h)
          omega
      obtain rfl : b = last := UInt8.toNat_inj.mp (Nat.le_antisymm hle hstart.1)
      exact ⟨tail, by rw [List.append_assoc, List.singleton_append]⟩

/-- The bounds of a prefix end where it says, if anywhere. -/
theorem stop_withPrefix {lead stop : Bytes} :
    (Bounds.withPrefix lead).stop = .excluded stop ↔
      Bounds.successor lead.reverse = some stop := by
  unfold Bounds.withPrefix
  cases Bounds.successor lead.reverse <;> simp

theorem contains_withPrefix (lead key : Bytes) :
    (Bounds.withPrefix lead).contains key = true ↔ lead <+: key := by
  have hcontains : (Bounds.withPrefix lead).contains key = true ↔
      (compare lead key).isLE = true ∧
        ∀ stop, Bounds.successor lead.reverse = some stop → compare key stop = .lt := by
    unfold Bounds.withPrefix
    cases Bounds.successor lead.reverse <;>
      simp [Bounds.contains, Bounds.admitsStart, Bounds.admitsStop]
  rw [hcontains]
  constructor
  · rintro ⟨hstart, hstop⟩
    have hbegins := prefix_of_successor (l := lead.reverse) (by rwa [List.reverse_reverse]) hstop
    rwa [List.reverse_reverse] at hbegins
  · rintro ⟨tail, rfl⟩
    refine ⟨isLE_compare_append lead tail, fun stop hstop => ?_⟩
    have hlt := compare_successor hstop tail
    rwa [List.reverse_reverse] at hlt

/-- A prefix lies before the end of its bounds. -/
theorem compare_stop_withPrefix {lead stop : Bytes}
    (h : (Bounds.withPrefix lead).stop = .excluded stop) : compare lead stop = .lt := by
  have hlt := compare_successor (stop_withPrefix.mp h) []
  rwa [List.reverse_reverse, List.append_nil] at hlt

theorem panics_withPrefix (lead : Bytes) : (Bounds.withPrefix lead).panics = false := by
  cases hs : Bounds.successor lead.reverse with
  | none => rw [Bounds.withPrefix, hs]; rfl
  | some stop =>
    have hlt := compare_stop_withPrefix (stop_withPrefix.mpr hs)
    rw [Bounds.withPrefix, hs]
    simp [Bounds.panics, hlt]

/-- The bounds of a prefix hold exactly the keys that begin with it, and are never inverted: a
range over them returns the pairs of these keys, and does not panic.
SOURCE: crates/storage-api/src/bounds.rs:70-88 -/
theorem withPrefix_exact (lead : Bytes) :
    (∀ key, (Bounds.withPrefix lead).contains key = true ↔ lead <+: key) ∧
      (∀ stop, (Bounds.withPrefix lead).stop = .excluded stop → compare lead stop = .lt) ∧
      (Bounds.withPrefix lead).panics = false ∧
      ∀ map : Mem.Map, ∀ limit, Mem.collect map (Bounds.withPrefix lead) limit =
        some (capped limit (map.entries.toList.filter fun p => lead <+: p.1)) := by
  refine ⟨contains_withPrefix lead, fun _ h => compare_stop_withPrefix h, panics_withPrefix lead,
    fun map limit => ?_⟩
  have hentries : entriesIn map.entries (Bounds.withPrefix lead) =
      map.entries.toList.filter fun p => lead <+: p.1 :=
    List.filter_congr fun p _ => by
      rw [Bool.eq_iff_iff, contains_withPrefix, decide_eq_true_eq]
  rw [Mem.collect_eq (panics_withPrefix lead), hentries]

example : Bounds.withPrefix [7, 8, 255, 255] = ⟨.included [7, 8, 255, 255], .excluded [7, 9]⟩ := by
  decide

end Hadar.Storage
