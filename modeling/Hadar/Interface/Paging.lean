import Hadar.Lib.OrderedMap
import Hadar.Model.Mem
import Hadar.Model.Store

/-!
# Scanning in pages

A range is read page by page: the bounds move past the last key of each page, and an empty
page ends the scan. What remains within the bounds then is what was there without the page,
so it gets shorter with each page, and one that was not empty never leaves bounds that a
range panics on.
-/

set_option autoImplicit false

namespace Hadar.Storage

open Hadar.Lib Std

namespace Bounds

variable {bounds : Bounds} {key k : Bytes}

/-- Past a key within the start bound lies what lies past both. -/
theorem contains_advancePast (h : bounds.admitsStart key = true) :
    (bounds.advancePast key).contains k = (bounds.contains k && (compare key k).isLT) := by
  have hstart : (compare key k).isLT = true → bounds.admitsStart k = true := by
    intro hlt
    rw [Ordering.isLT_iff_eq_lt] at hlt
    unfold admitsStart at h ⊢
    split at h
    · rfl
    · exact TransCmp.isLE_trans h (by rw [hlt]; rfl)
    · rw [Ordering.isLT_iff_eq_lt] at h ⊢
      exact TransCmp.lt_trans h hlt
  rw [Bool.eq_iff_iff]
  simp only [contains, advancePast, admitsStart, admitsStop, Bool.and_eq_true]
  constructor
  · rintro ⟨hlt, hstop⟩
    exact ⟨⟨hstart hlt, hstop⟩, hlt⟩
  · rintro ⟨⟨-, hstop⟩, hlt⟩
    exact ⟨hlt, hstop⟩

/-- Bounds moved past a key within them are accepted. -/
theorem panics_advancePast (h : bounds.contains key = true) :
    (bounds.advancePast key).panics = false := by
  have hstop : bounds.admitsStop key = true := (Bool.and_eq_true_iff.mp h).2
  unfold admitsStop at hstop
  simp only [panics, advancePast]
  split at hstop
  · rename_i hunbounded
    rw [hunbounded]
  · rename_i e hincluded
    rw [hincluded]
    show (compare key e).isGT = false
    rw [← Ordering.not_isLE_eq_isGT, hstop]
    rfl
  · rename_i e hexcluded
    rw [hexcluded]
    show (compare key e).isGE = false
    rw [← Ordering.not_isLT_eq_isGE, hstop]
    rfl

end Bounds

section Entries

variable {β : Type} {m : ExtTreeMap Bytes β} {bounds : Bounds}

theorem ascending_entriesIn (m : ExtTreeMap Bytes β) (bounds : Bounds) :
    Ascending compare (entriesIn m bounds) :=
  List.Pairwise.sublist List.filter_sublist (OrderedMap.ascending_toList m)

theorem contains_of_mem_entriesIn {p : Bytes × β} (h : p ∈ entriesIn m bounds) :
    bounds.contains p.1 = true := (List.mem_filter.mp h).2

/-- Past the last key of a page lie the entries after it. -/
theorem entriesIn_advancePast {n : ℕ} {last : Bytes × β}
    (h : ((entriesIn m bounds).take n).getLast? = some last) :
    entriesIn m (bounds.advancePast last.1) = (entriesIn m bounds).drop n := by
  have hlast : last ∈ entriesIn m bounds :=
    List.mem_of_mem_take (List.mem_of_getLast? h)
  have hstart : bounds.admitsStart last.1 = true :=
    (Bool.and_eq_true_iff.mp (contains_of_mem_entriesIn hlast)).1
  rw [← (ascending_entriesIn m bounds).filter_past_take h]
  unfold entriesIn
  rw [List.filter_filter]
  exact List.filter_congr fun p _ => by rw [Bounds.contains_advancePast hstart, Bool.and_comm]

/-- What remains after a page is less than there was before it. -/
theorem length_past_lt {n : ℕ} {last : Bytes × β}
    (h : ((entriesIn m bounds).take n).getLast? = some last) :
    (entriesIn m (bounds.advancePast last.1)).length < (entriesIn m bounds).length := by
  have hne : (entriesIn m bounds).take n ≠ [] := by
    intro hnil
    rw [hnil] at h
    cases h
  have hpos := List.length_pos_iff.mpr hne
  rw [List.length_take] at hpos
  rw [entriesIn_advancePast h, List.length_drop]
  omega

end Entries

end Hadar.Storage

namespace Hadar.Mem

open Hadar.Storage

variable {map : Map} {bounds : Bounds}

theorem collect_eq (h : bounds.panics = false) (limit : Option ℕ) :
    collect map bounds limit = some (capped limit (entriesIn map.entries bounds)) := by
  rw [collect, h, Bool.and_false]
  rfl

/-- A map without a root has nothing within any bounds, and does not look at them. -/
theorem collect_unrooted (h : map.rooted = false) (limit : Option ℕ) :
    collect map bounds limit = some (capped limit (entriesIn map.entries bounds)) := by
  rw [collect, h, Bool.false_and]
  rfl

theorem collect_some {n : ℕ} {page : List (Bytes × Bytes)}
    (h : collect map bounds (some n) = some page) :
    page = (entriesIn map.entries bounds).take n := by
  unfold collect at h
  split at h
  · cases h
  · exact (Option.some.inj h).symm

/-- The pages of a scan, `n` keys to a page; `none` where a range panics. -/
def pages (map : Map) (n : ℕ) (bounds : Bounds) : Option (List (List (Bytes × Bytes))) :=
  match _hpage : collect map bounds (some n) with
  | none => none
  | some page =>
    match _hlast : page.getLast? with
    | none => some []
    | some last => (pages map n (bounds.advancePast last.1)).map (page :: ·)
  termination_by (entriesIn map.entries bounds).length
  decreasing_by exact length_past_lt (collect_some _hpage ▸ _hlast)

end Hadar.Mem

namespace Hadar.Mvcc

open Hadar.Storage

/-- A revision comes before another, and a put before a deletion at the same revision. -/
def Precedes (p q : Revision × Bool) : Prop :=
  p.1.main < q.1.main ∨ p.1.main = q.1.main ∧
    (p.1.sub < q.1.sub ∨ p.1.sub = q.1.sub ∧ p.2 = false ∧ q.2 = true)

/-- What a record of the backend tells: the revision under which its key was put or deleted. -/
def mutationOf (record : Bytes × Bytes) : Except Error (Mutation × Revision) :=
  match parseKey record.1 with
  | none => .error (.corrupt "unrecognized revision record key")
  | some (revision, tombstone) =>
    match decodeRecord record.2 with
    | none => .error (.corrupt "truncated revision record")
    | some (key, value) => .ok (if tombstone then .delete key else .put key value, revision)

/-- The state `open` is to rebuild from some contents: the marker is read, every entry among the
revision records is entered in the index, once and in key order, and the current revision is the
greatest of theirs. -/
def openAtOnce (contents : Keyspace) : Except Error State :=
  match (contents[appliedKey]?).map decodePosition with
  | some none => .error (.corrupt "applied-position marker is malformed")
  | marker =>
    match (entriesIn contents allRecords).mapM mutationOf with
    | .error e => .error e
    | .ok mutations => .ok {
      index := mutations.foldl (fun index p => index.enter p.1 p.2) Index.empty
      current := (mutations.map (·.2)).foldl Revision.max Revision.zero
      compacted := 0
      applied := marker.join.getD 0 }

end Hadar.Mvcc
