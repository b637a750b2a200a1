import Hadar.Interface.MultiVersion
import Hadar.Analysis.Records

/-!
# The backend contents against the events

The store writes one entry for each event, under a key that orders entries by revision,
and one marker in front of them. The contents of the backend are described by their
listing: the marker, if there is one, and the entries of the events kept. Inserting the
next event, overwriting the marker and removing a revision each keep that form.
-/

set_option autoImplicit false

namespace Hadar.Mvcc

open Hadar.Lib Hadar.Storage Std

/-! ## Entries -/

/-- The entry an event is written as. -/
def Event.entry (e : Event) : Bytes × Bytes :=
  (backendKey e.1 e.dies, encodeRecord e.2.key e.2.value)

/-- Entries are in the order of their dates. -/
theorem compare_entry {e e' : Event} (h : e.date < e'.date) :
    compare e.entry.1 e'.entry.1 = .lt := by
  have hmain : e.1.main < e'.1.main := h
  rw [Event.entry, Event.entry, compare_backendKey, Nat.compare_eq_lt.mpr hmain]
  rfl

theorem entry_ne_appliedKey (e : Event) : e.entry.1 ≠ appliedKey :=
  (appliedKey_ne_backendKey _ _).symm

/-- Writing the marker changes no record. -/
theorem getElem?_marked (contents : Keyspace) (value : Bytes) (rev : Revision) (tombstone : Bool) :
    (contents.insert appliedKey value)[backendKey rev tombstone]? =
      contents[backendKey rev tombstone]? :=
  (ExtTreeMap.getElem?_insert ..).trans (if_neg fun heq =>
    appliedKey_ne_backendKey rev tombstone (LawfulEqCmp.eq_of_compare heq))

/-! ## Contents -/

/-- The contents list the marker, if there is one, and then an entry for each event. -/
def Holds (contents : Keyspace) (marker : Option ℕ) (events : List Event) : Prop :=
  contents.toList =
    (marker.map fun position => (appliedKey, encodePosition position)).toList ++
      events.map Event.entry

theorem holds_empty : Holds ∅ none [] := by simp [Holds]

section Holds

variable {contents : Keyspace} {marker : Option ℕ} {events : List Event}

/-- Writing the next event. -/
theorem Holds.insert {e : Event} (h : Holds contents marker events)
    (hdated : Dated Event.date (events ++ [e])) :
    Holds (contents.insert e.entry.1 e.entry.2) marker (events ++ [e]) := by
  unfold Holds at *
  rw [OrderedMap.toList_insert_last, h]
  · simp [Event.entry]
  · intro p hp
    rw [h] at hp
    rcases List.mem_append.mp hp with hp | hp
    · cases marker with
      | none => simp at hp
      | some position =>
        obtain rfl : p = (appliedKey, encodePosition position) := by simpa using hp
        exact compare_appliedKey _ _
    · obtain ⟨x, hx, rfl⟩ := List.mem_map.mp hp
      exact compare_entry (hdated.lt_of_concat x hx)

/-- The entries are not the marker's. -/
theorem filter_entries (events : List Event) :
    (events.map Event.entry).filter (fun p => p.1 ≠ appliedKey) = events.map Event.entry := by
  rw [List.filter_eq_self]
  intro p hp
  obtain ⟨e, -, rfl⟩ := List.mem_map.mp hp
  simpa using entry_ne_appliedKey e

/-- Recording a position. -/
theorem Holds.mark (h : Holds contents marker events) (position : ℕ) :
    Holds (contents.insert appliedKey (encodePosition position)) (some position) events := by
  unfold Holds at *
  have hrest : (contents.toList.filter fun p => p.1 ≠ appliedKey) = events.map Event.entry := by
    rw [h, List.filter_append, filter_entries]
    cases marker <;> simp
  rw [OrderedMap.toList_insert_first hrest]
  · rfl
  · intro p hp
    obtain ⟨e, -, rfl⟩ := List.mem_map.mp hp
    exact compare_appliedKey _ _

/-- Removing a revision's record, under either key it may have. -/
theorem Holds.remove (h : Holds contents marker events) (rev : Revision) :
    Holds ((contents.erase (backendKey rev false)).erase (backendKey rev true)) marker
      (events.filter fun e => e.1 ≠ rev) := by
  unfold Holds at *
  have hkeep : ∀ e : Event, (decide (e.entry.1 ≠ backendKey rev true) &&
      decide (e.entry.1 ≠ backendKey rev false)) = decide (e.1 ≠ rev) := by
    intro e
    rw [Bool.eq_iff_iff]
    simp only [Bool.and_eq_true, decide_eq_true_eq]
    constructor
    · rintro ⟨htrue, hfalse⟩ rfl
      cases hd : e.dies with
      | false => exact hfalse (by rw [Event.entry, hd])
      | true => exact htrue (by rw [Event.entry, hd])
    · intro hne
      exact ⟨fun heq => hne (backendKey_inj heq).1, fun heq => hne (backendKey_inj heq).1⟩
  have hmarker := appliedKey_ne_backendKey rev
  rw [OrderedMap.toList_erase, OrderedMap.toList_erase, List.filter_filter, h, List.filter_append,
    List.filter_map]
  congr 1
  · cases marker with
    | none => rfl
    | some position => simp [hmarker]
  · congr 1
    exact List.filter_congr fun e _ => hkeep e

/-- A kept event's record is found under its key. -/
theorem Holds.lookup (h : Holds contents marker events) {e : Event} (he : e ∈ events) :
    contents[backendKey e.1 e.dies]? = some (encodeRecord e.2.key e.2.value) := by
  rw [← ExtTreeMap.mem_toList_iff_getElem?_eq_some, h]
  exact List.mem_append_right _ (List.mem_map_of_mem he)

/-- The records held, read by their keys. -/
theorem Holds.lookup_iff (h : Holds contents marker events) {rev : Revision} {tombstone : Bool}
    {raw : Bytes} :
    contents[backendKey rev tombstone]? = some raw ↔
      ∃ e ∈ events, e.1 = rev ∧ e.dies = tombstone ∧ encodeRecord e.2.key e.2.value = raw := by
  constructor
  · intro hraw
    rw [← ExtTreeMap.mem_toList_iff_getElem?_eq_some, h] at hraw
    rcases List.mem_append.mp hraw with hmarker | hentry
    · cases marker with
      | none => cases hmarker
      | some position =>
        have heq := congrArg Prod.fst (List.mem_singleton.mp hmarker)
        exact absurd heq.symm (appliedKey_ne_backendKey rev tombstone)
    · obtain ⟨e, he, heq⟩ := List.mem_map.mp hentry
      obtain ⟨hrev, hdies⟩ := backendKey_inj (congrArg Prod.fst heq)
      exact ⟨e, he, hrev, hdies, congrArg Prod.snd heq⟩
  · rintro ⟨e, he, rfl, rfl, rfl⟩
    exact h.lookup he

theorem Holds.lookup_marker (h : Holds contents marker events) :
    contents[appliedKey]? = marker.map encodePosition := by
  cases marker with
  | some position =>
    rw [Option.map_some, ← ExtTreeMap.mem_toList_iff_getElem?_eq_some, h]
    simp
  | none =>
    rw [Option.map_none, Option.eq_none_iff_forall_ne_some]
    intro v hv
    rw [← ExtTreeMap.mem_toList_iff_getElem?_eq_some, h] at hv
    obtain ⟨e, -, he⟩ := List.mem_map.mp (by simpa using hv : (appliedKey, v) ∈ events.map Event.entry)
    exact entry_ne_appliedKey e (congrArg Prod.fst he)

/-- Contents are determined by what they hold. -/
theorem Holds.unique {contents' : Keyspace} (h : Holds contents marker events)
    (h' : Holds contents' marker events) : contents = contents' :=
  ExtTreeMap.ext_toList (List.Perm.of_eq (h.trans h'.symm))

end Holds

end Hadar.Mvcc
