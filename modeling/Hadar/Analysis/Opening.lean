import Hadar.Analysis.Paging
import Hadar.Analysis.Reading

/-!
# Opening a store

`open` scans the revision records page by page and enters each in an empty index. Over
contents that hold the records of some events the scan sees each record once, in revision
order, whatever the page size; what it rebuilds is the replay of those events.
-/

set_option autoImplicit false

namespace Hadar.Mvcc

open Hadar.Lib Hadar.Lib.Prog Hadar.Storage Std

/-! ## Records -/

/-- The scan goes over the records of the events and not over the marker. -/
theorem entriesIn_all {contents : Keyspace} {marker : Option ℕ} {records : List Event}
    (h : Holds contents marker records) :
    entriesIn contents allRecords = records.map Event.entry := by
  unfold entriesIn
  rw [h, List.filter_append, allRecords_eq]
  have hmarker : ((marker.map fun position => (appliedKey, encodePosition position)).toList.filter
      fun p => (⟨.included [116], scanStop⟩ : Bounds).contains p.1) = [] := by
    cases marker with
    | none => rfl
    | some position => rfl
  rw [hmarker, List.nil_append, List.filter_eq_self]
  intro p hp
  obtain ⟨e, -, rfl⟩ := List.mem_map.mp hp
  rw [← allRecords_eq]
  exact contains_backendKey _ _

/-- An event with the key and the value its record tells. -/
def Event.retold (e : Event) : Option (Bytes × Bytes) → Event
  | some (key, value) => (e.1, if e.dies then .delete key else .put key value)
  | none => e

/-- An event as its record tells it: a key the format cannot hold comes back cut short. -/
def Event.restored (e : Event) : Event :=
  e.retold (decodeRecord (encodeRecord e.2.key e.2.value))

theorem restored_eq {e : Event} (h : e.2.key.length ≤ u32Max) : e.restored = e := by
  rw [Event.restored, decodeRecord_encodeRecord _ h]
  obtain ⟨rev, mutation⟩ := e
  cases mutation <;> rfl

/-- A record decodes whatever its key is.
SOURCE: crates/mvcc/src/record.rs:48-67 -/
theorem exists_decodeRecord (key value : Bytes) :
    ∃ key' value', decodeRecord (encodeRecord key value) = some (key', value') := by
  have hsplit : ∀ len : ℕ, len < 256 ^ 4 → len ≤ (key ++ value).length →
      ∃ key' value', decodeRecord (toBE 4 len ++ (key ++ value)) = some (key', value') := by
    intro len hlt hle
    have htake : (toBE 4 len ++ (key ++ value)).take 4 = toBE 4 len := by
      rw [List.take_left' (by simp)]
    have hdrop : (toBE 4 len ++ (key ++ value)).drop 4 = key ++ value := by
      rw [List.drop_left' (by simp)]
    refine ⟨(key ++ value).take len, (key ++ value).drop len, ?_⟩
    rw [decodeRecord, splitAtChecked, if_pos (by simp), htake, hdrop]
    dsimp only
    rw [splitAtChecked, ofBE_toBE_of_lt hlt, if_pos hle]
  have hmax : u32Max < 256 ^ 4 := by decide
  have hlen : key.length ≤ (key ++ value).length := by simp
  unfold encodeRecord
  split
  · exact hsplit _ (by omega) hlen
  · exact hsplit _ hmax (by omega)

/-- The index the records of some events rebuild. -/
def restoredIndex (index : Index) (records : List Event) : Index :=
  records.foldl (fun index e => index.enter e.restored.2 e.1) index

theorem restoredIndex_cons (index : Index) (e : Event) (rest : List Event) :
    restoredIndex index (e :: rest) = restoredIndex (index.enter e.restored.2 e.1) rest := rfl

/-- The newest revision among some events and one to begin with. -/
def newestOf (current : Revision) (records : List Event) : Revision :=
  records.foldl (fun current e => current.max e.1) current

theorem mutationOf_of {rawKey rawValue key value : Bytes} {rev : Revision} {tombstone : Bool}
    (hkey : parseKey rawKey = some (rev, tombstone))
    (hvalue : decodeRecord rawValue = some (key, value)) :
    mutationOf (rawKey, rawValue) = .ok (if tombstone then .delete key else .put key value, rev) := by
  rw [mutationOf]
  dsimp only
  rw [hkey]
  dsimp only
  rw [hvalue]

/-- The records of some events tell of them, as far as a record can.
SOURCE: crates/mvcc/src/store.rs:91-105 -/
theorem mutationOf_entries (records : List Event) :
    (records.map Event.entry).mapM mutationOf =
      .ok (records.map fun e => (e.restored.2, e.1)) := by
  induction records with
  | nil => rfl
  | cons e rest ih =>
    obtain ⟨key, value, hdecode⟩ := exists_decodeRecord e.2.key e.2.value
    have hrestored : e.restored = (e.1, if e.dies then .delete key else .put key value) := by
      rw [Event.restored, hdecode, Event.retold]
    have htells : mutationOf e.entry = .ok (e.restored.2, e.1) := by
      rw [Event.entry, mutationOf_of (parseKey_backendKey _ _) hdecode, hrestored]
    rw [List.map_cons, List.map_cons, List.mapM_cons, htells, ih]
    rfl

/-- The state a store opens with over the records of some events. -/
def restoredState (marker : Option ℕ) (records : List Event) : State :=
  ⟨restoredIndex Index.empty records, newestOf Revision.zero records, 0,
    (marker.map (· % 2 ^ 64)).getD 0⟩

/-- Entering what some events are told as, whatever that is: `told` is a variable, so that comparing
the two evaluates no decoding. -/
theorem foldl_told (told : Event → Event) (records : List Event) (index : Index) :
    (records.map fun e => ((told e).2, e.1)).foldl (fun index p => index.enter p.1 p.2) index =
      records.foldl (fun index e => index.enter (told e).2 e.1) index := List.foldl_map

/-- One pass over the records of some events rebuilds their replay. -/
theorem openAtOnce_eq {contents : Keyspace} {marker : Option ℕ} {records : List Event}
    (h : Holds contents marker records) :
    openAtOnce contents = .ok (restoredState marker records) := by
  unfold openAtOnce
  rw [h.lookup_marker, entriesIn_all h, mutationOf_entries]
  have hindex : (records.map fun e => (e.restored.2, e.1)).foldl
      (fun index p => index.enter p.1 p.2) Index.empty = restoredIndex Index.empty records :=
    foldl_told Event.restored records Index.empty
  have hcurrent : ((records.map fun e => (e.restored.2, e.1)).map (·.2)).foldl Revision.max
      Revision.zero = newestOf Revision.zero records := by
    rw [List.map_map, List.foldl_map]
    rfl
  cases marker with
  | none =>
    dsimp only [Option.map_none]
    rw [hindex, hcurrent]
    rfl
  | some position =>
    rw [Option.map_some, Option.map_some, decodePosition_encodePosition]
    dsimp only
    rw [hindex, hcurrent]
    rfl

/-- Opening rebuilds the state from the contents, and nothing but a call of the engine can
make it fail.
SOURCE: crates/mvcc/src/store.rs:66-117 -/
theorem reads_openState {e : Engine} {marker : Option ℕ} {records : List Event}
    (h : Holds e.committed marker records) :
    Reads False False openState e (· = restoredState marker records) := by
  have hopen := follows_openState e
  rw [openAtOnce_eq h] at hopen
  refine Ends.mono hopen (fun st _ hst => ⟨(Except.ok.inj hst.1).symm, hst.2⟩)
    (fun x _ hx => ⟨hx.1, .inl (hx.2.resolve_right fun hfail => ?_)⟩)
    fun _ hdead => ⟨hdead.1, .inl hdead.2⟩
  cases hfail

/-- Opening over an engine whose calls all succeed. -/
theorem openStore_eq {e : Engine} {marker : Option ℕ} {records : List Event}
    (h : Holds e.committed marker records) (hcalm : e.replies = []) :
    openStore e = (.ok (restoredState marker records), e) := by
  obtain ⟨st, e', hexec, rfl, hlater⟩ := (reads_openState h).returns (Engine.calm hcalm).1
    (Engine.calm hcalm).2
  rw [openStore, hexec, Engine.Later.eq_of_calm hlater hcalm]

/-! ## What is rebuilt -/

theorem restoredIndex_eq {records : List Event} (index : Index)
    (h : ∀ e ∈ records, e.2.key.length ≤ u32Max) :
    restoredIndex index records = records.foldl (fun index e => index.enter e.2 e.1) index := by
  induction records generalizing index with
  | nil => rw [restoredIndex, List.foldl_nil, List.foldl_nil]
  | cons e rest ih =>
    rw [restoredIndex_cons, restored_eq (h e (List.mem_cons_self ..)), List.foldl_cons,
      ih _ fun x hx => h x (List.mem_cons_of_mem _ hx)]

/-- Of dated events the newest revision is the last one. -/
theorem newestOf_concat {records : List Event} {e : Event}
    (hdated : Dated Event.date (records ++ [e])) :
    newestOf Revision.zero (records ++ [e]) = e.1 := by
  have hmax : ∀ r : Revision, r.main < e.1.main ∨ r = Revision.zero → r.max e.1 = e.1 := by
    rintro r (hlt | rfl)
    · rw [Revision.max, if_pos (.inl hlt)]
    · rw [Revision.max, if_pos]
      show 0 < e.1.main ∨ (0 = e.1.main ∧ 0 ≤ e.1.sub)
      omega
  rw [newestOf, List.foldl_concat]
  refine hmax _ ?_
  -- the fold is zero or one of the records
  have hfold : ∀ l : List Event, ∀ r : Revision,
      l.foldl (fun current x => current.max x.1) r = r ∨
        ∃ x ∈ l, l.foldl (fun current x => current.max x.1) r = x.1 := by
    intro l
    induction l with
    | nil => exact fun r => .inl rfl
    | cons x rest ih =>
      intro r
      rw [List.foldl_cons]
      rcases ih (r.max x.1) with h | ⟨y, hy, h⟩
      · rw [h, Revision.max]
        split
        · exact .inr ⟨x, List.mem_cons_self .., rfl⟩
        · exact .inl rfl
      · exact .inr ⟨y, List.mem_cons_of_mem _ hy, h⟩
  rcases hfold records Revision.zero with h | ⟨x, hx, h⟩
  · exact .inr h
  · refine .inl ?_
    rw [h]
    exact hdated.lt_of_concat x hx

/-- The newest revision among dated events is past none of them. -/
theorem le_newestOf {records : List Event} (hdated : Dated Event.date records) :
    ∀ e ∈ records, e.date ≤ (newestOf Revision.zero records).main := by
  obtain rfl | ⟨front, last, rfl⟩ := List.eq_nil_or_concat records
  · simp
  · rw [List.concat_eq_append] at hdated ⊢
    rw [newestOf_concat hdated]
    intro e he
    rcases List.mem_append.mp he with he | he
    · exact (hdated.lt_of_concat e he).le
    · rw [List.mem_singleton.mp he]
      exact le_rfl

theorem newestOf_le {records : List Event} {bound : ℕ} (hdated : Dated Event.date records)
    (h : ∀ e ∈ records, e.date ≤ bound) : (newestOf Revision.zero records).main ≤ bound := by
  obtain rfl | ⟨front, last, rfl⟩ := List.eq_nil_or_concat records
  · exact Nat.zero_le _
  · rw [List.concat_eq_append] at hdated h ⊢
    rw [newestOf_concat hdated]
    exact h last (by simp)

/-- A store opened over the records of some events shows just these events. -/
theorem shows_restored {e : Engine} {marker : Option ℕ} {records : List Event}
    (h : Holds e.committed marker records) (hdated : Dated Event.date records)
    (hkeys : ∀ x ∈ records, x.2.key.length ≤ u32Max) (hpos : ∀ x ∈ records, 0 < x.date) :
    Shows records 0 ⟨e, restoredState marker records⟩ := by
  refine ⟨hdated, hkeys, ?_, marker, ?_⟩
  · show Indexes _ 0 (restoredIndex Index.empty records)
    rw [restoredIndex_eq Index.empty hkeys]
    exact indexes_empty.enter_all hdated hpos
  · have hall : kept 0 records = records :=
      List.filter_eq_self.mpr fun x hx => decide_eq_true (.inl (hpos x hx))
    rw [hall]
    exact h

end Hadar.Mvcc
