import Hadar.Analysis.Histories
import Hadar.Lib.OrderedMap

/-!
# The index against the events

Key by key the index is the trimmed replay of the key's events. This holds of the empty
index, entering an event past the watermark keeps it, and so does compaction, which drops
exactly the revisions the trimming takes away.
-/

set_option autoImplicit false

namespace Hadar.Mvcc

open Hadar.Lib Hadar.Storage Std

/-- The generations of a key, newest first. -/
def Index.newest (index : Index) (key : Bytes) : List Generation :=
  ((index.keys[key]?).getD ⟨[]⟩).generations.reverse

namespace Index

/-! ## One key at a time -/

@[simp] theorem newest_empty (key : Bytes) : Index.empty.newest key = [] := by
  simp [newest, empty]

/-- What inserting a history does to each key's generations. -/
theorem newest_insert {index index' : Index} {key : Bytes} {h : History}
    (hkeys : index'.keys = index.keys.insert key h) (k : Bytes) :
    index'.newest k = if key = k then h.generations.reverse else index.newest k := by
  unfold newest
  rw [hkeys, ExtTreeMap.getElem?_insert]
  by_cases hk : key = k
  · simp [hk]
  · have hne : compare key k ≠ .eq := fun h => hk (LawfulEqCmp.eq_of_compare h)
    rw [if_neg hne, if_neg hk]

theorem newest_put (index : Index) (key k : Bytes) (revision : Revision) :
    (index.put key revision).newest k =
      if key = k then putIn revision (index.newest k) else index.newest k := by
  have hkeys : (index.put key revision).keys =
    index.keys.insert key (((index.keys[key]?).getD ⟨[]⟩).put revision) := rfl
  rw [newest_insert hkeys, put_reverse]
  by_cases hk : key = k
  · rw [if_pos hk, if_pos hk, newest, hk]
  · rw [if_neg hk, if_neg hk]

theorem newest_tombstone (index : Index) (key k : Bytes) (revision : Revision) :
    (index.tombstone key revision).2.newest k =
      if key = k then tombstoneIn revision (index.newest k) else index.newest k := by
  unfold tombstone
  cases hkey : index.keys[key]? with
  | none =>
    by_cases hk : key = k
    · subst hk
      rw [if_pos rfl]
      simp [newest, hkey, tombstoneIn]
    · rw [if_neg hk]
  | some history =>
    have hkeys : ∀ kept, (⟨index.keys.insert key (history.tombstone revision).2, true, kept⟩ :
        Index).keys = index.keys.insert key (history.tombstone revision).2 := fun _ => rfl
    dsimp only
    rw [newest_insert (hkeys _), tombstone_reverse]
    by_cases hk : key = k
    · subst hk
      simp [newest, hkey]
    · rw [if_neg hk, if_neg hk]

/-- Entering a mutation changes the generations of its key alone.
SOURCE: crates/mvcc/src/store.rs:199-208 -/
theorem newest_enter (index : Index) (e : Event) (k : Bytes) :
    (index.enter e.2 e.1).newest k =
      if e.2.key = k then enterIn (index.newest k) e else index.newest k := by
  obtain ⟨revision, mutation⟩ := e
  cases mutation with
  | put key value => exact newest_put ..
  | delete key => exact newest_tombstone ..

/-- The map gets its root with a put: a deletion needs an entry that is there.
SOURCE: crates/mvcc/src/index.rs:52-93 -/
theorem rooted_enter {index : Index} {mutation : Mutation} {revision : Revision}
    (h : (index.enter mutation revision).rooted = true) :
    index.rooted = true ∨ mutation.isDelete = false := by
  cases mutation with
  | put key value => exact .inr rfl
  | delete key =>
    refine .inl ?_
    rw [enter, tombstone] at h
    cases hkey : index.keys[key]? with
    | none => rwa [hkey] at h
    | some history =>
      cases hrooted : index.rooted with
      | true => rfl
      | false =>
        rw [index.unrooted hrooted] at hkey
        simp at hkey

theorem rooted_enter_all {index : Index} {events : List Event}
    (h : (events.foldl (fun index e => index.enter e.2 e.1) index).rooted = true) :
    index.rooted = true ∨ ∃ e ∈ events, e.2.isDelete = false := by
  induction events generalizing index with
  | nil => exact .inl h
  | cons e rest ih =>
    rcases ih h with hrooted | ⟨x, hx, hput⟩
    · exact (rooted_enter hrooted).imp_right fun hput => ⟨e, List.mem_cons_self .., hput⟩
    · exact .inr ⟨x, List.mem_cons_of_mem _ hx, hput⟩

/-- Compaction trims every key's generations.
SOURCE: crates/mvcc/src/index.rs:115-121 -/
theorem newest_compact (index : Index) (at_ : ℕ) (k : Bytes) (hchain : Chain (index.newest k)) :
    (index.compact at_).1.newest k = trim at_ (index.newest k) := by
  unfold newest compact at *
  dsimp only
  rw [ExtTreeMap.getElem?_filterMap']
  cases hk : index.keys[k]? with
  | none => rfl
  | some history =>
    simp only [hk, Option.getD_some] at hchain
    simp only [Option.bind_some, Option.getD_some]
    rw [← compact_reverse history at_ hchain]
    split
    · rename_i hempty
      simp [List.isEmpty_iff.mp hempty]
    · rfl

/-- Compaction drops, of all keys together, what the trimming takes away.
SOURCE: crates/mvcc/src/index.rs:115-121 -/
theorem mem_compact_dropped (index : Index) (at_ : ℕ) (hchain : ∀ k, Chain (index.newest k))
    (rev : Revision) :
    rev ∈ (index.compact at_).2 ↔
      ∃ k, rev ∈ revsOf (index.newest k) ∧ rev ∉ revsOf (trim at_ (index.newest k)) := by
  have hentry : ∀ k history, index.keys[k]? = some history →
      index.newest k = history.generations.reverse := by
    intro k history hk
    simp [newest, hk]
  simp only [compact, List.mem_flatMap]
  constructor
  · rintro ⟨⟨k, history⟩, hmem, hrev⟩
    have hnewest := hentry k history (ExtTreeMap.mem_toList_iff_getElem?_eq_some.mp hmem)
    refine ⟨k, ?_⟩
    rw [hnewest]
    exact (mem_dropped history at_ (hnewest ▸ hchain k) rev).mp hrev
  · rintro ⟨k, hin, hout⟩
    cases hk : index.keys[k]? with
    | none => simp [newest, hk] at hin
    | some history =>
      have hnewest := hentry k history hk
      rw [hnewest] at hin hout
      exact ⟨(k, history), ExtTreeMap.mem_toList_iff_getElem?_eq_some.mpr hk,
        (mem_dropped history at_ (hnewest ▸ hchain k) rev).mpr ⟨hin, hout⟩⟩

/-! ## Reading the index -/

/-- What a range finds lies in ascending key order. -/
theorem ascending_range (index : Index) (bounds : Bounds) (at_ : ℕ) :
    Ascending compare (index.range bounds at_) := by
  unfold range entriesIn Ascending
  have hasc : Ascending compare (index.keys.toList.filter fun p => bounds.contains p.1) :=
    List.Pairwise.sublist List.filter_sublist (OrderedMap.ascending_toList index.keys)
  refine List.Pairwise.filterMap _ (fun a b hab p hp q hq => ?_) hasc
  obtain ⟨x, -, rfl⟩ := Option.map_eq_some_iff.mp hp
  obtain ⟨y, -, rfl⟩ := Option.map_eq_some_iff.mp hq
  exact hab

/-- A range finds what a range over everything does, of the keys within bounds.
SOURCE: crates/mvcc/src/index.rs:96-104 -/
theorem range_eq_filter (index : Index) (bounds : Bounds) (at_ : ℕ) :
    index.range bounds at_ =
      (index.range Bounds.all at_).filter fun p => bounds.contains p.1 := by
  have hall : (index.keys.toList.filter fun p => Bounds.all.contains p.1) = index.keys.toList :=
    List.filter_eq_self.mpr fun _ _ => rfl
  unfold range entriesIn
  rw [hall, List.filter_filterMap, List.filterMap_filter]
  refine List.filterMap_congr fun p _ => ?_
  dsimp only
  rcases p.2.read at_ with _ | found
  · rw [Option.map_none, Option.filter_none, ite_self]
  · rw [Option.map_some, Option.filter_some]

/-- A range finds the keys within bounds that a read of their generations finds.
SOURCE: crates/mvcc/src/index.rs:96-104 -/
theorem mem_range (index : Index) (bounds : Bounds) (at_ : ℕ)
    (hchain : ∀ k, Chain (index.newest k)) (key : Bytes) (found : Found) :
    (key, found) ∈ index.range bounds at_ ↔
      bounds.contains key = true ∧ readIn at_ (index.newest key) = some found := by
  have hread : ∀ history, index.keys[key]? = some history →
      history.read at_ = readIn at_ (index.newest key) := by
    intro history hk
    have hnewest : index.newest key = history.generations.reverse := by simp [newest, hk]
    have hch := hchain key
    rw [hnewest] at hch ⊢
    exact read_eq history at_ fun g hg => chain_revs hch g (List.mem_reverse.mpr hg)
  simp only [range, entriesIn, List.mem_filterMap, List.mem_filter, Prod.exists,
    Option.map_eq_some_iff, Prod.mk.injEq]
  constructor
  · rintro ⟨k, history, ⟨hmem, hb⟩, found', hfound, rfl, rfl⟩
    have hat := ExtTreeMap.mem_toList_iff_getElem?_eq_some.mp hmem
    exact ⟨hb, (hread history hat).symm.trans hfound⟩
  · rintro ⟨hb, hfound⟩
    cases hk : index.keys[key]? with
    | none => simp [newest, hk, readIn] at hfound
    | some history =>
      exact ⟨key, history, ⟨ExtTreeMap.mem_toList_iff_getElem?_eq_some.mpr hk, hb⟩, found,
        (hread history hk).trans hfound, rfl, rfl⟩

end Index

/-! ## The index a list of events leaves -/

/-- The index holds, of every key, the trimmed replay of the key's events. -/
def Indexes (events : List Event) (watermark : ℕ) (index : Index) : Prop :=
  ∀ k, index.newest k = trim watermark (replayIn (eventsOf events k))

theorem eventsOf_append (l r : List Event) (k : Bytes) :
    eventsOf (l ++ r) k = eventsOf l k ++ eventsOf r k := List.filter_append ..

theorem dated_eventsOf {events : List Event} (hdated : Dated Event.date events) (k : Bytes) :
    Dated Event.date (eventsOf events k) := hdated.sublist List.filter_sublist

theorem Indexes.chain {events : List Event} {w : ℕ} {index : Index} (h : Indexes events w index)
    (hdated : Dated Event.date events) (k : Bytes) : Chain (index.newest k) := by
  rw [h k]
  exact chain_trim (chain_replayIn (dated_eventsOf hdated k))

theorem indexes_empty : Indexes [] 0 Index.empty := fun k => by
  simp [eventsOf, replayIn, trim]

/-- Entering an event past the watermark. -/
theorem Indexes.enter {events : List Event} {w : ℕ} {index : Index} {e : Event}
    (h : Indexes events w index) (hdated : Dated Event.date (events ++ [e])) (hw : w < e.date) :
    Indexes (events ++ [e]) w (index.enter e.2 e.1) := by
  intro k
  rw [Index.newest_enter, eventsOf_append, h k]
  by_cases hk : e.2.key = k
  · have hone : eventsOf [e] k = [e] := by simp [eventsOf, hk]
    rw [if_pos hk, hone, replayIn_concat,
      trim_enterIn (chain_replayIn (dated_eventsOf hdated.append_left k)) hw]
  · have hnone : eventsOf [e] k = [] := by simp [eventsOf, hk]
    rw [if_neg hk, hnone, List.append_nil]

/-- Entering a batch past the watermark. -/
theorem Indexes.enter_all {events batch : List Event} {w : ℕ} {index : Index}
    (h : Indexes events w index) (hdated : Dated Event.date (events ++ batch))
    (hw : ∀ e ∈ batch, w < e.date) :
    Indexes (events ++ batch) w (batch.foldl (fun index e => index.enter e.2 e.1) index) := by
  induction batch generalizing events index with
  | nil => simpa using h
  | cons e rest ih =>
    have hassoc : events ++ e :: rest = (events ++ [e]) ++ rest := by simp
    rw [hassoc] at hdated ⊢
    refine ih (h.enter hdated.append_left (hw e (List.mem_cons_self ..))) hdated fun x hx => ?_
    exact hw x (List.mem_cons_of_mem _ hx)

/-- Compacting moves the watermark, unless it lies past that already. -/
theorem Indexes.compact {events : List Event} {w : ℕ} {index : Index}
    (h : Indexes events w index) (hdated : Dated Event.date events) (at_ : ℕ) :
    Indexes events (max w at_) (index.compact at_).1 := by
  intro k
  rw [Index.newest_compact index at_ k (h.chain hdated k), h k,
    trim_trim_max w at_ (chain_replayIn (dated_eventsOf hdated k))]

/-- A read at or past the watermark finds what is told of the key's life at that date. -/
theorem Indexes.readIn_newest {events : List Event} {w at_ : ℕ} {index : Index}
    (h : Indexes events w index) (hdated : Dated Event.date events) (hw : w ≤ at_) (k : Bytes) :
    readIn at_ (index.newest k) = foundIn (lifeAt events at_ k) := by
  rw [h k, readIn_trim (chain_replayIn (dated_eventsOf hdated k)) hw,
    readIn_replayIn (dated_eventsOf hdated k)]
  rfl

end Hadar.Mvcc
