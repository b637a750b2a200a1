import Hadar.Analysis.Opening
import Hadar.Analysis.Refinement
import Hadar.Interface.Serving

/-!
# What a store over any run keeps

Whatever a run was, the index of the store it leads to is the replay of the store's events, trimmed
at the largest revision a compaction was begun at, and the backend still has a record of every event
that survives there. That is less than representing a map, since the watermark may lie below that
revision, but it is enough for a range to be answered at every revision that is accepted.
-/

set_option autoImplicit false

namespace Hadar.Mvcc

open Hadar.Lib Hadar.Lib.Prog Hadar.Storage Std

/-! ## Contents -/

/-- Contents with the records of dated events. -/
structure Recorded (contents : Keyspace) (records : List Event) : Prop where
  holds : ∃ marker, Holds contents marker records
  dated : Dated Event.date records
  pos : ∀ x ∈ records, 0 < x.date

section Recorded

variable {contents : Keyspace} {records : List Event}

theorem recorded_empty : Recorded ∅ [] :=
  ⟨⟨none, holds_empty⟩, List.Pairwise.nil, fun _ hx => absurd hx List.not_mem_nil⟩

theorem Recorded.mark (h : Recorded contents records) (position : ℕ) :
    Recorded (contents.insert appliedKey (encodePosition position)) records := by
  obtain ⟨marker, hholds⟩ := h.holds
  exact ⟨⟨_, hholds.mark position⟩, h.dated, h.pos⟩

/-- A batch's records join past all others. -/
theorem Recorded.enter {n : ℕ} {batch : List Mutation} (h : Recorded contents records)
    (hle : ∀ x ∈ records, x.date ≤ n) (hfits : n + batch.length ≤ i64Max) :
    Recorded (enteredContents contents (stampedFrom n batch)) (records ++ stampedFrom n batch) := by
  obtain ⟨marker, hholds⟩ := h.holds
  have hdated := dated_append_stampedFrom h.dated hle hfits
  refine ⟨⟨marker, hholds.insert_all hdated⟩, hdated, fun x hx => ?_⟩
  rcases List.mem_append.mp hx with hx | hx
  · exact h.pos x hx
  · exact Nat.zero_lt_of_lt (lt_date_of_mem_stampedFrom hfits hx).1

theorem Recorded.clear (h : Recorded contents records) (gone : List Revision) :
    Recorded (clearedContents contents gone) (records.filter fun e => e.1 ∉ gone) := by
  obtain ⟨marker, hholds⟩ := h.holds
  exact ⟨⟨marker, hholds.remove_all gone⟩, h.dated.sublist List.filter_sublist,
    fun x hx => h.pos x (List.mem_of_mem_filter hx)⟩

/-- What the newest commit left, if there is one. -/
theorem recorded_headD {commits : List Keyspace} (h : ∀ c ∈ commits, ∃ r, Recorded c r) :
    ∃ r, Recorded (commits.headD ∅) r := by
  cases commits with
  | nil => exact ⟨[], recorded_empty⟩
  | cons c rest => exact h c (List.mem_cons_self ..)

/-- Each commit of a compaction is one over records. -/
theorem recorded_clearings {commits : List Keyspace} (h : ∀ c ∈ commits, ∃ r, Recorded c r)
    (cs : List (List Revision)) : ∀ c ∈ clearings commits cs, ∃ r, Recorded c r := by
  induction cs generalizing commits with
  | nil => exact h
  | cons chunk rest ih =>
    refine ih fun c hc => ?_
    rcases List.mem_cons.mp hc with rfl | hc
    · obtain ⟨r, hr⟩ := recorded_headD h
      exact ⟨_, hr.clear chunk⟩
    · exact h c hc

end Recorded

/-! ## What the records tell -/

theorem restored_fst (e : Event) : e.restored.1 = e.1 := by
  obtain ⟨key, value, hdecode⟩ := exists_decodeRecord e.2.key e.2.value
  rw [Event.restored, hdecode, Event.retold]

theorem date_restored (e : Event) : e.restored.date = e.date := by
  rw [Event.date, restored_fst, Event.date]

theorem dies_restored (e : Event) : e.restored.dies = e.dies := by
  obtain ⟨key, value, hdecode⟩ := exists_decodeRecord e.2.key e.2.value
  rw [Event.restored, hdecode, Event.retold]
  cases hdies : e.dies <;> rfl

/-- A record tells its event as opening the store restores it.
SOURCE: crates/mvcc/src/store.rs:91-105 -/
theorem recordedBy_entry (e : Event) : recordedBy e.entry = some e.restored := by
  obtain ⟨key, value, hdecode⟩ := exists_decodeRecord e.2.key e.2.value
  have hkey : parseKey e.entry.1 = some (e.1, e.dies) := parseKey_backendKey _ _
  have hvalue : decodeRecord e.entry.2 = some (key, value) := hdecode
  rw [recordedBy, hkey, hvalue, Event.restored, hdecode, Event.retold]
  rfl

theorem Recorded.recordedIn {contents : Keyspace} {records : List Event}
    (h : Recorded contents records) : recordedIn contents = records.map Event.restored := by
  obtain ⟨marker, hholds⟩ := h.holds
  rw [Mvcc.recordedIn, entriesIn_all hholds, List.filterMap_map, ← List.filterMap_eq_map]
  exact List.filterMap_congr fun e _ => recordedBy_entry e

/-! ## The invariant -/

/-- What holds of a store, the events it tells of and the largest revision compacted at. -/
structure Stands (events : List Event) (high : ℕ) (s : KvStore) : Prop where
  dated : Dated Event.date events
  date_le : ∀ e ∈ events, e.date ≤ s.state.current.main
  index : Indexes events high s.state.index
  high_le : high ≤ s.state.current.main
  compacted_le : s.state.compacted ≤ high
  commits : ∀ c ∈ s.engine.commits, ∃ records, Recorded c records
  contents : ∃ records, Recorded s.engine.committed records ∧
    (∀ x ∈ records, x.date ≤ s.state.current.main) ∧
    ∀ e ∈ kept high events, ∃ x ∈ records, x.1 = e.1 ∧ x.dies = e.dies

namespace Stands

variable {events : List Event} {high : ℕ} {s : KvStore}

theorem fresh : Stands [] 0 KvStore.fresh where
  dated := List.Pairwise.nil
  date_le := fun _ he => absurd he List.not_mem_nil
  index := indexes_empty
  high_le := le_rfl
  compacted_le := le_rfl
  commits := fun _ hc => absurd hc List.not_mem_nil
  contents := ⟨[], recorded_empty, fun _ hx => absurd hx List.not_mem_nil,
    fun _ he => absurd (List.mem_of_mem_filter he) List.not_mem_nil⟩

/-- What holds does not depend on the calls to come. -/
theorem of_eq (h : Stands events high s) {s' : KvStore} (hstate : s'.state = s.state)
    (hcommits : s'.engine.commits = s.engine.commits) : Stands events high s' := by
  refine ⟨h.dated, ?_, ?_, ?_, ?_, ?_, ?_⟩
  · rw [hstate]; exact h.date_le
  · rw [hstate]; exact h.index
  · rw [hstate]; exact h.high_le
  · rw [hstate]; exact h.compacted_le
  · rw [hcommits]; exact h.commits
  · rw [hstate, Engine.committed, hcommits]; exact h.contents

/-- An accepted batch joins the events.
SOURCE: crates/mvcc/src/store.rs:171-213 -/
theorem apply_ok (h : Stands events high s) {batch : List Mutation} {upto : ℕ}
    {revisions : List Revision} {s' : KvStore}
    (ran : (Mvcc.apply batch upto).exec s = (.ok revisions, s')) :
    Stands (events ++ revisions.zip batch) high s' := by
  obtain ⟨hfits, rfl, hstate, hcommits, -⟩ := (ends_apply_any batch upto).of_ok ran
  rw [zip_stampedFrom]
  obtain ⟨records, hrecorded, hle, hkept⟩ := h.contents
  have hmain : s'.state.current.main = s.state.current.main + batch.length := by
    rw [hstate]; exact Revision.main_after hfits
  have hdated := dated_append_stampedFrom h.dated h.date_le hfits
  have hlate : ∀ e ∈ stampedFrom s.state.current.main batch, high < e.date := fun e he =>
    Nat.lt_of_le_of_lt h.high_le (lt_date_of_mem_stampedFrom hfits he).1
  have hentered := (hrecorded.enter hle hfits).mark upto
  refine ⟨hdated, ?_, ?_, ?_, ?_, ?_, records ++ stampedFrom s.state.current.main batch, ?_, ?_,
    ?_⟩
  · rw [hmain]
    exact date_le_append_stampedFrom h.date_le hfits
  · rw [hstate]
    exact h.index.enter_all hdated hlate
  · have := h.high_le
    omega
  · rw [hstate]; exact h.compacted_le
  · rw [hcommits]
    intro c hc
    rcases List.mem_cons.mp hc with rfl | hc
    · exact ⟨_, hentered⟩
    · exact h.commits c hc
  · rw [Engine.committed, hcommits]
    exact hentered
  · rw [hmain]
    exact date_le_append_stampedFrom hle hfits
  · intro e he
    rw [kept_append hdated hlate] at he
    rcases List.mem_append.mp he with he | he
    · obtain ⟨x, hx, hsame⟩ := hkept e he
      exact ⟨x, List.mem_append_left _ hx, hsame⟩
    · exact ⟨e, List.mem_append_right _ he, rfl, rfl⟩

/-- A batch that is not accepted changes nothing.
SOURCE: crates/mvcc/src/store.rs:171-213 -/
theorem apply_error (h : Stands events high s) {batch : List Mutation} {upto : ℕ}
    {stop : Stop Error} {s' : KvStore}
    (ran : (Mvcc.apply batch upto).exec s = (.error stop, s')) : Stands events high s' := by
  have hends := ends_apply_any (s := s) batch upto
  have hlater : s.Later s' := by
    cases stop with
    | error e => exact (hends.of_error ran).1
    | panic => exact (hends.of_dead ran (.inl rfl)).1
    | crash => exact (hends.of_dead ran (.inr rfl)).1
  exact h.of_eq hlater.state hlater.engine.commits

/-- Recording the position durably, or failing to.
SOURCE: crates/mvcc/src/store.rs:148-160 -/
theorem checkpoint (h : Stands events high s) : Stands events high (Mvcc.checkpoint.exec s).2 := by
  have hmark : ∀ s' : KvStore, s'.state = s.state → s'.engine.commits =
      s.engine.committed.insert appliedKey (encodePosition s.state.applied) :: s.engine.commits →
      Stands events high s' := by
    intro s' hstate hcommits
    obtain ⟨records, hrecorded, hle, hkept⟩ := h.contents
    have hmarked := hrecorded.mark s.state.applied
    refine ⟨h.dated, ?_, ?_, ?_, ?_, ?_, records, ?_, ?_, hkept⟩
    · rw [hstate]; exact h.date_le
    · rw [hstate]; exact h.index
    · rw [hstate]; exact h.high_le
    · rw [hstate]; exact h.compacted_le
    · rw [hcommits]
      intro c hc
      rcases List.mem_cons.mp hc with rfl | hc
      · exact ⟨_, hmarked⟩
      · exact h.commits c hc
    · rw [Engine.committed, hcommits]; exact hmarked
    · rw [hstate]; exact hle
  have hlater : ∀ s', s.Later s' → Stands events high s' := fun s' hl =>
    h.of_eq hl.state hl.engine.commits
  refine Ends.left (P := Stands events high) (Ends.mono ends_checkpoint
    (fun _ s' hok => hmark s' hok.2.1 hok.2.2.1) (fun _ s' herr => ?_) fun s' hd => hlater s' hd.1)
  rcases herr.1 with hl | ⟨hstate, hcommits, -⟩
  · exact hlater s' hl
  · exact hmark s' hstate hcommits

/-- A compaction that began takes away no more than what its revision can forget, however it ends.
SOURCE: crates/mvcc/src/store.rs:272-299 -/
theorem compact (h : Stands events high s) {chunk at_ : ℕ} {s' : KvStore}
    (htrimmed : s.Trimmed s' chunk at_) (hle : at_ ≤ s.state.current.main) :
    Stands events (max high at_) s' := by
  obtain ⟨records, hrecorded, hdates, hkept⟩ := h.contents
  obtain ⟨done, rest, hsplit, hcommits⟩ := htrimmed.commits
  have hgone : ∀ rev ∈ done.flatten, rev ∈ (s.state.index.compact at_).2 := by
    intro rev hrev
    rw [← flatten_chunks chunk (s.state.index.compact at_).2, hsplit, List.flatten_append]
    exact List.mem_append_left _ hrev
  refine ⟨h.dated, ?_, ?_, ?_, ?_, ?_, records.filter (fun e => e.1 ∉ done.flatten), ?_, ?_, ?_⟩
  · rw [htrimmed.current]; exact h.date_le
  · rw [htrimmed.index]; exact h.index.compact h.dated at_
  · rw [htrimmed.current]; exact max_le h.high_le hle
  · have := h.compacted_le
    rcases htrimmed.compacted with hc | hc <;> omega
  · rw [hcommits]
    exact recorded_clearings h.commits done
  · rw [Engine.committed, hcommits, headD_clearings]
    exact hrecorded.clear done.flatten
  · rw [htrimmed.current]
    exact fun x hx => hdates x (List.mem_of_mem_filter hx)
  · intro e he
    rw [← kept_compact h.index h.dated at_] at he
    obtain ⟨he, hheld⟩ := List.mem_filter.mp he
    obtain ⟨x, hx, hrev, hdies⟩ := hkept e he
    refine ⟨x, List.mem_filter.mpr ⟨hx, decide_eq_true fun hcut => ?_⟩, hrev, hdies⟩
    exact of_decide_eq_true hheld (hrev ▸ hgone x.1 hcut)

/-- A store opened over a commit tells of what its records do.
SOURCE: crates/mvcc/src/store.rs:66-117 -/
theorem reopen (h : Stands events high s) {commits : List Keyspace} {durable : ℕ}
    {replies : List Reply} {state : State} {e : Engine} (hkept : commits <:+ s.engine.commits)
    (ran : openState.exec ⟨commits, durable, replies⟩ = (.ok state, e)) :
    Stands (recordedIn (commits.headD ∅)) 0 ⟨e, state⟩ := by
  have hcommits : ∀ c ∈ commits, ∃ r, Recorded c r := fun c hc => h.commits c (hkept.subset hc)
  obtain ⟨records, hrecorded⟩ := recorded_headD hcommits
  obtain ⟨marker, hholds⟩ := hrecorded.holds
  obtain ⟨rfl, hlater⟩ := (reads_openState (e := ⟨commits, durable, replies⟩) hholds).of_ok ran
  have hsame : e.commits = commits := hlater.commits
  have hdated : Dated Event.date (records.map Event.restored) := by
    refine List.pairwise_map.mpr (hrecorded.dated.imp fun {a b} hab => ?_)
    rw [date_restored, date_restored]
    exact hab
  have hbelow := le_newestOf hrecorded.dated
  rw [hrecorded.recordedIn]
  refine ⟨hdated, fun x hx => ?_, ?_, Nat.zero_le _, le_rfl, ?_, records, ?_, hbelow,
    fun x hx => ?_⟩
  · obtain ⟨y, hy, rfl⟩ := List.mem_map.mp hx
    rw [date_restored]
    exact hbelow y hy
  · have hpos : ∀ x ∈ records.map Event.restored, 0 < x.date := by
      intro x hx
      obtain ⟨y, hy, rfl⟩ := List.mem_map.mp hx
      rw [date_restored]
      exact hrecorded.pos y hy
    have hindex := indexes_empty.enter_all (by rwa [List.nil_append]) hpos
    rw [List.nil_append, List.foldl_map] at hindex
    simp only [restored_fst] at hindex
    exact hindex
  · rw [hsame]
    exact hcommits
  · rw [Engine.committed, hsame]
    exact hrecorded
  · obtain ⟨y, hy, rfl⟩ := List.mem_map.mp (List.mem_of_mem_filter hx)
    exact ⟨y, hy, (restored_fst y).symm, (dies_restored y).symm⟩

end Stands

/-- What holds holds after any run. -/
theorem Lived.stands {s : KvStore} {events : List Event} {high : ℕ} (h : Lived s events high) :
    Stands events high s := by
  induction h with
  | fresh => exact Stands.fresh
  | faced before replies ih => exact ih.of_eq rfl rfl
  | applied before ran ih => exact ih.apply_ok ran
  | refused before ran ih => exact ih.apply_error ran
  | checkpointed before ih => exact ih.checkpoint
  | @compacted s events high before chunk at_ ih =>
    by_cases haccepts : s.state.accepts at_
    · rw [if_pos haccepts]
      exact ih.compact (trimmed_of_compactBy haccepts.2 haccepts.1 Prod.mk.eta.symm) haccepts.2
    · rw [if_neg haccepts]
      obtain ⟨e, hexec⟩ := exec_compactBy_refused (s := s) chunk at_ (by
        rw [State.accepts] at haccepts
        omega)
      rw [hexec]
      exact ih
  | reopened before kept durable ran ih => exact ih.reopen kept ran

/-! ## Reading -/

/-- The record of what the index found, with the value among some contents. -/
def fetched (contents : Keyspace) (p : Bytes × Found) : Record :=
  ⟨p.1, (((contents[backendKey p.2.modified false]?).bind decodeRecord).map (·.2)).getD [],
    p.2.created, p.2.modified, p.2.version⟩

section Reading

variable {events : List Event} {high at_ : ℕ} {s : KvStore}

/-- Trimmed generations show at any revision only what is in force there of what survives. -/
theorem event_of_readIn (h : Stands events high s) {key : Bytes} {found : Found}
    (hfound : readIn at_ (s.state.index.newest key) = some found) :
    ∃ e ∈ kept high events, e.1 = found.modified ∧ e.dies = false ∧ e.date ≤ at_ ∧
      (at_ ≤ high → inForce Event.date Event.dies high (eventsOf events key) = some e) := by
  have hdated := dated_eventsOf h.dated key
  by_cases hlate : high ≤ at_
  · rw [h.index.readIn_newest h.dated hlate] at hfound
    obtain ⟨e, hforce, hin, hkey, halive, hrev⟩ := inForce_of_foundIn hfound
    refine ⟨e, kept_of_inForce h.dated hlate hforce, hrev, halive, (mem_of_inForce hforce).2.1,
      fun hle => ?_⟩
    rwa [Nat.le_antisymm hle hlate] at hforce
  · -- below the watermark there is only the revision in force at it
    have hmodified : (readIn at_ (s.state.index.newest key)).map (·.modified) =
        some found.modified := by rw [hfound]; rfl
    obtain ⟨hmem, hle⟩ := mem_of_readIn (h.index.chain h.dated key) hmodified
    rw [h.index key] at hmem
    obtain ⟨e, he, hrev⟩ := mem_of_mem_revsOf_replayIn hdated (revsOf_trim_subset hmem)
    rw [← hrev, mem_revsOf_trim_replayIn hdated he] at hmem
    have hdate : e.date ≤ at_ := by
      rw [← hrev] at hle
      exact hle
    have hforce := hmem.2.resolve_left (by omega)
    exact ⟨e, kept_of_inForce h.dated le_rfl hforce, hrev, (mem_of_inForce hforce).2.2, hdate,
      fun _ => hforce⟩

/-- A range is answered at every revision that is accepted, with the records of what the index
finds.
SOURCE: crates/mvcc/src/store.rs:225-261 -/
theorem Stands.reads_range (h : Stands events high s) {bounds : Bounds} {requested : Option ℕ}
    (hresolve : resolve s.state requested = .ok at_) (hb : s.state.index.refuses bounds = false)
    (limit : Option ℕ) :
    Reads False False (range bounds requested limit) s
      (· = capped limit ((s.state.index.range bounds at_).map (fetched s.engine.committed))) := by
  refine reads_range_told hresolve hb limit ?_
  rintro ⟨key, found⟩ hp
  obtain ⟨-, hfound⟩ := (Index.mem_range _ _ _ (h.index.chain h.dated) _ _).mp hp
  obtain ⟨e, hkept, hrev, halive, -⟩ := event_of_readIn h hfound
  obtain ⟨records, hrecorded, -, hheld⟩ := h.contents
  obtain ⟨marker, hholds⟩ := hrecorded.holds
  obtain ⟨x, hx, hxrev, hxdies⟩ := hheld e hkept
  have hraw := hholds.lookup hx
  rw [hxrev, hrev, hxdies, halive] at hraw
  obtain ⟨key', value, hdecode⟩ := exists_decodeRecord x.2.key x.2.value
  have hvalue : (fetched s.engine.committed (key, found)).value = value := by
    rw [fetched, hraw, Option.bind_some, hdecode, Option.map_some, Option.getD_some]
  refine ⟨_, key', hraw, ?_, rfl⟩
  rw [hdecode, hvalue]

/-- What a range shows at a revision that is accepted. -/
theorem Stands.shown_eq (h : Stands events high s) {bounds : Bounds} {requested : Option ℕ}
    (hresolve : resolve s.state requested = .ok at_) (hb : s.state.index.refuses bounds = false)
    (limit : Option ℕ) : s.shown bounds requested limit =
      .ok (capped limit ((s.state.index.range bounds at_).map (fetched s.engine.committed))) := by
  have hcalm : Stands events high (s.facing []) := h.of_eq rfl rfl
  obtain ⟨records, hexec, rfl⟩ := returns_of_calm (hcalm.reads_range hresolve hb limit) rfl
  rw [KvStore.shown, hexec]
  rfl

/-- From the largest revision compacted at on, a range shows the keys that are visible. -/
theorem Stands.mem_range_iff (h : Stands events high s) (hlate : high ≤ at_) (bounds : Bounds)
    (key : Bytes) : (∃ found, (key, found) ∈ s.state.index.range bounds at_) ↔
      bounds.contains key = true ∧ (view events at_ key).isSome = true := by
  rw [view_eq, Option.isSome_map, Option.isSome_iff_exists, exists_and_left.symm]
  refine exists_congr fun found => ?_
  rw [Index.mem_range _ _ _ (h.index.chain h.dated), h.index.readIn_newest h.dated hlate]

end Reading

end Hadar.Mvcc
