import Hadar.Analysis.Opening

/-!
# A store that follows a log

The log applies its records in order and never compacts the store, so what the store is at
depends on nothing but the records applied so far, and what it committed at some earlier point
is what it would hold had it stopped there.
-/

set_option autoImplicit false

namespace Hadar.Mvcc

open Hadar.Lib Hadar.Lib.Prog Hadar.Storage Std

/-- The state of a store that has applied a log and nothing else. -/
def stateOf (log : List Mutation) : State :=
  (⟨Index.empty, Revision.zero, 0, 0⟩ : State).entered (stamped log) (revisionOf log.length)
    log.length

/-- The newest revision of a log's records is the last one's. -/
theorem newestOf_stamped {log : List Mutation} (hcount : log.length ≤ i64Max) :
    newestOf Revision.zero (stamped log) = revisionOf log.length := by
  have hdated := dated_stamped hcount
  rcases List.eq_nil_or_concat log with rfl | ⟨front, m, rfl⟩
  · rfl
  · rw [List.concat_eq_append] at hdated ⊢
    rw [stamped_concat] at hdated ⊢
    rw [newestOf_concat hdated, List.length_append, List.length_singleton]

/-- A position is read back as it was written. -/
theorem restored_position {marker : Option ℕ} (h : marker.getD 0 ≤ i64Max) :
    (marker.map (· % 2 ^ 64)).getD 0 = marker.getD 0 := by
  have hlt : i64Max < 2 ^ 64 := by decide
  cases marker with
  | none => rfl
  | some position =>
    rw [Option.getD_some] at h
    rw [Option.map_some, Option.getD_some, Option.getD_some]
    exact Nat.mod_eq_of_lt (by omega)

/-- Contents written when the store had applied the first `n` records of a log. -/
def Snapshot (contents : Keyspace) (log : List Mutation) (n : ℕ) : Prop :=
  n ≤ log.length ∧ n ≤ i64Max ∧
    ∃ marker : Option ℕ, marker.getD 0 = n ∧ Holds contents marker (stamped (log.take n))

/-- The position contents were written with. -/
def markerOf (contents : Keyspace) : ℕ := (contents[appliedKey]?.bind decodePosition).getD 0

section Snapshot

variable {contents : Keyspace} {log : List Mutation} {n : ℕ}

theorem snapshot_empty (log : List Mutation) : Snapshot ∅ log 0 :=
  ⟨Nat.zero_le _, Nat.zero_le _, none, rfl, by rw [List.take_zero]; exact holds_empty⟩

/-- What was written stays where it was when the log grows. -/
theorem Snapshot.append (h : Snapshot contents log n) (batch : List Mutation) :
    Snapshot contents (log ++ batch) n := by
  obtain ⟨hle, hmax, marker, hmarker, hholds⟩ := h
  refine ⟨by rw [List.length_append]; omega, hmax, marker, hmarker, ?_⟩
  rwa [List.take_append_of_le_length hle]

/-- What was written depends on no record past it. -/
theorem Snapshot.take (h : Snapshot contents log n) {k : ℕ} (hk : n ≤ k) :
    Snapshot contents (log.take k) n := by
  obtain ⟨hle, hmax, marker, hmarker, hholds⟩ := h
  refine ⟨by rw [List.length_take]; omega, hmax, marker, hmarker, ?_⟩
  rwa [List.take_take, Nat.min_eq_left hk]

theorem Snapshot.markerOf (h : Snapshot contents log n) : markerOf contents = n := by
  obtain ⟨-, hmax, marker, hmarker, hholds⟩ := h
  rw [Mvcc.markerOf, hholds.lookup_marker]
  cases marker with
  | none => exact hmarker
  | some position =>
    have hposition : position = n := hmarker
    have hlt : i64Max < 2 ^ 64 := by decide
    show ((some (encodePosition position)).bind decodePosition).getD 0 = n
    rw [Option.bind_some, decodePosition_encodePosition, Option.getD_some, hposition]
    exact Nat.mod_eq_of_lt (by omega)

/-- A store opened over a snapshot is where it was when it wrote it. -/
theorem restoredState_eq {marker : Option ℕ} (hmarker : marker.getD 0 = log.length)
    (hfits : Fits log) : restoredState marker (stamped log) = stateOf log := by
  have hkeys : ∀ e ∈ stamped log, e.2.key.length ≤ u32Max :=
    fun e he => hfits.keys e.2 (mem_of_mem_stampedFrom he)
  have hcount := hfits.count
  rw [restoredState, restoredIndex_eq _ hkeys, newestOf_stamped hcount,
    restored_position (by omega), hmarker]
  rfl

/-- Opening over a snapshot, for every list of replies.
SOURCE: crates/mvcc/src/store.rs:66-117 -/
theorem Snapshot.reads_openState {e : Engine} (h : Snapshot e.committed log n)
    (hkeys : ∀ m ∈ log, m.key.length ≤ u32Max) :
    Reads False False openState e (· = stateOf (log.take n)) := by
  obtain ⟨hle, hmax, marker, hmarker, hholds⟩ := h
  have hlength : (log.take n).length = n := List.length_take_of_le hle
  have hfits : Fits (log.take n) :=
    ⟨fun m hm => hkeys m (List.mem_of_mem_take hm), by rw [hlength]; exact hmax⟩
  have hstate := restoredState_eq (by rw [hmarker, hlength]) hfits
  rw [← hstate]
  exact Mvcc.reads_openState hholds

/-- Opening over a snapshot in an engine whose calls all succeed. -/
theorem Snapshot.openStore_eq {e : Engine} (h : Snapshot e.committed log n)
    (hkeys : ∀ m ∈ log, m.key.length ≤ u32Max) (hcalm : e.replies = []) :
    openStore e = (.ok (stateOf (log.take n)), e) := by
  obtain ⟨state, e', hexec, rfl, hlater⟩ := (h.reads_openState hkeys).returns
    (Engine.calm hcalm).1 (Engine.calm hcalm).2
  rw [openStore, hexec, Engine.Later.eq_of_calm hlater hcalm]

/-- The contents after a batch more, with the position moved past it. -/
theorem Snapshot.enter (h : Snapshot contents log log.length) {batch : List Mutation}
    (hcount : (log ++ batch).length ≤ i64Max) :
    Snapshot ((enteredContents contents (stampedFrom log.length batch)).insert appliedKey
      (encodePosition (log ++ batch).length)) (log ++ batch) (log ++ batch).length := by
  obtain ⟨-, -, marker, -, hholds⟩ := h
  rw [List.take_length] at hholds
  have hdated : Dated Event.date (stamped log ++ stampedFrom log.length batch) := by
    rw [← stamped_append]
    exact dated_stamped hcount
  refine ⟨Nat.le_refl _, hcount, some (log ++ batch).length, rfl, ?_⟩
  rw [List.take_length, stamped_append]
  exact (hholds.insert_all hdated).mark _

/-- The contents with the position written again. -/
theorem Snapshot.mark (h : Snapshot contents log log.length) :
    Snapshot (contents.insert appliedKey (encodePosition log.length)) log log.length := by
  obtain ⟨hle, hmax, marker, -, hholds⟩ := h
  exact ⟨hle, hmax, some log.length, rfl, hholds.mark _⟩

end Snapshot

/-- The state after a batch more. -/
theorem stateOf_entered (log batch : List Mutation) :
    (stateOf log).entered (stampedFrom log.length batch)
      (revisionOf (log.length + batch.length)) (log ++ batch).length = stateOf (log ++ batch) := by
  rw [stateOf, stateOf, State.entered, State.entered, State.entered, stamped_append,
    List.foldl_append, List.length_append]

/-! ## Contents to come back to -/

/-- Every commit the engine may come back to was written with a part of the log applied, and
one it may come back to after a crash with at least `start` records applied. -/
def Backed (e : Engine) (log : List Mutation) (start : ℕ) : Prop :=
  ∀ kept, kept <:+ e.commits →
    ∃ n, Snapshot (kept.headD ∅) log n ∧ (e.durable ≤ kept.length → start ≤ n)

theorem backed_empty (log : List Mutation) : Backed Engine.empty log 0 := by
  intro kept hkept
  obtain rfl := List.suffix_nil.mp hkept
  exact ⟨0, snapshot_empty log, fun _ => Nat.le_refl 0⟩

section Backed

variable {e e' : Engine} {log : List Mutation} {start : ℕ}

theorem Backed.append (h : Backed e log start) (batch : List Mutation) :
    Backed e (log ++ batch) start := fun kept hkept => by
  obtain ⟨n, hsnapshot, hstart⟩ := h kept hkept
  exact ⟨n, hsnapshot.append batch, hstart⟩

theorem Backed.later (h : Backed e log start) (hlater : e.Later e') : Backed e' log start := by
  unfold Backed at *
  rw [hlater.commits, hlater.durable]
  exact h

/-- An engine that came back to an earlier commit. -/
theorem Backed.suffix (h : Backed e log start) (hcommits : e'.commits <:+ e.commits)
    (hdurable : e'.durable = e.durable) : Backed e' log start := fun kept hkept => by
  rw [hdurable]
  exact h kept (hkept.trans hcommits)

/-- One more commit. -/
theorem Backed.commit (h : Backed e log start) {contents : Keyspace} {n : ℕ}
    (hcommits : e'.commits = contents :: e.commits) (hdurable : e'.durable = e.durable)
    (hsnapshot : Snapshot contents log n) (hstart : start ≤ n) : Backed e' log start := by
  intro kept hkept
  rw [hcommits] at hkept
  rw [hdurable]
  rcases List.suffix_cons_iff.mp hkept with rfl | hkept
  · exact ⟨n, hsnapshot, fun _ => hstart⟩
  · exact h kept hkept

/-- One more commit, and a durable one: nothing before it need be come back to. -/
theorem Backed.commitDurable {start' : ℕ} (h : Backed e log start) {contents : Keyspace} {n : ℕ}
    (hcommits : e'.commits = contents :: e.commits) (hdurable : e'.durable = e.commits.length + 1)
    (hsnapshot : Snapshot contents log n) (hstart : start' ≤ n) : Backed e' log start' := by
  intro kept hkept
  rw [hcommits] at hkept
  rw [hdurable]
  rcases List.suffix_cons_iff.mp hkept with rfl | hkept
  · exact ⟨n, hsnapshot, fun _ => hstart⟩
  · obtain ⟨j, hj, -⟩ := h kept hkept
    exact ⟨j, hj, fun hle => absurd hkept.length_le (by omega)⟩

/-- What the engine holds now. -/
theorem Backed.committed (h : Backed e log start) (hdurable : e.durable ≤ e.commits.length) :
    ∃ n, Snapshot e.committed log n ∧ start ≤ n := by
  obtain ⟨n, hsnapshot, hstart⟩ := h e.commits (List.suffix_refl _)
  exact ⟨n, hsnapshot, hstart hdurable⟩

end Backed

/-! ## The store -/

/-- The store has applied the log and nothing else. -/
structure Tracks (s : KvStore) (log : List Mutation) : Prop where
  count : log.length ≤ i64Max
  state : s.state = stateOf log
  newest : Snapshot s.engine.committed log log.length

section Tracks

variable {s s' : KvStore} {log : List Mutation}

theorem Tracks.applied (h : Tracks s log) : s.state.applied = log.length := by
  rw [h.state]; rfl

theorem Tracks.current (h : Tracks s log) : s.state.current = revisionOf log.length := by
  rw [h.state]; rfl

/-- The index's map has a root only if the log puts something. -/
theorem Tracks.filled (h : Tracks s log) (hrooted : s.state.index.rooted = true) :
    ∃ m ∈ log, m.isDelete = false := by
  rw [h.state] at hrooted
  obtain ⟨e, he, hput⟩ := (Index.rooted_enter_all hrooted).resolve_left Bool.false_ne_true
  exact ⟨e.2, mem_of_mem_stampedFrom he, hput⟩

theorem Tracks.later (h : Tracks s log) (hlater : s.Later s') : Tracks s' log :=
  ⟨h.count, hlater.state.trans h.state, by rw [hlater.engine.committed]; exact h.newest⟩

/-- A batch of the log is applied as a whole or changes nothing.
SOURCE: crates/mvcc/src/store.rs:171-213 -/
theorem Tracks.ends_apply (h : Tracks s log) (batch : List Mutation) :
    Ends (Mvcc.apply batch (log ++ batch).length) s
      (fun revisions s' => revisions = (stampedFrom log.length batch).map (·.1) ∧
        Tracks s' (log ++ batch) ∧ ∃ contents, Snapshot contents (log ++ batch)
          (log ++ batch).length ∧ s'.engine.commits = contents :: s.engine.commits ∧
          s'.engine.durable = s.engine.durable ∧ s'.engine.replies <:+ s.engine.replies)
      (Fails False s) (Stops (i64Max < (log ++ batch).length) s) := by
  refine Ends.mono (Mvcc.ends_apply h.current h.count batch (log ++ batch).length)
    (fun revisions s' hok => ?_) (fun _ _ h => h) fun _ hdead => ?_
  · obtain ⟨hcount, hrevisions, hstate, hcommits, hdurable, hreplies⟩ := hok
    rw [← List.length_append] at hcount
    have hsnapshot := h.newest.enter hcount
    refine ⟨hrevisions, ⟨hcount, ?_, ?_⟩, _, hsnapshot, hcommits, hdurable, hreplies⟩
    · rw [hstate, h.state, stateOf_entered]
    · rw [Engine.committed, hcommits]
      exact hsnapshot
  · exact ⟨hdead.1, hdead.2.imp_right fun hover => by rwa [List.length_append]⟩

end Tracks

end Hadar.Mvcc
