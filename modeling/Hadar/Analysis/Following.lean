import Hadar.Analysis.Writing

/-!
# A writer in step with its log

The directory, the append target, the store and the commits the engine may come back to count
records in four places. In step they agree: the segments hold the log from the oldest one's name
on, the store has applied all of it, and a commit a crash may lead back to misses no record that
was taken away.
-/

set_option autoImplicit false

namespace Hadar.Wal

open Hadar.Lib Hadar.Lib.Prog Hadar.Storage Hadar.Mvcc Std

variable [Crc32]

/-- The writer is in step with a log. -/
structure Follows (w : Writer) (log : List Mutation) (start : ℕ) (older : List (List Mutation))
    (active : List Mutation) (torn : Bytes) : Prop where
  placed : Placed w start older active torn
  start_le : start ≤ log.length
  holds : log.drop start = older.flatten ++ active
  encodable : ∀ m ∈ log, Encodable m
  tracks : Tracks w.host.store log
  backed : Backed w.host.store.engine log start
  durable : w.host.store.engine.durable ≤ w.host.store.engine.commits.length

section Follows

variable {w w' : Writer} {log : List Mutation} {start : ℕ} {older : List (List Mutation)}
  {active : List Mutation} {torn : Bytes}

/-- The store is at the end of the log. -/
theorem Follows.applied (h : Follows w log start older active torn) :
    w.host.store.state.applied = start + (older.flatten ++ active).length := by
  have := h.start_le
  rw [h.tracks.applied, ← h.holds, List.length_drop]
  omega

/-- The same log, with other bytes behind it and some calls later. -/
theorem Follows.replaced (h : Follows w log start older active torn) {torn' : Bytes}
    (hplaced : Placed w' start older active torn') (hstore : w.host.store.Later w'.host.store) :
    Follows w' log start older active torn' := by
  refine ⟨hplaced, h.start_le, h.holds, h.encodable, h.tracks.later hstore,
    h.backed.later hstore.engine, ?_⟩
  rw [hstore.engine.commits, hstore.engine.durable]
  exact h.durable

/-- Calls and operations that change nothing. -/
theorem Follows.later (h : Follows w log start older active torn)
    (hfiles : w'.host.disk.files = w.host.disk.files) (hsegment : w'.segment = w.segment)
    (hstore : w.host.store.Later w'.host.store) : Follows w' log start older active torn :=
  h.replaced (h.placed.of_files hfiles hsegment) hstore

/-- A roll-over. -/
theorem Follows.rolled (h : Follows w log start older active torn)
    (hrolled : Rolled w w' start older active torn) :
    ∃ older' active' torn', Follows w' log start older' active' torn' ∧
      w'.host.store = w.host.store ∧ (w'.segment.isFull = false ∨ active' = []) := by
  obtain ⟨older', active', torn', hplaced, hflatten, hstore, hroom⟩ :=
    hrolled.placed h.placed h.applied
  refine ⟨older', active', torn', ⟨hplaced, h.start_le, ?_, h.encodable, ?_, ?_, ?_⟩, hstore,
    hroom⟩
  · rw [h.holds, hflatten]
  · rw [hstore]; exact h.tracks
  · rw [hstore]; exact h.backed
  · rw [hstore]; exact h.durable

/-- A batch that was appended and applied. -/
theorem Follows.extended (h : Follows w log start older active torn) {batch : List Mutation}
    (hplaced : Placed w' start older (active ++ batch) []) (hbatch : ∀ m ∈ batch, Encodable m)
    (htracks : Tracks w'.host.store (log ++ batch)) {contents : Keyspace}
    (hsnapshot : Snapshot contents (log ++ batch) (log ++ batch).length)
    (hcommits : w'.host.store.engine.commits = contents :: w.host.store.engine.commits)
    (hdurable : w'.host.store.engine.durable = w.host.store.engine.durable) :
    Follows w' (log ++ batch) start older (active ++ batch) [] := by
  have hle := h.start_le
  have hlength : (log ++ batch).length = log.length + batch.length := List.length_append
  refine ⟨hplaced, by omega, ?_, fun m hm => ?_, htracks,
    (h.backed.append batch).commit hcommits hdurable hsnapshot (by omega), ?_⟩
  · rw [List.drop_append_of_le_length hle, h.holds, List.append_assoc]
  · rcases List.mem_append.mp hm with hm | hm
    · exact h.encodable m hm
    · exact hbatch m hm
  · have := h.durable
    rw [hcommits, hdurable, List.length_cons]
    omega

/-- A checkpoint, however far it came. -/
theorem Follows.compacted (h : Follows w log start older active torn) {files : List (ℕ × File)}
    {last : ℕ × File} (hlist : w.host.disk.files.toList = files ++ [last])
    (hcompacted : Compacted w.host w'.host files last) (hsegment : w'.segment = w.segment) :
    ∃ start' older', Follows w' log start' older' active torn := by
  have hmark : w.host.store.engine.committed.insert appliedKey
      (encodePosition w.host.store.state.applied) =
      w.host.store.engine.committed.insert appliedKey (encodePosition log.length) := by
    rw [h.tracks.applied]
  have hsnapshot := h.tracks.newest.mark
  have hdurable := h.durable
  -- the store stays where it is, with its position written again
  have htracks : w'.host.store.state = w.host.store.state → w'.host.store.engine.commits =
      w.host.store.engine.committed.insert appliedKey
        (encodePosition w.host.store.state.applied) :: w.host.store.engine.commits →
      Tracks w'.host.store log := fun hstate hcommits =>
    ⟨h.tracks.count, hstate.trans h.tracks.state, by
      rw [Engine.committed, hcommits, hmark]
      exact hsnapshot⟩
  cases hcompacted with
  | untouched disk store =>
    exact ⟨start, older, h.later disk.files hsegment store⟩
  | unsure disk state commits durable calls =>
    refine ⟨start, older, ⟨h.placed.of_files disk.files hsegment, h.start_le, h.holds,
      h.encodable, htracks state commits, ?_, ?_⟩⟩
    · rw [hmark] at commits
      exact h.backed.commit commits durable hsnapshot h.start_le
    · rw [commits, durable, List.length_cons]
      omega
  | taken k files' replies state commits durable calls =>
    have hsplit : older.flatten = (older.take k).flatten ++ (older.drop k).flatten := by
      rw [← List.flatten_append, List.take_append_drop]
    have hlength := congrArg List.length h.holds
    rw [List.length_drop, List.length_append, hsplit, List.length_append] at hlength
    have hle := h.start_le
    have hstart : start + (older.take k).flatten.length ≤ log.length := by
      omega
    refine ⟨start + (older.take k).flatten.length, older.drop k,
      ⟨h.placed.drop hlist files' hsegment, hstart, ?_, h.encodable, htracks state commits, ?_, ?_⟩⟩
    · rw [← List.drop_drop, h.holds, hsplit, List.append_assoc, List.drop_left]
    · rw [hmark] at commits
      exact h.backed.commitDurable commits durable hsnapshot hstart
    · rw [commits, durable, List.length_cons]

end Follows

end Hadar.Wal
