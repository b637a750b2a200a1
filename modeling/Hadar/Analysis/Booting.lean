import Hadar.Analysis.Following
import Hadar.Interface.Crash

/-!
# Restarts

Between processes there are the segments and the commit the engine is at. A restart opens the
store where that commit was written, replays the rest of the log in one batch, and cuts off what
follows the last record. It ends in step with the log it found, whatever commit it began at.
-/

set_option autoImplicit false

namespace Hadar.Wal

open Hadar.Lib Hadar.Lib.Prog Hadar.Storage Hadar.Mvcc Std

variable [Crc32]

/-- A directory and an engine that a log can be restored from. -/
structure Resting (disk : Disk) (engine : Engine) (log : List Mutation) (start : ℕ)
    (older : List (List Mutation)) (active : List Mutation) (torn : Bytes) : Prop where
  segments : disk.segments = laidOut start older active torn
  written : Written older active torn
  start_le : start ≤ log.length
  holds : log.drop start = older.flatten ++ active
  encodable : ∀ m ∈ log, Encodable m
  backed : Backed engine log start
  durable : engine.durable ≤ engine.commits.length

/-- Every file's bytes are on stable storage. -/
def Flushed (d : Disk) : Prop := ∀ p ∈ d.files.toList, p.2.flushed = p.2.data

section Resting

variable {disk : Disk} {engine : Engine} {log : List Mutation} {start : ℕ}
  {older : List (List Mutation)} {active : List Mutation} {torn : Bytes}

/-- The active segment's file is the last one. -/
theorem Resting.exists_file (h : Resting disk engine log start older active torn) :
    ∃ files file, disk.files.toList = files ++ [(start + older.flatten.length, file)] ∧
      files.map (fun p => (p.1, p.2.data)) = sealedFrom start older ∧
      file.data = recordsOf active ++ torn :=
  exists_last_file h.segments

theorem Resting.logEnd (h : Resting disk engine log start older active torn) :
    logEnd disk.segments = log.length := by
  have hlength := congrArg List.length h.holds
  have hle := h.start_le
  rw [List.length_drop] at hlength
  rw [h.segments, logEnd_laidOut h.written]
  omega

theorem Resting.past (h : Resting disk engine log start older active torn) {n : ℕ}
    (hn : start ≤ n) : past n disk.segments = log.drop n := by
  rw [h.segments, past_laidOut h.written, ← h.holds, List.drop_drop, Nat.add_sub_cancel' hn]

theorem Resting.tailOf (h : Resting disk engine log start older active torn) :
    tailOf disk.segments =
      some ⟨start + older.flatten.length, (recordsOf active).length⟩ := by
  rw [h.segments, tailOf_laidOut h.written]

/-- Recovery brings the store to the end of the log, whatever part of it it had applied.
SOURCE: crates/wal/src/wal.rs:197-257 -/
theorem Resting.ends_recover {h : Host} (hrest : Resting h.disk h.store.engine log start older
      active torn) {n : ℕ} (hsnapshot : Snapshot h.store.engine.committed log n)
    (hstart : start ≤ n) (hstate : h.store.state = stateOf (log.take n)) :
    Ends recover h
      (fun tail h' => tail = some ⟨start + older.flatten.length, (recordsOf active).length⟩ ∧
        h.disk.Later h'.disk ∧ Tracks h'.store log ∧
        Backed h'.store.engine log start ∧
        h'.store.engine.durable ≤ h'.store.engine.commits.length ∧
        h'.store.engine.replies <:+ h.store.engine.replies)
      (fun _ _ => Faults.Refuses h)
      (fun h' => (Faults.Crashes h ∨ i64Max < log.length) ∧ h.disk.Later h'.disk ∧
        h.store.engine.Later h'.store.engine) := by
  have hn : n ≤ log.length := hsnapshot.1
  have hmax : n ≤ i64Max := hsnapshot.2.1
  have hlength : (log.take n).length = n := List.length_take_of_le hn
  have happlied : h.store.state.applied = n := by rw [hstate]; exact hlength
  have htracks : Tracks h.store (log.take n) :=
    ⟨by rw [hlength]; exact hmax, hstate, by rw [hlength]; exact hsnapshot.take (Nat.le_refl n)⟩
  have hreadable : Readable h.disk.segments := hrest.segments ▸ readable_laidOut hrest.written
  have hreach : n ≤ Wal.logEnd h.disk.segments := by rw [hrest.logEnd]; exact hn
  refine Wal.ends_recover rfl happlied (fun _ d' hlater hwhy => ?_) (fun d' hlater hwhy => ?_)
    (fun d' hlater _ _ hnone => ?_) fun d' hlater _ _ _ => ?_
  · rcases hwhy with hrefuses | hbad
    · exact .inl hrefuses
    · exact absurd ⟨hreadable, hreach⟩ hbad
  · exact ⟨.inl (.inl hwhy), hlater, Engine.Later.refl _⟩
  · -- the store had applied everything
    rw [hrest.past hstart, List.drop_eq_nil_iff] at hnone
    have hall : log.take n = log := List.take_of_length_le hnone
    rw [hall] at htracks
    exact ⟨hrest.tailOf, hlater, htracks, hrest.backed, hrest.durable, List.suffix_refl _⟩
  · rw [hrest.past hstart, hrest.logEnd]
    have hends := htracks.ends_apply (log.drop n)
    rw [List.take_append_drop] at hends
    refine Ends.mono hends (fun _ s hs => ?_) (fun _ s hs => .inr (hs.2.resolve_right id))
      fun s hs => ⟨?_, hlater, hs.1.engine⟩
    · obtain ⟨-, htracks', contents, hsnapshot', hcommits, hdurable, hreplies⟩ := hs
      refine ⟨hrest.tailOf, hlater, htracks',
        hrest.backed.commit hcommits hdurable hsnapshot' hrest.start_le, ?_, hreplies⟩
      have := hrest.durable
      rw [hcommits, hdurable, List.length_cons]
      omega
    · exact hs.2.imp_left .inr

/-- Opening ends in step with the log that is there.
SOURCE: crates/wal/src/wal.rs:113-139 -/
theorem Resting.ends_openWith {h : Host} (hrest : Resting h.disk h.store.engine log start older
      active torn) {n : ℕ} (hsnapshot : Snapshot h.store.engine.committed log n)
    (hstart : start ≤ n) (hstate : h.store.state = stateOf (log.take n)) (options : Options) :
    Ends (openWith options) h
      (fun segment h' => Follows ⟨h', segment, 0⟩ log start older active [] ∧
        segment.poisoned = false ∧ (Flushed h.disk → Flushed h'.disk))
      (fun _ _ => Faults.Refuses h)
      (fun h' => (Faults.Crashes h ∨ i64Max < log.length) ∧
        Backed h'.store.engine log start ∧
        h'.store.engine.durable ≤ h'.store.engine.commits.length ∧
        (h'.disk.files.toList = h.disk.files.toList ∨ ∀ files file, h.disk.files.toList =
            files ++ [(start + older.flatten.length, file)] →
          h'.disk.files.toList = files ++ [(start + older.flatten.length,
            { file with data := recordsOf active })])) := by
  obtain ⟨files, file, hlist, hsealed, hdata⟩ := hrest.exists_file
  refine ends_bind.mpr (ends_zoom.mpr (Ends.mono reads_createDir (fun (_ : Unit) d1 h1 => ?_)
    (fun _ d1 h1 => .inl (h1.2.resolve_right id)) fun d1 h1 => ?_))
  · have hlater1 : h.disk.Later d1 := h1.2
    have hrest1 : Resting d1 h.store.engine log start older active torn :=
      { hrest with segments := by rw [Disk.segments, hlater1.files]; exact hrest.segments }
    refine ends_bind.mpr (Ends.mono (hrest1.ends_recover (h := ⟨d1, h.store⟩) hsnapshot hstart
      hstate) (fun tail h2 hok => ?_) (fun _ _ hrefuses => ?_) fun h2 hdead => ?_)
    · obtain ⟨rfl, hlater2, htracks, hbacked, hdurable, -⟩ := hok
      have hlater : h.disk.Later h2.disk := hlater1.trans hlater2
      have hlist2 : h2.disk.files.toList = files ++ [(start + older.flatten.length, file)] := by
        rw [hlater.files, hlist]
      -- the tail is reopened and cut
      refine ends_zoom.mpr (Ends.mono (ends_reopen hlist2 hdata _) (fun segment d3 h3 => ?_)
        (fun _ d3 h3 => .inl (Faults.refuses (σ := Disk) hlater h3.1)) fun d3 h3 => ?_)
      · obtain ⟨rfl, hlist3⟩ := h3
        refine ⟨⟨⟨?_, ⟨hrest.written.older, hrest.written.active, torn_nil⟩, rfl, rfl,
          fun hne => absurd rfl hne, fun hne => absurd rfl hne⟩, hrest.start_le, hrest.holds,
          hrest.encodable, htracks, hbacked, hdurable⟩, rfl, fun hflushed p hp => ?_⟩
        · exact segments_of_files hlist3 hsealed rfl (List.append_nil _).symm
        · rw [hlist3] at hp
          rcases List.mem_append.mp hp with hp | hp
          · exact hflushed p (by rw [hlist]; exact List.mem_append_left _ hp)
          · rw [List.mem_singleton.mp hp]
      · refine ⟨.inl (.inl (Faults.crashes (σ := Disk) hlater h3.1)), hbacked, hdurable, ?_⟩
        rcases h3.2 with hsame | hshort
        · exact .inl (by rw [hsame, hlist])
        · refine .inr fun files' file' hlist' => ?_
          rw [hlist] at hlist'
          obtain ⟨rfl, hlast⟩ := List.append_inj' hlist' rfl
          obtain rfl := (Prod.mk.inj (List.cons.inj hlast).1).2
          exact hshort
    · exact hrefuses.imp_left (Faults.refuses (σ := Disk) hlater1)
    · obtain ⟨hwhy, hdisk, hengine⟩ := hdead
      refine ⟨hwhy.imp_left (Or.imp_left (Faults.crashes (σ := Disk) hlater1)),
        hrest.backed.later hengine, ?_, .inl ?_⟩
      · rw [hengine.commits, hengine.durable]; exact hrest.durable
      · rw [hdisk.files, hlater1.files]
  · exact ⟨.inl (.inl (h1.2.resolve_right id)), hrest.backed, hrest.durable,
      .inl (by rw [Disk.Later.files h1.1])⟩

end Resting

omit [Crc32] in
/-- A new segment in an empty directory.
SOURCE: crates/wal/src/segment.rs:41-51 -/
theorem ends_create_empty {d : Disk} (hempty : d.files.toList = []) (limit : ℕ) :
    Ends (Segment.create 0 limit) d
      (fun segment d' => segment = ⟨0, 0, limit, false⟩ ∧ d'.files.toList = [(0, ⟨[], []⟩)])
      (Fails False d) (Stops False d) := by
  have hfresh : d.files.contains 0 = false :=
    OrderedMap.contains_eq_false fun file hfile => List.not_mem_nil (hempty ▸ hfile)
  refine Ends.mono (ends_create d 0 limit) (fun segment d' hcreated => ?_)
    (fun _ _ hfailed => hfailed.imp_right (Or.imp (fun ⟨cut, hcut⟩ => refuses_of_headD hcut)
      fun htaken => ?_)) fun _ hdead => hdead.imp_right fun ⟨cut, hcut⟩ => .inl (crashes_of_headD hcut)
  · obtain ⟨rfl, -, -, -, hfiles⟩ := hcreated
    have hlast := OrderedMap.toList_insert_last (m := d.files) (k := 0) (v := (⟨[], []⟩ : File))
      (by rw [hempty]; simp)
    refine ⟨rfl, ?_⟩
    rw [hfiles, hlast, hempty]
    rfl
  · exact Bool.false_ne_true (hfresh.symm.trans htaken)

/-- Opening in an empty directory begins a log.
SOURCE: crates/wal/src/wal.rs:113-139 -/
theorem ends_openWith_empty {h : Host} (hempty : h.disk.files.toList = [])
    (hsnapshot : Snapshot h.store.engine.committed [] 0) (hbacked : Backed h.store.engine [] 0)
    (hdurable : h.store.engine.durable ≤ h.store.engine.commits.length)
    (hstate : h.store.state = stateOf []) (options : Options) :
    Ends (openWith options) h
      (fun segment h' => Follows ⟨h', segment, 0⟩ [] 0 [] [] [] ∧ segment.poisoned = false ∧
        Flushed h'.disk)
      (fun _ _ => Faults.Refuses h)
      (fun h' => Faults.Crashes h ∧ h'.store = h.store ∧ h'.disk.files.toList = []) := by
  refine ends_bind.mpr (ends_zoom.mpr (Ends.mono reads_createDir (fun (_ : Unit) d1 h1 => ?_)
    (fun _ d1 h1 => .inl (h1.2.resolve_right id))
    fun d1 h1 => ⟨.inl (h1.2.resolve_right id), rfl, by rw [Disk.Later.files h1.1, hempty]⟩))
  have hlater1 : h.disk.Later d1 := h1.2
  have hempty1 : d1.files.toList = [] := by rw [hlater1.files, hempty]
  have hsegments : d1.segments = [] := by rw [Disk.segments, hempty1]; rfl
  have happlied : h.store.state.applied = 0 := by rw [hstate]; rfl
  refine ends_bind.mpr (Wal.ends_recover (h := ⟨d1, h.store⟩) hsegments happlied
    (fun _ d2 _ hwhy => ?_)
    (fun d2 h2 hwhy => ⟨.inl (Faults.crashes (σ := Disk) hlater1 hwhy), rfl, ?_⟩)
    (fun d2 h2 _ _ _ => ?_) fun _ _ _ _ hsome => absurd rfl hsome)
  · rcases hwhy with hrefuses | hbad
    · exact .inl (Faults.refuses (σ := Disk) hlater1 hrefuses)
    · exact absurd ⟨trivial, Nat.le_refl 0⟩ hbad
  · rw [Disk.Later.files h2, hempty1]
  · have hlater : h.disk.Later d2 := hlater1.trans h2
    have hempty2 : d2.files.toList = [] := by rw [hlater.files, hempty]
    refine ends_zoom.mpr (Ends.mono (ends_create_empty hempty2 _) (fun segment d3 h3 => ?_)
      (fun _ d3 h3 => .inl (Faults.refuses (σ := Disk) hlater (h3.2.resolve_right id)))
      fun d3 h3 => ⟨.inl (Faults.crashes (σ := Disk) hlater (h3.2.resolve_right id)), rfl, ?_⟩)
    · obtain ⟨rfl, hlist⟩ := h3
      have hplaced : Placed ⟨⟨d3, h.store⟩, ⟨0, 0, options.segmentLimit, false⟩, 0⟩ 0 [] [] [] :=
        ⟨by rw [Disk.segments, hlist]; rfl, ⟨by simp, by simp, torn_nil⟩, rfl, rfl,
          fun hne => absurd rfl hne, fun hne => absurd rfl hne⟩
      refine ⟨⟨hplaced, Nat.le_refl 0, rfl, by simp, ⟨Nat.zero_le _, hstate, hsnapshot⟩, hbacked,
        hdurable⟩, rfl, fun p hp => ?_⟩
      rw [hlist] at hp
      rw [List.mem_singleton.mp hp]
    · rw [Disk.Later.files h3.1, hempty2]

end Hadar.Wal
