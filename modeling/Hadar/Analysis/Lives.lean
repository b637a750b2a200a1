import Hadar.Analysis.Turns
import Hadar.Analysis.Reopening
import Hadar.Interface.Crc32

/-!
# Recovery over whole lives

What a log and its store have come to, at any point of any life, is one of two things: a writer
in step with everything logged so far, or a directory and an engine at rest that hold a part of
it with nothing settled missing. Every step of a life leads from one to the other, so a restart
always ends, and with the store of exactly the mutations the log holds.
-/

set_option autoImplicit false

namespace Hadar.Mvcc

open Hadar.Lib Hadar.Lib.Prog Hadar.Storage Std

/-- An empty store takes a log whole.
SOURCE: crates/mvcc/src/store.rs:171-213 -/
theorem exists_apply_fresh {log : List Mutation} (h : log.length ≤ i64Max) :
    ∃ revisions s, (apply log log.length).exec KvStore.fresh = (.ok revisions, s) ∧
      s.state = stateOf log ∧ Holds s.engine.committed (some log.length) (stamped log) ∧
      s.engine.replies = [] := by
  have hcalm := Engine.calm (e := KvStore.fresh.engine) rfl
  have hends := ends_apply (s := KvStore.fresh) (n := 0) rfl (Nat.zero_le _) log log.length
  rw [Nat.zero_add] at hends
  obtain ⟨revisions, s, hexec, -, -, hstate, hcommits, -, hreplies⟩ :=
    (Ends.mono hends (fun _ _ h => h) (fun _ _ hfails => hcalm.1 (hfails.2.resolve_right id))
      fun _ hstops => hstops.2.elim hcalm.2 (fun hover => absurd h (Nat.not_le.mpr hover))).returns
  refine ⟨revisions, s, hexec, hstate, ?_, List.suffix_nil.mp hreplies⟩
  rw [Engine.committed, hcommits]
  exact (holds_empty.insert_all (dated_stamped h)).mark _

/-- What a store that has applied a log holds, and one that applied nothing may hold nothing. -/
theorem Snapshot.eq_or_empty {contents contents' : Keyspace} {log : List Mutation}
    (h : Snapshot contents log log.length)
    (h' : Holds contents' (some log.length) (stamped log)) :
    contents = contents' ∨ log = [] ∧ contents = ∅ := by
  obtain ⟨-, -, marker, hmarker, hholds⟩ := h
  rw [List.take_length] at hholds
  cases marker with
  | some position =>
    obtain rfl : position = log.length := hmarker
    exact .inl (hholds.unique h')
  | none =>
    obtain rfl : log = [] := List.length_eq_zero_iff.mp hmarker.symm
    exact .inr ⟨rfl, hholds.unique holds_empty⟩

end Hadar.Mvcc

namespace Hadar.Wal

open Hadar.Lib Hadar.Lib.Prog Hadar.Storage Hadar.Mvcc Std

/-! ## The store of a log -/

/-- A store that has applied a log and nothing else is the one an empty store becomes. -/
theorem isStoreOf_of_tracks {s : KvStore} {log : List Mutation} (h : Tracks s log) :
    IsStoreOf s log := by
  obtain ⟨revisions, s₀, hexec, hstate₀, hholds₀, hcalm₀⟩ := exists_apply_fresh h.count
  have hstate : s.state = s₀.state := h.state.trans hstate₀.symm
  have hcommitted := h.newest.eq_or_empty hholds₀
  refine ⟨s₀, revisions, hexec, hstate, hcommitted, fun bounds at_ limit => ?_⟩
  refine range_congr (s := KvStore.calmed s) rfl hcalm₀ hstate (hcommitted.imp (fun hsame => ?_)
    fun hempty bounds at_ => ?_) _ _ _
  · show SameRecords s.engine.committed s₀.engine.committed
    rw [hsame]
    exact SameRecords.refl _
  · show s.state.index.range bounds at_ = []
    rw [h.state, hempty.1]
    rfl

/-! ## Lives -/

section Lives

variable [Crc32] {options : Options} {w w' : Writer} {log : List Mutation} {settled : ℕ}
  {replies : List Reply} {calls : List Storage.Reply}

omit [Crc32] in
theorem Obliging.disk (h : Obliging replies calls) (files : ExtTreeMap ℕ File) :
    ¬ Faults.Refuses (⟨files, replies⟩ : Disk) := fun ⟨cut, hmem⟩ => h.1 cut hmem

omit [Crc32] in
theorem Obliging.engine (h : Obliging replies calls) (commits : List Keyspace) (durable : ℕ) :
    ¬ Faults.Refuses (⟨commits, durable, calls⟩ : Engine) :=
  fun ⟨e, applied, hmem⟩ => h.2 e applied hmem

/-- The operations to come make no difference to what a writer is in step with. -/
theorem Follows.given {start : ℕ} {older : List (List Mutation)} {active : List Mutation}
    {torn : Bytes} (h : Follows w log start older active torn) (replies : List Reply)
    (calls : List Storage.Reply) : Follows (w.given replies calls) log start older active torn :=
  ⟨h.placed.of_files rfl rfl, h.start_le, h.holds, h.encodable,
    ⟨h.tracks.count, h.tracks.state, h.tracks.newest⟩, h.backed, h.durable⟩

theorem Steady.given (h : Steady w log) (replies : List Reply) (calls : List Storage.Reply) :
    Steady (w.given replies calls) log := by
  obtain ⟨start, older, active, hfollows, hsound, hflushed⟩ := h
  exact ⟨start, older, active, hfollows.given replies calls, hsound, hflushed⟩

/-- What a life has come to. -/
inductive Sound : Machine → List Mutation → ℕ → Prop where
  | down {disk : Disk} {engine : Engine} {log : List Mutation} {settled n : ℕ}
    (settled_le : settled ≤ n) (le : n ≤ log.length) (dormant : Dormant disk engine (log.take n)) :
    Sound (.down disk engine) log settled
  | up {w : Writer} {log : List Mutation} (steady : Steady w log) : Sound (.up w) log log.length

theorem Sound.of_down {disk : Disk} {engine : Engine} (h : Sound (.down disk engine) log settled) :
    ∃ n, settled ≤ n ∧ n ≤ log.length ∧ Dormant disk engine (log.take n) := by
  cases h with
  | down settled_le le dormant => exact ⟨_, settled_le, le, dormant⟩

theorem Sound.of_up (h : Sound (.up w) log settled) : settled = log.length ∧ Steady w log := by
  cases h with
  | up steady => exact ⟨rfl, steady⟩

omit [Crc32] in
theorem Obliging.accepting (h : Obliging replies calls) (w : Writer) (batch : List Request) :
    Accepting (w.given replies calls) batch :=
  fun _ _ e applied hmem => h.2 e applied (List.mem_of_mem_take hmem)

/-- A batch is retired in step with the log, or was never started, or a crash leaves a part. -/
theorem Steady.ends_retire (h : Steady w log) (hdisk : ¬ Faults.Refuses w.host.disk)
    {batch : List Request} (haccepting : Accepting w batch) :
    Ends (retire batch) w
      (fun revisions w' => revisions.length = (mutationsOf batch).length ∧
        Steady w' (log ++ mutationsOf batch)) (fun _ w' => Steady w' log)
      (fun w' => ∀ disk engine, w'.host.disk.Crashed disk →
        EngineCrashed w'.host.store.engine engine →
        Sound (.down disk engine) (log ++ mutationsOf batch) log.length) := by
  obtain ⟨start, older, active, hfollows, hsound, hflushed⟩ := h
  refine Ends.mono (hfollows.ends_retire batch) (fun revisions w' hw' => ?_) (fun _ w' hw' => ?_)
    fun w' hw' disk engine hcrashed hengine => ?_
  · obtain ⟨older', active', hfollows'⟩ := hw'.follows
    refine ⟨?_, start, older', active', hfollows', hw'.sound, hw'.flushed hflushed⟩
    rw [hw'.revisions, List.length_map, length_stampedFrom]
  · cases hw' with
    | unchanged d same later why =>
      subst same
      refine ⟨start, older, active, hfollows.later later.files rfl (KvStore.Later.refl _), hsound, ?_⟩
      show ∀ p ∈ d.files.toList, _
      rw [later.files]
      exact hflushed
    | unappended appends refused follows => exact absurd refused hdisk
    | unapplied appends refused denied follows sound flushed =>
      have hnil : mutationsOf batch = [] := by
        by_contra hne
        exact denied (haccepting appends hne)
      obtain ⟨start', older', active', hfollows'⟩ := follows hnil
      exact ⟨start', older', active', hfollows', sound, flushed hflushed⟩
  · obtain ⟨n, hn, hdormant⟩ := hw'.2 hdisk hsound hflushed disk engine hcrashed hengine
    refine .down (n := log.length + n) (Nat.le_add_right _ _) ?_ ?_
    · rw [List.length_append]
      omega
    · rwa [List.take_length_add_append]

/-- A checkpoint leaves the writer in step, wherever it stops. -/
theorem Steady.ends_checkpoint (h : Steady w log) :
    Ends (Writer.onHost compact) w (fun _ w' => Steady w' log ∧ w'.segment = w.segment)
      (fun _ w' => Steady w' log ∧ w'.segment = w.segment)
      (fun w' => Steady w' log ∧ Faults.Crashes w.host) := by
  obtain ⟨start, older, active, hfollows, hsound, hflushed⟩ := h
  have hsteady : ∀ w', Checkpointed w w' log active [] → Steady w' log := by
    intro w' hw'
    obtain ⟨start', older', hfollows'⟩ := hw'.follows
    exact ⟨start', older', active, hfollows', hw'.segment ▸ hsound, hw'.flushed hflushed⟩
  exact Ends.mono hfollows.ends_checkpoint (fun _ w' hw' => ⟨hsteady w' hw'.1, hw'.1.segment⟩)
    (fun _ w' hw' => ⟨hsteady w' hw'.1, hw'.1.segment⟩) fun w' hw' => ⟨hsteady w' hw'.1, hw'.2⟩

theorem Steady.counting (h : Steady w log) (appended : ℕ) :
    Steady { w with appended := appended } log := by
  obtain ⟨start, older, active, hfollows, hsound, hflushed⟩ := h
  exact ⟨start, older, active, hfollows.later rfl rfl (KvStore.Later.refl _), hsound, hflushed⟩

/-- A crash of a writer that is in step. -/
theorem Steady.dormant (h : Steady w log) {disk : Disk} {engine : Engine}
    (hdisk : w.host.disk.Crashed disk) (hengine : EngineCrashed w.host.store.engine engine) :
    Dormant disk engine log := by
  obtain ⟨start, older, active, hfollows, -, hflushed⟩ := h
  exact hfollows.resting.dormant hflushed hdisk hengine

theorem Steady.applied (h : Steady w log) : w.host.store.state.applied = log.length := by
  obtain ⟨start, older, active, hfollows, -, -⟩ := h
  exact hfollows.tracks.applied

/-- Every life is sound. -/
theorem Life.sound {m : Machine} (h : Life options m log settled) : Sound m log settled := by
  induction h with
  | fresh => exact .down (Nat.le_refl 0) (Nat.le_refl 0) dormant_empty
  | @opened disk disk' engine engine' log settled replies calls w before obliging ran ih =>
    obtain ⟨n, -, le, dormant⟩ := ih.of_down
    have hsteady := ((dormant.given replies calls).ends_boot options).of_ok ran
    have happlied := hsteady.applied
    rw [List.length_take_of_le le] at happlied
    rw [happlied]
    have hup : Sound (.up w) (log.take n) (log.take n).length := .up hsteady
    rwa [List.length_take_of_le le] at hup
  | cutOpening before obliging ran dead onDisk inEngine ih =>
    obtain ⟨n, settled_le, le, dormant⟩ := ih.of_down
    exact .down settled_le le
      ((((dormant.given _ _).ends_boot options).of_dead ran dead).2 _ _ onDisk inEngine)
  | wrote before obliging ran ih =>
    obtain ⟨rfl, steady⟩ := ih.of_up
    exact .up (((steady.given _ _).ends_retire (obliging.disk _) (obliging.accepting _ _)).of_ok
      ran).2
  | declined before obliging ran ih =>
    obtain ⟨rfl, steady⟩ := ih.of_up
    exact .up (((steady.given _ _).ends_retire (obliging.disk _) (obliging.accepting _ _)).of_error
      ran)
  | cutWriting before obliging ran dead onDisk inEngine ih =>
    obtain ⟨rfl, steady⟩ := ih.of_up
    exact ((steady.given _ _).ends_retire (obliging.disk _) (obliging.accepting _ _)).of_dead ran
      dead _ _ onDisk inEngine
  | checkpointed appended before obliging ran ih =>
    obtain ⟨rfl, steady⟩ := ih.of_up
    exact .up (((steady.given _ _).ends_checkpoint.of_ok ran).1.counting appended)
  | cutCheckpoint before obliging ran dead onDisk inEngine ih =>
    obtain ⟨rfl, steady⟩ := ih.of_up
    obtain ⟨hsteady, -⟩ := (steady.given _ _).ends_checkpoint.of_dead ran dead
    refine .down (n := _) (Nat.le_refl _) (Nat.le_refl _) ?_
    rw [List.take_length]
    exact hsteady.dormant onDisk inEngine
  | cutIdle before onDisk inEngine ih =>
    obtain ⟨rfl, steady⟩ := ih.of_up
    refine .down (n := _) (Nat.le_refl _) (Nat.le_refl _) ?_
    rw [List.take_length]
    exact steady.dormant onDisk inEngine

/-- What stops a restart: it crashes, or the revisions run out. -/
theorem Dormant.stops_boot {disk : Disk} {engine : Engine} (h : Dormant disk engine log)
    (hobliging : Obliging replies calls) {stop : Stop Error} {m : Disk × Engine}
    (hexec : (boot options).exec ({ disk with replies := replies },
      { engine with replies := calls }) = (.error stop, m)) :
    (stop = .panic ∨ stop = .crash) ∧
      ((∃ cut, .crash cut ∈ replies) ∨ .crash ∈ calls ∨ i64Max < log.length) := by
  have hends := (h.given replies calls).ends_boot options
  have hdead : stop = .panic ∨ stop = .crash := by
    cases stop with
    | error e => exact ((hends.of_error hexec).elim (hobliging.disk _) (hobliging.engine _ _)).elim
    | panic => exact .inl rfl
    | crash => exact .inr rfl
  exact ⟨hdead, or_assoc.mp (hends.of_dead hexec hdead).1⟩

/-- Recovery is exact. Whatever the log and its store have lived through, a restart over what
they left returns, unless it crashes itself or the log holds more mutations than there are
revisions; and after it the store is the one that the first `n` mutations make of an empty one, where
`n` is the number of the last record in the log, no mutation that was settled is missing and none
was not logged.
SOURCE: crates/wal/src/wal.rs:197-257 -/
theorem restart_exact {disk : Disk} {engine : Engine}
    (h : Life options (.down disk engine) log settled) (hobliging : Obliging replies calls) :
    (∀ stop m, (boot options).exec ({ disk with replies := replies },
        { engine with replies := calls }) = (.error stop, m) → (stop = .panic ∨ stop = .crash) ∧
          ((∃ cut, .crash cut ∈ replies) ∨ .crash ∈ calls ∨ i64Max < log.length)) ∧
    ∀ w m, (boot options).exec ({ disk with replies := replies },
        { engine with replies := calls }) = (.ok w, m) →
      ∃ n, settled ≤ n ∧ n ≤ log.length ∧ logEnd w.host.disk.segments = n ∧
        IsStoreOf w.host.store (log.take n) := by
  obtain ⟨n, settled_le, le, hdormant⟩ := h.sound.of_down
  constructor
  · intro stop m hexec
    obtain ⟨hstop, hwhy⟩ := hdormant.stops_boot hobliging hexec
    refine ⟨hstop, hwhy.imp_right (Or.imp_right fun hover => ?_)⟩
    rw [List.length_take_of_le le] at hover
    exact Nat.lt_of_lt_of_le hover le
  · intro w m hexec
    obtain ⟨start, older, active, hfollows, -, -⟩ :=
      ((hdormant.given replies calls).ends_boot options).of_ok hexec
    refine ⟨n, settled_le, le, ?_, isStoreOf_of_tracks hfollows.tracks⟩
    rw [hfollows.placed.logEnd, ← hfollows.applied, hfollows.tracks.applied,
      List.length_take_of_le le]

end Lives

/-! ## A life cut short -/

/-- The writer of a log that was never written to. -/
def freshWriter : Writer :=
  match (@boot crc32fast Options.default).exec (Disk.empty, Engine.empty) with
  | (.ok w, _) => w
  | (.error _, _) => ⟨⟨Disk.empty, KvStore.fresh⟩, ⟨0, 0, 0, false⟩, 0⟩

theorem life_freshWriter : @Life crc32fast Options.default (.up freshWriter) [] 0 := by
  have hreturns : (@boot crc32fast Options.default).returnsFrom (Disk.empty, Engine.empty) =
      true := by decide +kernel
  have happlied : freshWriter.host.store.state.applied = 0 := by decide +kernel
  obtain ⟨w, hexec⟩ := exec_of_returnsFrom hreturns
  have hw : freshWriter = w := by
    rw [freshWriter, hexec]
  have hopened := @Life.opened crc32fast Options.default _ _ _ _ [] 0 [] [] w (@Life.fresh crc32fast _)
    ⟨by simp, by simp⟩ hexec
  rw [← hw, happlied] at hopened
  exact hopened

/-- The writer after one put, and after a second one that a crash cut short. -/
def oneWrite : Writer :=
  ((@retire crc32fast [⟨[.put [107] [118]]⟩]).exec (freshWriter.given [] [])).2

def halfWrite : Writer :=
  ((@retire crc32fast [⟨[.put [107] [119]]⟩]).exec (oneWrite.given [.crash 7] [])).2

theorem life_halfWrite : @Life crc32fast Options.default
    (.down halfWrite.host.disk.kept halfWrite.host.store.engine)
    [.put [107] [118], .put [107] [119]] 1 := by
  have hone : (@retire crc32fast [⟨[.put [107] [118]]⟩]).returnsFrom (freshWriter.given [] []) =
      true := by decide +kernel
  have hhalf : (@retire crc32fast [⟨[.put [107] [119]]⟩]).crashesFrom
      (oneWrite.given [.crash 7] []) = true := by decide +kernel
  obtain ⟨revisions, hexec⟩ := exec_of_returnsFrom hone
  have hwrote := @Life.wrote crc32fast _ _ _ _ _ [] [] _ revisions life_freshWriter
    ⟨by simp, by simp⟩ hexec
  refine @Life.cutWriting crc32fast _ _ _ _ _ _ _ [.crash 7] [] [⟨[.put [107] [119]]⟩] .crash hwrote
    ⟨by simp, by simp⟩ (exec_of_crashesFrom hhalf) (.inr rfl) (Disk.crashed_kept ?_)
    ⟨List.suffix_refl _, rfl, by decide +kernel⟩
  decide +kernel

/-- The restart after it returns. -/
theorem restart_exact_halfWrite :
    ∃ w m, (@boot crc32fast Options.default).exec (halfWrite.host.disk.kept,
        { halfWrite.host.store.engine with replies := [] }) = (.ok w, m) ∧
      ∃ n, 1 ≤ n ∧ n ≤ 2 ∧ @logEnd crc32fast w.host.disk.segments = n ∧
        IsStoreOf w.host.store ([Mutation.put [107] [118], .put [107] [119]].take n) := by
  obtain ⟨hstops, hreturns⟩ :=
    @restart_exact crc32fast _ _ _ [] [] _ _ life_halfWrite ⟨by simp, by simp⟩
  rcases hexec : (@boot crc32fast Options.default).exec (halfWrite.host.disk.kept,
    { halfWrite.host.store.engine with replies := [] }) with ⟨stop | w, m⟩
  · obtain ⟨-, ⟨cut, hmem⟩ | hmem | hover⟩ := hstops stop m hexec
    · cases hmem
    · cases hmem
    · exact absurd hover (by decide)
  · exact ⟨w, m, rfl, hreturns w m hexec⟩

end Hadar.Wal
