import Hadar.Analysis.Answering
import Hadar.Analysis.Holes
import Hadar.Analysis.Lives

/-!
# Runs whose failures do no harm

Two failures part the log from what was acknowledged: an append that fails and leaves a record
behind, and a batch that is refused by the store once its records are in the log. Along a run
without them the log is what the writer began with and every acknowledged mutation, in order, so
the store stays at its end, and a restart over any commit the log still reaches restores it.
-/

set_option autoImplicit false

namespace Hadar.Wal

open Hadar.Lib Hadar.Lib.Prog Hadar.Storage Hadar.Mvcc Std

section Lasting

variable [Crc32] {interval : ℕ} {allowed : Writer → Turn → Prop} {turns : List Turn}
  {w₀ w : Writer} {told : List Exchange} {log : List Mutation}

/-! ## What a run adds to its log -/

/-- The log of a run that began with one: every acknowledged mutation comes after it. -/
def logged (log : List Mutation) (told : List Exchange) : List Mutation :=
  log ++ (acknowledged told).map (·.2)

omit [Crc32] in
theorem logged_nil (log : List Mutation) : logged log [] = log := List.append_nil log

omit [Crc32] in
/-- A batch that was retired. -/
theorem logged_answer_ok {batch : List Request} {revisions : List Revision}
    (h : revisions.length = (mutationsOf batch).length) :
    logged log (told ++ batch.zip (answer batch (.ok revisions))) =
      logged log told ++ mutationsOf batch := by
  rw [logged, acknowledged_append, (acknowledged_answer_ok h).1, List.map_append,
    List.map_snd_zip (Nat.le_of_eq h.symm), ← List.append_assoc, logged]

omit [Crc32] in
/-- A batch that was not. -/
theorem logged_answer_error (batch : List Request) (e : Error) :
    logged log (told ++ batch.zip (answer batch (.error e))) = logged log told := by
  rw [logged, acknowledged_append, (acknowledged_answer_error batch e).1, List.append_nil, logged]

/-- What every batch and every checkpoint keeps holds along a run, of the log that grows by what
is acknowledged and by nothing else. -/
theorem Run.keeps {P : Writer → List Mutation → Prop} (h : Run interval allowed w₀ turns w told)
    (hstart : P w₀ log)
    (hgiven : ∀ w log replies calls, P w log → P (w.given replies calls) log)
    (hretire : ∀ w log t, P w log → w.host.disk.replies = t.replies →
      w.host.store.engine.replies = t.calls → allowed w t → Ends (retire t.batch) w
        (fun revisions w' => revisions.length = (mutationsOf t.batch).length ∧
          P w' (log ++ mutationsOf t.batch)) (fun _ w' => P w' log) fun _ => True)
    (hcheckpoint : ∀ w log, P w log → Ends (Writer.onHost compact) w
      (fun _ w' => P { w' with appended := 0 } log) (fun _ w' => P w' log) fun _ => True) :
    P w (logged log told) := by
  induction h with
  | start => rwa [logged_nil]
  | @turned turns w w' told t answers before permitted ran ih =>
    let after (writes : List (Except Error (List Revision))) (w' : Writer) : Prop :=
      P w' (logged log (told ++ t.batch.zip writes))
    have hkept := hgiven w (logged log told) t.replies t.calls ih
    have hends := @Wal.ends_turn (w.given t.replies t.calls) t.batch _ interval t.requested after
      after (fun _ => True) (fun hnil => ?_) (fun _ => ?_)
      (fun writes w'' hw'' => hcheckpoint w'' _ hw'') fun _ _ hw'' _ => hw''
    · exact hends.of_ok ran
    · show P _ (logged log (told ++ t.batch.zip []))
      rwa [hnil, List.zip_nil_left, List.append_nil]
    · refine Ends.mono (hretire _ _ t hkept rfl rfl permitted) (fun revisions w'' hw'' => ?_)
        (fun e w'' hw'' => ?_) fun _ h => h
      · show P w'' (logged log (told ++ t.batch.zip (answer t.batch (.ok revisions))))
        rw [logged_answer_ok hw''.1]
        exact hw''.2
      · show P w'' (logged log (told ++ t.batch.zip (answer t.batch (.error e))))
        rw [logged_answer_error]
        exact hw''

/-- The log of a run is numbered as its writers were told. -/
theorem stamped_logged (h : Run interval allowed w₀ turns w told)
    (hcurrent : w₀.host.store.state.current = revisionOf log.length) (hcount : log.length ≤ i64Max) :
    stamped (logged log told) = stamped log ++ acknowledged told := by
  have hmain : w₀.host.store.state.current.main = log.length := by
    rw [hcurrent]
    exact Nat.min_eq_left hcount
  rw [logged, stamped_append, ← hmain]
  exact congrArg _ h.answered.numbered.stamps.symm

/-! ## What a restart finds -/

section Restart

variable {disk : Disk} {engine : Engine} {start : ℕ} {older : List (List Mutation)}
  {active : List Mutation} {torn : Bytes}

/-- The records of a log are numbered on from where it begins. -/
theorem numbered_laidOut (h : Written older active torn) :
    numbered (laidOut start older active torn) = numberedFrom start (older.flatten ++ active) := by
  induction older generalizing start with
  | nil =>
    show numberedFrom start (complete (recordsOf active ++ torn)) ++ [] = _
    rw [complete_torn h.active h.torn, List.append_nil]
    rfl
  | cons ms rest ih =>
    obtain ⟨hms, hrest⟩ := h.tail
    rw [laidOut_cons, numbered, List.flatMap_cons, complete_records hms, List.flatten_cons,
      List.append_assoc, numberedFrom_append]
    exact congrArg _ (ih hrest)

/-- A log at rest is replayed exactly, from any commit the engine may be at.
SOURCE: crates/wal/src/wal.rs:197-257 -/
theorem Resting.replaysUnapplied (h : Resting disk engine log start older active torn)
    (hdisk : disk.replies = []) (hengine : engine.replies = []) (hcount : log.length ≤ i64Max) :
    ReplaysUnapplied disk engine := by
  obtain ⟨n, hsnapshot, hstart⟩ := h.backed.committed h.durable
  have hkeys : ∀ m ∈ log, m.key.length ≤ u32Max := fun m hm => (h.encodable m hm).key_le
  have hcalm : ∀ state : State, ¬ Faults.Refuses (⟨disk, ⟨engine, state⟩⟩ : Host) ∧
      ¬ Faults.Crashes (⟨disk, ⟨engine, state⟩⟩ : Host) := fun state =>
    ⟨fun hrefuses => hrefuses.elim (Disk.calm hdisk).1 (Engine.calm hengine).1,
      fun hcrashes => hcrashes.elim (Disk.calm hdisk).2 (Engine.calm hengine).2⟩
  have hends := h.ends_recover (h := ⟨disk, ⟨engine, stateOf (log.take n)⟩⟩) hsnapshot hstart rfl
  obtain ⟨tail, h', hexec, -⟩ := (Ends.mono hends (fun _ _ h => h) (fun _ _ => (hcalm _).1)
    fun _ hdead => hdead.1.elim (hcalm _).2 (Nat.not_lt.mpr hcount)).returns
  refine ⟨_, tail, h', hsnapshot.openStore_eq hkeys hengine, hexec,
    replaysExactly_of_numbers hexec ?_⟩
  have happlied : (stateOf (log.take n)).applied = n := List.length_take_of_le hsnapshot.1
  have hlength := congrArg List.length h.holds
  rw [List.length_drop] at hlength
  rw [numberedPast, happlied, h.segments, numbered_laidOut h.written, filter_numberedFrom,
    map_fst_numberedFrom, List.length_drop, logEnd_laidOut h.written, Nat.max_eq_right hstart]
  congr 1
  omega

end Restart

/-! ## A store that refuses nothing it is given -/

/-- Along a run in which the store takes every batch that reaches the log, the log and the store
stay in step. -/
theorem Run.steady (h : Run interval (fun w t => t.replies = [] ∧ Accepting w t.batch) w₀ turns w
    told) (hsteady : Steady w₀ log) : Steady w (logged log told) := by
  refine h.keeps hsteady (fun w log replies calls hw => hw.given replies calls)
    (fun w log t hw hreplies hcalls hallowed => ?_) fun w log hw => ?_
  · have hdisk : ¬ Faults.Refuses w.host.disk := (Disk.calm (hreplies.trans hallowed.1)).1
    exact Ends.mono (hw.ends_retire hdisk hallowed.2) (fun _ _ h => h) (fun _ _ h => h)
      fun _ _ => trivial
  · exact Ends.mono hw.ends_checkpoint (fun _ w' hw' => hw'.1.counting 0) (fun _ _ hw' => hw'.1)
      fun _ _ => trivial

/-- The log and the store stay in step, and a restart at any point replays exactly what the store
it opens has not applied, along every run in which no batch is refused by the store once its
records are in the log.
SOURCE: crates/wal/src/writer.rs:191-207, crates/wal/src/wal.rs:205-254 -/
theorem run_inStep {options : Options} {settled : ℕ} (hlife : Life options (.up w₀) log settled)
    (h : Run interval (fun w t => t.replies = [] ∧ Accepting w t.batch) w₀ turns w told) :
    InStep w ∧ ∀ disk engine, w.host.disk.Crashed disk → disk.replies = [] →
      EngineCrashed w.host.store.engine engine → engine.replies = [] →
        ReplaysUnapplied disk engine := by
  obtain ⟨start, older, active, hfollows, -, hflushed⟩ := h.steady hlife.sound.of_up.2
  refine ⟨?_, fun disk engine hdisk hcalm hengine hcalls => ?_⟩
  · rw [InStep, hfollows.placed.logEnd, hfollows.applied]
  · exact (hfollows.resting.undisturbed hflushed hdisk hengine).replaysUnapplied hcalm hcalls
      hfollows.tracks.count

/-! ## Appends that leave nothing behind -/

/-- A writer in step with a log, whatever bytes come after its last record. -/
def Trailing (w : Writer) (log : List Mutation) : Prop :=
  ∃ start older active torn, Follows w log start older active torn

/-- Along a run in which an append that fails leaves no record behind, the log and the store
stay in step. -/
theorem Run.trailing (h : Run interval (fun w t => t.calls = [] ∧ Sparing w t.batch) w₀ turns w
    told) (htrailing : Trailing w₀ log) : Trailing w (logged log told) := by
  refine h.keeps htrailing (fun w log replies calls hw => ?_)
    (fun w log t hw hreplies hcalls hallowed => ?_) fun w log hw => ?_
  · obtain ⟨start, older, active, torn, hfollows⟩ := hw
    exact ⟨start, older, active, torn, hfollows.given replies calls⟩
  · obtain ⟨start, older, active, torn, hfollows⟩ := hw
    refine Ends.mono (hfollows.ends_retire t.batch) (fun revisions w' hw' => ?_)
      (fun _ w' hw' => ?_) fun _ _ => trivial
    · obtain ⟨older', active', hfollows'⟩ := hw'.follows
      refine ⟨?_, start, older', active', [], hfollows'⟩
      rw [hw'.revisions, List.length_map, length_stampedFrom]
    · cases hw' with
      | unchanged d same later why =>
        subst same
        exact ⟨start, older, active, torn, hfollows.later later.files rfl (KvStore.Later.refl _)⟩
      | unappended appends refused follows => exact follows (hallowed.2 appends)
      | unapplied appends refused denied follows sound flushed =>
        exact absurd refused (Engine.calm (hcalls.trans hallowed.1)).1
  · obtain ⟨start, older, active, torn, hfollows⟩ := hw
    have htrailing : ∀ w', Checkpointed w w' log active torn → Trailing w' log := by
      intro w' hw'
      obtain ⟨start', older', hfollows'⟩ := hw'.follows
      exact ⟨start', older', active, torn, hfollows'⟩
    refine Ends.mono hfollows.ends_checkpoint (fun _ w' hw' => ?_)
      (fun _ w' hw' => htrailing w' hw'.1) fun _ _ => trivial
    obtain ⟨start', older', active', torn', hfollows'⟩ := htrailing w' hw'.1
    exact ⟨start', older', active', torn', hfollows'.later rfl rfl (KvStore.Later.refl _)⟩

/-- The engine at one of its commits and the directory as it is make a log at rest, where the log
reaches back to the commit's position. -/
theorem Follows.resting_kept {start : ℕ} {older : List (List Mutation)} {active : List Mutation}
    {torn : Bytes} (h : Follows w log start older active torn) {kept : List Keyspace}
    (hkept : kept <:+ w.host.store.engine.commits) {state : State} {e : Engine}
    (hopen : openStore (engineOf kept) = (.ok state, e))
    (hreaches : Reaches w.host.disk state.applied) :
    Resting w.host.disk.calmed (engineOf kept) log start older active torn := by
  obtain ⟨n, hsnapshot, -⟩ := h.backed kept hkept
  have hkeys : ∀ m ∈ log, m.key.length ≤ u32Max := fun m hm => (h.encodable m hm).key_le
  have hopened := hsnapshot.openStore_eq (e := engineOf kept) hkeys rfl
  obtain rfl : state = stateOf (log.take n) := by
    have hsame := (Prod.mk.inj (hopen.symm.trans hopened)).1
    exact Except.ok.inj hsame
  have happlied : (stateOf (log.take n)).applied = n := List.length_take_of_le hsnapshot.1
  obtain ⟨bytes, hhead⟩ := head?_laidOut start older active torn
  have hstart : start ≤ n := by
    rw [← happlied]
    exact hreaches (start, bytes) (by rw [h.placed.segments, hhead]; rfl)
  refine ⟨h.placed.segments, h.placed.written, h.start_le, h.holds, h.encodable,
    fun kept' hkept' => ?_, Nat.le_refl _⟩
  obtain ⟨n', hsnapshot', -⟩ := h.backed kept' (List.IsSuffix.trans hkept' hkept)
  refine ⟨n', hsnapshot', fun hlength => ?_⟩
  obtain rfl := List.IsSuffix.eq_of_length_le hkept' hlength
  rw [← hsnapshot'.markerOf, hsnapshot.markerOf]
  exact hstart

/-- Along every run in which an append that fails leaves no record behind, each acknowledged write
was given a revision for each of its mutations, and a restart, over the contents of any commit the
log still reaches, ends with the store of what the writer began with and the acknowledged
mutations: each of them once, at the revision it was answered with, and no other.
SOURCE: crates/wal/src/segment.rs:99-129, crates/wal/src/writer.rs:175-208 -/
theorem run_restores {options : Options} {settled : ℕ} (hlife : Life options (.up w₀) log settled)
    (h : Run interval (fun w t => t.calls = [] ∧ Sparing w t.batch) w₀ turns w told) :
    Covers told ∧ ∃ restored, stamped restored = stamped log ++ acknowledged told ∧
      ∀ kept state e, kept <:+ w.host.store.engine.commits →
        openStore (engineOf kept) = (.ok state, e) → Reaches w.host.disk state.applied →
          ∃ w' m, (boot options).exec (w.host.disk.calmed, engineOf kept) = (.ok w', m) ∧
            IsStoreOf w'.host.store restored := by
  obtain ⟨start₀, older₀, active₀, hfollows₀, -, -⟩ := hlife.sound.of_up.2
  obtain ⟨start, older, active, torn, hfollows⟩ := h.trailing ⟨_, _, _, _, hfollows₀⟩
  refine ⟨h.answered.covers, logged log told,
    stamped_logged h hfollows₀.tracks.current hfollows₀.tracks.count,
    fun kept state e hkept hopen hreaches => ?_⟩
  have hrests := hfollows.resting_kept hkept hopen hreaches
  have hdisk := Disk.calm (d := w.host.disk.calmed) rfl
  have hengine := Engine.calm (e := engineOf kept) rfl
  obtain ⟨w', m, hexec, hfollows', -⟩ := (Ends.mono (hrests.ends_boot options) (fun _ _ h => h)
    (fun _ _ hrefuses => hrefuses.elim hdisk.1 hengine.1) fun _ hdead =>
      hdead.1.elim (fun hcrashes => hcrashes.elim hdisk.2 hengine.2)
        (Nat.not_lt.mpr hfollows.tracks.count)).returns
  exact ⟨w', m, hexec, isStoreOf_of_tracks hfollows'.tracks⟩

end Lasting

/-! ## A store that fails, and a flush -/

/-- A put of one byte. -/
def putTurn (key : UInt8) (replies : List Reply) (calls : List Storage.Reply) : Turn :=
  ⟨[⟨[.put [key] [118]]⟩], false, replies, calls⟩

/-- The store takes a put, but not the checkpoint after it. -/
theorem run_inStep_checkpoint :
    ∃ w told, @Run crc32fast 1 (fun w t => t.replies = [] ∧ Accepting w t.batch) freshWriter
        [putTurn 107 [] [.done, .done, .done, .done, .refused ⟨.io, "begin"⟩ false]] w told ∧
      @InStep crc32fast w ∧ ∀ disk engine, w.host.disk.Crashed disk → disk.replies = [] →
        EngineCrashed w.host.store.engine engine → engine.replies = [] →
          @ReplaysUnapplied crc32fast disk engine := by
  have hallowed : Accepting (freshWriter.given []
      [.done, .done, .done, .done, .refused ⟨.io, "begin"⟩ false]) [⟨[.put [107] [118]]⟩] := by
    intro _ _ e applied hmem
    simp [Writer.given, mutationsOf] at hmem
  obtain ⟨answers, h⟩ := @Run.next _ crc32fast _ _ _ _ _
    (@Run.start crc32fast 1 (fun w t => t.replies = [] ∧ Accepting w t.batch) freshWriter)
    (putTurn 107 [] [.done, .done, .done, .done, .refused ⟨.io, "begin"⟩ false]) ⟨rfl, hallowed⟩
    (by decide +kernel)
  exact ⟨_, _, h, @run_inStep crc32fast _ _ _ _ _ _ _ _ life_freshWriter h⟩

/-- Once the store refuses a put whose record is in the log, the log is one record ahead. -/
theorem run_inStep_refused :
    ¬ ∀ turns w told, @Run crc32fast 1 (fun _ t => t.replies = []) freshWriter turns w told →
      @InStep crc32fast w := by
  intro hall
  obtain ⟨answers, h⟩ := @Run.next _ crc32fast _ _ _ _ _
    (@Run.start crc32fast 1 (fun _ t => t.replies = []) freshWriter)
    (putTurn 107 [] [.refused ⟨.io, "begin"⟩ false]) rfl (by decide +kernel)
  have hstep := hall _ _ _ h
  have hapart : ¬ @logEnd crc32fast (@Writer.after crc32fast freshWriter 1
      (putTurn 107 [] [.refused ⟨.io, "begin"⟩ false])).host.disk.segments =
    (@Writer.after crc32fast freshWriter 1
      (putTurn 107 [] [.refused ⟨.io, "begin"⟩ false])).host.store.state.applied := by
    decide +kernel
  exact hapart hstep

/-- A short write that is rewound, and a put after it. -/
theorem run_restores_rewound :
    ∃ w told, @Run crc32fast 1000 (fun w t => t.calls = [] ∧ @Sparing crc32fast w t.batch)
        freshWriter [putTurn 107 [.refused 5] [], putTurn 108 [] []] w told ∧
      Covers told ∧ ∃ restored, stamped restored = stamped [] ++ acknowledged told ∧
        ∀ kept state e, kept <:+ w.host.store.engine.commits →
          openStore (engineOf kept) = (.ok state, e) → Reaches w.host.disk state.applied →
            ∃ w' m, (@boot crc32fast Options.default).exec (w.host.disk.calmed, engineOf kept) =
              (.ok w', m) ∧ IsStoreOf w'.host.store restored := by
  -- whether or not a segment is begun first, at most the write itself is refused
  have hsparing : ∀ w : Writer, ∀ cut, w.host.disk.replies = [.refused cut] ∨
      w.host.disk.replies = [] → ∀ batch, @Sparing crc32fast w batch := by
    intro w cut hreplies batch _
    unfold Writer.appending
    rcases hreplies with hreplies | hreplies <;> rw [hreplies] <;> split <;> trivial
  obtain ⟨first, h₁⟩ := @Run.next _ crc32fast _ _ _ _ _
    (@Run.start crc32fast 1000 (fun w t => t.calls = [] ∧ @Sparing crc32fast w t.batch) freshWriter)
    (putTurn 107 [.refused 5] []) ⟨rfl, hsparing _ 5 (.inl rfl) _⟩ (by decide +kernel)
  obtain ⟨second, h₂⟩ := @Run.next _ crc32fast _ _ _ _ _ h₁ (putTurn 108 [] [])
    ⟨rfl, hsparing _ 5 (.inr rfl) _⟩ (by decide +kernel)
  exact ⟨_, _, h₂, @run_restores crc32fast _ _ _ _ _ _ _ _ life_freshWriter h₂⟩

/-- The writer after a put whose flush was refused, and a second put that was acknowledged. -/
def flushedLate : Writer :=
  @Writer.after crc32fast (@Writer.after crc32fast freshWriter 1000
    (putTurn 107 [.done, .refused 0] [])) 1000 (putTurn 108 [] [])

/-- How many mutations the store has applied after a restart with an empty engine. -/
def restoredCount (w : Writer) : Option ℕ :=
  match (@boot crc32fast Options.default).exec (w.host.disk.calmed, engineOf []) with
  | (.ok w', _) => some w'.host.store.state.current.main
  | (.error _, _) => none

/-- Over an empty engine a restart finds two records where one was acknowledged. -/
theorem run_restores_flushedLate :
    ¬ ∀ turns w told, @Run crc32fast 1000 (fun _ t => t.calls = []) freshWriter turns w told →
      Covers told ∧ ∃ restored, stamped restored = stamped [] ++ acknowledged told ∧
        ∀ kept state e, kept <:+ w.host.store.engine.commits →
          openStore (engineOf kept) = (.ok state, e) → Reaches w.host.disk state.applied →
            ∃ w' m, (@boot crc32fast Options.default).exec (w.host.disk.calmed, engineOf kept) =
              (.ok w', m) ∧ IsStoreOf w'.host.store restored := by
  intro hall
  obtain ⟨first, h₁⟩ := @Run.next _ crc32fast _ _ _ _ _
    (@Run.start crc32fast 1000 (fun _ t => t.calls = []) freshWriter)
    (putTurn 107 [.done, .refused 0] []) rfl (by decide +kernel)
  obtain ⟨second, h₂⟩ := @Run.next _ crc32fast _ _ _ _ _ h₁ (putTurn 108 [] []) rfl
    (by decide +kernel)
  obtain ⟨-, restored, hstamped, hrestores⟩ := hall _ _ _ h₂
  have hreaches : Reaches flushedLate.host.disk 0 := by
    have hhead : flushedLate.host.disk.segments.head?.map (·.1) = some 0 := by decide +kernel
    intro p hp
    rw [Option.mem_def] at hp
    rw [hp] at hhead
    exact Nat.le_of_eq (Option.some.inj hhead)
  have hopen : openStore (engineOf []) = (.ok (stateOf []), engineOf []) :=
    Snapshot.openStore_eq (e := engineOf []) (snapshot_empty []) (by simp) rfl
  obtain ⟨w', m, hexec, s₀, revisions, happly, hstate, -⟩ :=
    hrestores [] (stateOf []) (engineOf []) List.nil_suffix hopen hreaches
  -- the store that was promised has as many mutations as the live one acknowledged
  have hlive : flushedLate.host.store.state.current.main = 1 := by decide +kernel
  have hcount := (@Run.answered crc32fast _ _ _ _ _ _ h₂).numbered.current
  have hfresh : freshWriter.host.store.state.current.main = 0 := by decide +kernel
  have hlength := congrArg List.length hstamped
  rw [stamped, length_stampedFrom, List.length_append, stamped, length_stampedFrom,
    List.length_nil] at hlength
  have hmain := (counters_of_apply happly).1
  rw [← hstate] at hmain
  have hzero : KvStore.fresh.state.current.main = 0 := rfl
  -- and the one that was found has two
  have hfound : restoredCount flushedLate = some 2 := by decide +kernel
  have htwo : w'.host.store.state.current.main = 2 := by
    rw [restoredCount] at hfound
    rw [show (@boot crc32fast Options.default).exec (flushedLate.host.disk.calmed, engineOf []) =
      (.ok w', m) from hexec] at hfound
    exact Option.some.inj hfound
  have hlive' : (@Writer.after crc32fast (@Writer.after crc32fast freshWriter 1000
    (putTurn 107 [.done, .refused 0] [])) 1000
      (putTurn 108 [] [])).host.store.state.current.main = 1 := hlive
  omega

end Hadar.Wal
