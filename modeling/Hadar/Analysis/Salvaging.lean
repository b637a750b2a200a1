import Mathlib.Data.List.Chain
import Hadar.Analysis.Crashes
import Hadar.Interface.Ordering

/-!
# What any life leaves to a restart

Where operations may be refused the log and the store do not stay in step: a record may be left
in the log that the store never applied, and segments may end in the middle of one. What no
failure takes away is less. Each segment's flushed records go on at least to where the next one
begins, and every commit a crash may lead back to has a position the oldest segment does not
begin after. A restart over such a directory and engine ends with a store whose position is the
end of the log, or it fails and leaves such a directory and engine again.
-/

set_option autoImplicit false

namespace Hadar.Mvcc

open Hadar.Lib Hadar.Lib.Prog Hadar.Storage Std

/-! ## Commits -/

/-- Contents some mutations were applied to, with a position from `start` on that counts no more
than these. -/
def Backing (contents : Keyspace) (start : ℕ) : Prop :=
  ∃ (log : List Mutation) (marker : Option ℕ), Holds contents marker (stamped log) ∧
    start ≤ marker.getD 0 ∧ marker.getD 0 ≤ log.length ∧ log.length ≤ i64Max

/-- Every commit the engine may be back at after a crash has a position from `start` on. -/
def Founded (e : Engine) (start : ℕ) : Prop :=
  ∀ kept, kept <:+ e.commits → e.durable ≤ kept.length → Backing (kept.headD ∅) start

theorem founded_empty : Founded Engine.empty 0 := by
  intro kept hkept _
  obtain rfl := List.suffix_nil.mp hkept
  exact ⟨[], none, holds_empty, Nat.le_refl 0, Nat.le_refl 0, Nat.zero_le _⟩

section Founded

variable {e e' : Engine} {start start' : ℕ}

theorem Founded.later (h : Founded e start) (hlater : e.Later e') : Founded e' start := by
  unfold Founded at *
  rw [hlater.commits, hlater.durable]
  exact h

theorem Founded.crashed (h : Founded e start) (hcrashed : Wal.EngineCrashed e e') :
    Founded e' start := fun kept hkept hle => by
  rw [hcrashed.durable] at hle
  exact h kept (hkept.trans hcrashed.commits) hle

/-- One more commit. -/
theorem Founded.commit (h : Founded e start) {contents : Keyspace}
    (hcommits : e'.commits = contents :: e.commits) (hdurable : e'.durable = e.durable)
    (hbacking : Backing contents start) : Founded e' start := by
  intro kept hkept hle
  rw [hcommits] at hkept
  rw [hdurable] at hle
  rcases List.suffix_cons_iff.mp hkept with rfl | hkept
  · exact hbacking
  · exact h kept hkept hle

/-- One more commit, and a durable one: it is the only one there is to be back at. -/
theorem Founded.commitDurable {contents : Keyspace} (hcommits : e'.commits = contents :: e.commits)
    (hdurable : e'.durable = e.commits.length + 1) (hbacking : Backing contents start') :
    Founded e' start' := by
  intro kept hkept hle
  rw [hcommits] at hkept
  rw [hdurable] at hle
  rcases List.suffix_cons_iff.mp hkept with rfl | hkept
  · exact hbacking
  · exact absurd hkept.length_le (by omega)

end Founded

/-! ## The store -/

/-- The store has applied some mutations, and its position is no more than they are. -/
structure Keeping (s : KvStore) (log : List Mutation) : Prop where
  count : log.length ≤ i64Max
  current : s.state.current = revisionOf log.length
  bound : s.state.applied ≤ log.length
  holds : ∃ marker : Option ℕ, marker.getD 0 = s.state.applied ∧
    Holds s.engine.committed marker (stamped log)

section Keeping

variable {s s' : KvStore} {log batch : List Mutation}

theorem Keeping.later (h : Keeping s log) (hlater : s.Later s') : Keeping s' log := by
  obtain ⟨hcount, hcurrent, hbound, hholds⟩ := h
  refine ⟨hcount, ?_, ?_, ?_⟩
  · rwa [hlater.state]
  · rwa [hlater.state]
  · rwa [hlater.state, hlater.engine.committed]

/-- A store opened over such contents. -/
theorem keeping_restored {e : Engine} {marker : Option ℕ}
    (h : Holds e.committed marker (stamped log)) (hle : marker.getD 0 ≤ log.length)
    (hcount : log.length ≤ i64Max) : Keeping ⟨e, restoredState marker (stamped log)⟩ log := by
  have happlied : (restoredState marker (stamped log)).applied = marker.getD 0 :=
    restored_position (by omega)
  refine ⟨hcount, newestOf_stamped hcount, ?_, marker, happlied.symm, h⟩
  rw [happlied]
  exact hle

/-- The contents with a batch more are those of a longer log. -/
theorem Keeping.enters (h : Keeping s log) {upto : ℕ}
    (hcount : log.length + batch.length ≤ i64Max) :
    Holds ((enteredContents s.engine.committed (stampedFrom log.length batch)).insert appliedKey
      (encodePosition upto)) (some upto) (stamped (log ++ batch)) := by
  obtain ⟨marker, -, hholds⟩ := h.holds
  have hdated : Dated Event.date (stamped log ++ stampedFrom log.length batch) := by
    rw [← stamped_append]
    exact dated_stamped (by rw [List.length_append]; exact hcount)
  rw [stamped_append]
  exact (hholds.insert_all hdated).mark _

/-- A batch is applied as a whole or changes nothing.
SOURCE: crates/mvcc/src/store.rs:171-213 -/
theorem Keeping.ends_apply (h : Keeping s log) (batch : List Mutation) {upto : ℕ}
    (hupto : upto ≤ (log ++ batch).length) :
    Ends (apply batch upto) s
      (fun revisions s' => revisions = (stampedFrom log.length batch).map (·.1) ∧
        Keeping s' (log ++ batch) ∧ s'.state.applied = upto ∧ (∃ contents,
          s'.engine.commits = contents :: s.engine.commits ∧
          ∀ start ≤ upto, Backing contents start) ∧
        s'.engine.durable = s.engine.durable)
      (fun _ s' => s.Later s') fun s' => s.Later s' := by
  refine Ends.mono (Mvcc.ends_apply h.current h.count batch upto) (fun revisions s' hok => ?_)
    (fun _ _ h => h.1) fun _ h => h.1
  obtain ⟨hcount, hrevisions, hstate, hcommits, hdurable, -⟩ := hok
  have hholds : Holds _ (some upto) (stamped (log ++ batch)) := h.enters hcount
  have happlied : s'.state.applied = upto := by rw [hstate]; rfl
  have hlength : (log ++ batch).length = log.length + batch.length := List.length_append
  rw [← hlength] at hcount
  refine ⟨hrevisions, ⟨hcount, ?_, by omega, some upto, happlied.symm, ?_⟩, happlied,
    ⟨_, hcommits, fun start hle => ⟨_, _, hholds, hle, hupto, hcount⟩⟩, hdurable⟩
  · rw [hstate, hlength]
    rfl
  · rw [Engine.committed, hcommits]
    exact hholds

/-- The position written again. -/
theorem Keeping.backing_mark (h : Keeping s log) {start : ℕ} (hle : start ≤ s.state.applied) :
    Backing (s.engine.committed.insert appliedKey (encodePosition s.state.applied)) start := by
  obtain ⟨marker, -, hholds⟩ := h.holds
  exact ⟨log, _, hholds.mark _, hle, h.bound, h.count⟩

/-- The store once its position was committed again. -/
theorem Keeping.marked (h : Keeping s log) (hstate : s'.state = s.state)
    (hcommits : s'.engine.commits = s.engine.committed.insert appliedKey
      (encodePosition s.state.applied) :: s.engine.commits) : Keeping s' log := by
  obtain ⟨marker, -, hholds⟩ := h.holds
  refine ⟨h.count, by rw [hstate]; exact h.current, by rw [hstate]; exact h.bound,
    some s.state.applied, by rw [hstate]; rfl, ?_⟩
  rw [Engine.committed, hcommits]
  exact hholds.mark _

end Keeping

end Hadar.Mvcc

namespace Hadar.Wal

open Hadar.Lib Hadar.Lib.Prog Hadar.Storage Hadar.Mvcc Std

variable [Crc32]

/-! ## Segments -/

/-- The segment begins with records that are flushed and that go on to a number at least. -/
def Keeps (p : ℕ × File) (upto : ℕ) : Prop :=
  ∃ mutations, (∀ m ∈ mutations, Encodable m) ∧ recordsOf mutations <+: p.2.data ∧
    recordsOf mutations <+: p.2.flushed ∧ upto ≤ p.1 + mutations.length

section Keeps

variable {name upto : ℕ} {file file' : File}

theorem keeps_self (p : ℕ × File) : Keeps p p.1 :=
  ⟨[], by simp, List.nil_prefix, List.nil_prefix, Nat.le_refl _⟩

theorem Keeps.extends (h : Keeps (name, file) upto) (hextends : file.Extends file') :
    Keeps (name, file') upto := by
  obtain ⟨mutations, hmutations, hdata, hflushed, hle⟩ := h
  refine ⟨mutations, hmutations, hdata.trans hextends.data, ?_, hle⟩
  rcases hextends.flushed with hsame | hall
  · show _ <+: file'.flushed
    rw [hsame]
    exact hflushed
  · exact hdata.trans hall

theorem Keeps.survives (h : Keeps (name, file) upto) {rest : Bytes} (hrest : file.Survives rest) :
    Keeps (name, ⟨rest, rest⟩) upto := by
  obtain ⟨mutations, hmutations, hdata, hflushed, hle⟩ := h
  have hprefix : recordsOf mutations <+: rest := by
    rcases hrest with hrest | hrest
    · exact hflushed.trans hrest.1
    · exact hdata.trans hrest.1
  exact ⟨mutations, hmutations, hprefix, hprefix, hle⟩

/-- Those records are among the segment's complete ones. -/
theorem Keeps.le_segmentEnd {p : ℕ × File} (h : Keeps p upto) :
    upto ≤ segmentEnd (p.1, p.2.data) := by
  obtain ⟨mutations, hmutations, ⟨rest, hrest⟩, -, hle⟩ := h
  rw [segmentEnd, complete, ← hrest, scanned_records hmutations, List.length_append]
  omega

/-- A flushed segment of nothing but records keeps them all. -/
theorem keeps_records {mutations : List Mutation} (h : ∀ m ∈ mutations, Encodable m)
    (hle : upto ≤ name + mutations.length) :
    Keeps (name, ⟨recordsOf mutations, recordsOf mutations⟩) upto :=
  ⟨mutations, h, List.prefix_refl _, List.prefix_refl _, hle⟩

end Keeps

/-- Each segment keeps its records up to where the next one begins. -/
def Linked (files : List (ℕ × File)) : Prop := files.IsChain fun p q => Keeps p q.1

section Linked

variable {files older : List (ℕ × File)} {name next k : ℕ} {file file' : File}

/-- What the last segment holds is of no account. -/
theorem Linked.last (h : Linked (older ++ [(name, file)])) :
    Linked (older ++ [(name, file')]) := by
  obtain ⟨holder, -, hjoin⟩ := List.isChain_append.mp h
  refine List.isChain_append.mpr ⟨holder, List.isChain_singleton _, fun p hp q hq => ?_⟩
  have hkeeps := hjoin p hp (name, file) rfl
  rw [List.head?_singleton, Option.mem_some_iff] at hq
  subst hq
  exact hkeeps

/-- A new segment that begins where the last one keeps its records to. -/
theorem Linked.push (h : Linked (older ++ [(name, file)])) (hkeeps : Keeps (name, file) next) :
    Linked (older ++ [(name, file)] ++ [(next, file')]) := by
  refine List.isChain_append.mpr ⟨h, List.isChain_singleton _, fun p hp q hq => ?_⟩
  rw [List.getLast?_concat, Option.mem_some_iff] at hp
  rw [List.head?_singleton, Option.mem_some_iff] at hq
  subst hp hq
  exact hkeeps

/-- The oldest segments taken away. -/
theorem Linked.drop (h : Linked (older ++ [(name, file)])) :
    Linked (older.drop k ++ [(name, file)]) := by
  rw [← List.take_append_drop k older, List.append_assoc] at h
  exact List.IsChain.right_of_append h

/-- A crash leaves of every file what it keeps. -/
theorem Linked.crashed {left : List (ℕ × File)} (h : Linked files)
    (hcrashed : List.Forall₂ (fun p q => p.1 = q.1 ∧ ∃ rest, p.2.Survives rest ∧
      q.2 = ⟨rest, rest⟩) files left) : Linked left := by
  induction hcrashed with
  | nil => exact List.isChain_nil
  | @cons p q files left hq htail ih =>
    obtain ⟨hname, rest, hsurvives, hq⟩ := hq
    cases htail with
    | nil => exact List.isChain_singleton _
    | @cons p' q' files left hq' htail =>
      obtain ⟨hjoin, hrest⟩ := List.isChain_cons_cons.mp h
      refine List.isChain_cons_cons.mpr ⟨?_, ih hrest⟩
      have hsame : q = (p.1, ⟨rest, rest⟩) := Prod.ext hname.symm hq
      rw [hsame, ← hq'.1]
      exact hjoin.survives hsurvives

/-- Read as segments, none begins past where the one before it ends. -/
theorem Linked.segments {d : Disk} (h : Linked d.files.toList) :
    d.segments.IsChain fun p q => q.1 ≤ segmentEnd p := by
  rw [Disk.segments, List.isChain_map]
  exact List.IsChain.imp (fun _ _ hkeeps => hkeeps.le_segmentEnd) h

end Linked

/-- Where no segment begins past the end of the one before it, there are at least as many
records past a position as numbers up to the end of the log. -/
theorem logEnd_le_past {p : ℕ × Bytes} {rest : List (ℕ × Bytes)}
    (h : (p :: rest).IsChain fun p q => q.1 ≤ segmentEnd p) (applied : ℕ) :
    logEnd (p :: rest) ≤ max p.1 applied + (past applied (p :: rest)).length := by
  induction rest generalizing p with
  | nil =>
    have hlength : (past applied [p]).length = (complete p.2).length - (applied - p.1) := by
      rw [past_cons, List.length_append, List.length_drop]
      rfl
    rw [logEnd, List.getLast?_singleton, hlength]
    dsimp only
    omega
  | cons q rest ih =>
    obtain ⟨hjoin, hrest⟩ := List.isChain_cons_cons.mp h
    have hend : logEnd (p :: q :: rest) = logEnd (q :: rest) := by
      rw [logEnd, logEnd, List.getLast?_cons_cons]
    have hle := ih hrest
    rw [past_cons, List.length_append, List.length_drop, hend]
    unfold segmentEnd at hjoin
    omega

/-! ## Between processes -/

/-- The name of the oldest segment. -/
def Disk.oldest (d : Disk) : ℕ := (d.files.toList.head?.map (·.1)).getD 0

/-- A directory and an engine as any life may leave them. -/
structure Salvageable (disk : Disk) (engine : Engine) : Prop where
  linked : Linked disk.files.toList
  founded : Founded engine disk.oldest
  durable : engine.durable ≤ engine.commits.length

theorem salvageable_empty : Salvageable Disk.empty Engine.empty :=
  ⟨List.isChain_nil, founded_empty, Nat.le_refl 0⟩

section Salvageable

variable {disk disk' : Disk} {engine engine' : Engine} {older : List (ℕ × File)} {name : ℕ}
  {file file' : File}

omit [Crc32] in
/-- The oldest segment is the oldest one whatever the last one holds. -/
theorem oldest_of_last (hlist : disk.files.toList = older ++ [(name, file)])
    (hlist' : disk'.files.toList = older ++ [(name, file')]) : disk'.oldest = disk.oldest := by
  rw [Disk.oldest, Disk.oldest, hlist, hlist']
  cases older <;> rfl

/-- Operations and calls that change nothing but the last file. -/
theorem Salvageable.last (h : Salvageable disk engine)
    (hlist : disk.files.toList = older ++ [(name, file)])
    (hlist' : disk'.files.toList = older ++ [(name, file')]) (hlater : engine.Later engine') :
    Salvageable disk' engine' := by
  have hlinked := h.linked
  rw [hlist] at hlinked
  refine ⟨?_, ?_, ?_⟩
  · rw [hlist']
    exact hlinked.last
  · rw [oldest_of_last hlist hlist']
    exact h.founded.later hlater
  · rw [hlater.durable, hlater.commits]
    exact h.durable

/-- Operations and calls that change nothing. -/
theorem Salvageable.later (h : Salvageable disk engine) (hfiles : disk'.files = disk.files)
    (hlater : engine.Later engine') : Salvageable disk' engine' := by
  have holdest : disk'.oldest = disk.oldest := by rw [Disk.oldest, Disk.oldest, hfiles]
  refine ⟨?_, ?_, ?_⟩
  · rw [hfiles]
    exact h.linked
  · rw [holdest]
    exact h.founded.later hlater
  · rw [hlater.durable, hlater.commits]
    exact h.durable

/-- The operations and calls to come make no difference. -/
theorem Salvageable.given (h : Salvageable disk engine) (replies : List Reply)
    (calls : List Storage.Reply) :
    Salvageable { disk with replies := replies } { engine with replies := calls } :=
  ⟨h.linked, h.founded, h.durable⟩

theorem Salvageable.crashed (h : Salvageable disk engine) (hdisk : disk.Crashed disk')
    (hengine : EngineCrashed engine engine') : Salvageable disk' engine' := by
  have holdest : disk'.oldest = disk.oldest := by
    unfold Disk.Crashed at hdisk
    unfold Disk.oldest
    generalize disk.files.toList = before, disk'.files.toList = left at hdisk ⊢
    cases hdisk with
    | nil => rfl
    | cons hq htail =>
      rw [List.head?_cons, List.head?_cons, Option.map_some, Option.map_some, hq.1]
  refine ⟨h.linked.crashed hdisk, ?_, ?_⟩
  · rw [holdest]
    exact h.founded.crashed hengine
  · rw [hengine.durable]
    exact hengine.kept

end Salvageable

/-! ## In a process -/

/-- The writer of a log and a store that any life may have led to. Its append target is the last
segment, which keeps its records up to the store's position, and while it is not poisoned the
target holds nothing but records and counts them all. -/
structure Trails (w : Writer) (log : List Mutation) (older : List (ℕ × File)) (file : File) :
    Prop where
  keeping : Keeping w.host.store log
  files : w.host.disk.files.toList = older ++ [(w.segment.sink, file)]
  salvageable : Salvageable w.host.disk w.host.store.engine
  keeps : Keeps (w.segment.sink, file) w.host.store.state.applied
  begins : w.segment.sink ≤ w.host.store.state.applied
  sound : w.segment.poisoned = false → ∃ mutations, (∀ m ∈ mutations, Encodable m) ∧
    file.data = recordsOf mutations ∧ w.segment.written = file.data.length

/-! ## Restarts -/

section Boot

variable {disk : Disk} {engine : Engine} {log : List Mutation}

/-- The host ends as a restart may find it. -/
def Host.Salvageable (h : Host) : Prop := Wal.Salvageable h.disk h.store.engine

/-- Recovery ends with the store's position at the end of the log, or with nothing changed.
SOURCE: crates/wal/src/wal.rs:197-257 -/
theorem ends_recover_salvageable {h : Host} (hkeeping : Keeping h.store log)
    (hsalvageable : h.Salvageable) (hbegins : h.disk.oldest ≤ h.store.state.applied) :
    Ends recover h
      (fun tail h' => tail = tailOf h.disk.segments ∧ h.disk.Later h'.disk ∧
        (∃ log', Keeping h'.store log') ∧ h'.store.state.applied = logEnd h.disk.segments ∧
        h'.Salvageable)
      (fun _ h' => h'.Salvageable) fun h' => h'.Salvageable := by
  have hlinked := hsalvageable.linked.segments
  have hreach : logEnd h.disk.segments ≤
      h.store.state.applied + (past h.store.state.applied h.disk.segments).length := by
    cases hsegments : h.disk.segments with
    | nil => exact Nat.zero_le _
    | cons p rest =>
      rw [hsegments] at hlinked
      have hle := logEnd_le_past hlinked h.store.state.applied
      have hfirst : h.disk.oldest = p.1 := by
        have hhead := congrArg List.head? hsegments
        rw [Disk.segments, List.head?_map, List.head?_cons] at hhead
        obtain ⟨q, hq, rfl⟩ := Option.map_eq_some_iff.mp hhead
        rw [Disk.oldest, hq]
        rfl
      rw [hfirst] at hbegins
      omega
  refine ends_recover rfl rfl (fun _ d' hlater _ => ?_) (fun d' hlater _ => ?_)
    (fun d' hlater _ hle hnone => ?_) fun d' hlater _ hle _ => ?_
  · exact hsalvageable.later hlater.files (Engine.Later.refl _)
  · exact hsalvageable.later hlater.files (Engine.Later.refl _)
  · rw [hnone, List.length_nil] at hreach
    exact ⟨rfl, hlater, ⟨log, hkeeping⟩, Nat.le_antisymm hle hreach,
      hsalvageable.later hlater.files (Engine.Later.refl _)⟩
  · have hbound := hkeeping.bound
    refine Ends.mono (hkeeping.ends_apply _ (by rw [List.length_append]; omega))
      (fun revisions s hs => ?_) (fun _ s hs => hsalvageable.later hlater.files hs.engine)
      fun s hs => hsalvageable.later hlater.files hs.engine
    obtain ⟨-, hkeeping', happlied, ⟨contents, hcommits, hbacking⟩, hdurable⟩ := hs
    refine ⟨rfl, hlater, ⟨_, hkeeping'⟩, happlied, ?_, ?_, ?_⟩
    · rw [hlater.files]
      exact hsalvageable.linked
    · have holdest : d'.oldest = h.disk.oldest := by
        rw [Disk.oldest, Disk.oldest, hlater.files]
      show Founded _ d'.oldest
      rw [holdest]
      exact hsalvageable.founded.commit hcommits hdurable (hbacking _ (by omega))
    · have := hsalvageable.durable
      show s.engine.durable ≤ s.engine.commits.length
      rw [hcommits, hdurable, List.length_cons]
      omega

/-- A segment with anything in it is named before the store's position. -/
def Passed (w : Writer) : Prop := 0 < w.segment.written → w.segment.sink < w.host.store.state.applied

/-- The writer of a last segment of nothing but records, all of them flushed. -/
theorem trails_records {host : Host} {older : List (ℕ × File)} {first limit appended : ℕ}
    {mutations : List Mutation} (hmutations : ∀ m ∈ mutations, Encodable m)
    (hkeeping : Keeping host.store log) (hsalvageable : host.Salvageable)
    (hfiles : host.disk.files.toList =
      older ++ [(first, ⟨recordsOf mutations, recordsOf mutations⟩)])
    (happlied : host.store.state.applied = first + mutations.length) :
    Trails ⟨host, ⟨first, (recordsOf mutations).length, limit, false⟩, appended⟩ log older
      ⟨recordsOf mutations, recordsOf mutations⟩ ∧
      Passed ⟨host, ⟨first, (recordsOf mutations).length, limit, false⟩, appended⟩ := by
  refine ⟨⟨hkeeping, hfiles, hsalvageable, keeps_records hmutations (Nat.le_of_eq happlied), ?_,
    fun _ => ⟨mutations, hmutations, rfl, rfl⟩⟩, fun hcounted => ?_⟩
  · show first ≤ host.store.state.applied
    omega
  · have hlength : 0 < mutations.length := by
      rw [List.length_pos_iff]
      rintro rfl
      exact absurd hcounted (Nat.lt_irrefl 0)
    show first < host.store.state.applied
    omega

/-- Opening ends with a writer, or leaves what a restart may find.
SOURCE: crates/wal/src/wal.rs:113-139 -/
theorem ends_openWith_salvageable {h : Host} (hkeeping : Keeping h.store log)
    (hsalvageable : h.Salvageable) (hbegins : h.disk.oldest ≤ h.store.state.applied)
    (options : Options) :
    Ends (openWith options) h
      (fun segment h' => ∃ log' older file, Trails ⟨h', segment, 0⟩ log' older file ∧
        Passed ⟨h', segment, 0⟩)
      (fun _ h' => h'.Salvageable) fun h' => h'.Salvageable := by
  have hunchanged : ∀ {h h' : Host}, h.Salvageable → h.disk.Later h'.disk → h'.store = h.store →
      h'.Salvageable := fun hs hlater hstore =>
    Wal.Salvageable.later hs hlater.files (hstore ▸ Engine.Later.refl _)
  refine ends_bind.mpr (ends_zoom.mpr (Ends.mono reads_createDir (fun (_ : Unit) d1 h1 => ?_)
    (fun _ d1 h1 => hunchanged hsalvageable h1.1 rfl)
    fun d1 h1 => hunchanged hsalvageable h1.1 rfl))
  have hsegments : d1.segments = h.disk.segments := by
    rw [Disk.segments, Disk.segments, Disk.Later.files h1.2]
  have hbegins1 : d1.oldest ≤ h.store.state.applied := by
    rw [Disk.oldest, Disk.Later.files h1.2]
    exact hbegins
  refine ends_bind.mpr (Ends.mono (ends_recover_salvageable (h := ⟨d1, h.store⟩) hkeeping
    (hunchanged hsalvageable h1.2 rfl) hbegins1) (fun tail h2 h2ok => ?_) (fun _ _ h => h)
    fun _ h => h)
  obtain ⟨rfl, hlater2, ⟨log2, hkeeping2⟩, happlied2, hsalvageable2⟩ := h2ok
  have hsegments2 : h2.disk.segments = d1.segments := by
    rw [Disk.segments, Disk.segments, hlater2.files]
  rw [← hsegments2] at happlied2 ⊢
  rcases List.eq_nil_or_concat h2.disk.files.toList with hnil | ⟨older, ⟨first, file⟩, hlist⟩
  · -- nothing there: a log begins
    have hnone : h2.disk.segments = [] := by rw [Disk.segments, hnil, List.map_nil]
    rw [hnone] at happlied2 ⊢
    refine ends_zoom.mpr (Ends.mono (ends_create_empty hnil options.segmentLimit)
      (fun segment d3 h3 => ?_) (fun _ d3 h3 => hunchanged hsalvageable2 h3.1 rfl)
      fun d3 h3 => hunchanged hsalvageable2 h3.1 rfl)
    obtain ⟨rfl, hlist3⟩ := h3
    have hsalvageable3 : Host.Salvageable ⟨d3, h2.store⟩ := by
      refine ⟨?_, ?_, hsalvageable2.durable⟩
      · rw [hlist3]
        exact List.isChain_singleton _
      · have holdest : d3.oldest = h2.disk.oldest := by
          rw [Disk.oldest, Disk.oldest, hlist3, hnil]
          rfl
        show Founded _ d3.oldest
        rw [holdest]
        exact hsalvageable2.founded
    have hnone : ∀ m ∈ ([] : List Mutation), Encodable m := by simp
    exact ⟨log2, [], _, trails_records hnone hkeeping2 hsalvageable3 hlist3 happlied2⟩
  · -- the tail is reopened and cut
    rw [List.concat_eq_append] at hlist
    have hlast : h2.disk.segments.getLast? = some (first, file.data) := by
      rw [Disk.segments, hlist, List.map_append, List.map_singleton, List.getLast?_concat]
    have htail : tailOf h2.disk.segments =
        some ⟨first, (recordsOf (complete file.data)).length⟩ := by
      rw [tailOf, hlast, Option.map_some]
    have hposition : h2.store.state.applied = first + (complete file.data).length := by
      rw [happlied2, logEnd, hlast]
    rw [htail]
    have hlast3 : ∀ {d3 : Disk} {file' : File}, d3.files.toList = older ++ [(first, file')] →
        Host.Salvageable ⟨d3, h2.store⟩ := fun hlist3 =>
      Wal.Salvageable.last hsalvageable2 hlist hlist3 (Engine.Later.refl _)
    refine ends_zoom.mpr (Ends.mono (ends_reopen hlist (records_leftover file.data).symm _)
      (fun segment d3 h3 => ?_) (fun _ d3 h3 => h3.2.elim hlast3 hlast3)
      fun d3 h3 => h3.2.elim hlast3 hlast3)
    obtain ⟨rfl, hlist3⟩ := h3
    exact ⟨log2, older, _, trails_records (fun m hm => encodable_of_mem_complete hm) hkeeping2
      (hlast3 hlist3) hlist3 hposition⟩

/-- A restart ends with a writer, or leaves what a restart may find.
SOURCE: crates/wal/src/wal.rs:113-139, crates/mvcc/src/store.rs:66-117 -/
theorem Salvageable.ends_boot (h : Salvageable disk engine) (options : Options) :
    Ends (boot options) (disk, engine)
      (fun w _ => ∃ log older file, Trails w log older file ∧ Passed w)
      (fun _ m => Salvageable m.1 m.2) fun m => Salvageable m.1 m.2 := by
  obtain ⟨log, marker, hholds, hstart, hle, hcount⟩ :=
    h.founded engine.commits (List.suffix_refl _) h.durable
  refine ends_bind.mpr (ends_zoom.mpr (Ends.mono (reads_openState hholds) (fun state e he => ?_)
    (fun _ e he => h.later rfl he.1) fun e he => h.later rfl he.1))
  obtain ⟨rfl, hlater⟩ := he
  have hcommitted : Holds e.committed marker (stamped log) := hlater.committed ▸ hholds
  have hbegins : disk.oldest ≤ (restoredState marker (stamped log)).applied := by
    rw [restoredState, restored_position (by omega)]
    exact hstart
  refine ends_zoom.mpr (ends_bind.mpr (Ends.mono (ends_openWith_salvageable
    (h := ⟨disk, ⟨e, restoredState marker (stamped log)⟩⟩) (keeping_restored hcommitted hle hcount)
    (h.later rfl hlater) hbegins options) (fun segment h' hok => ?_) (fun _ _ h => h) fun _ h => h))
  exact ends_bind.mpr (ends_get.mpr (ends_pure.mpr hok))

end Boot

end Hadar.Wal
