import Hadar.Analysis.Lasting
import Hadar.Analysis.Trailing

/-!
# Records before applications

Every mutation that was applied since some revision has an entry, which says where its record was
written. A batch's entries lie one after another past everything that was written before, so the
places of two mutations never overlap. An entry is good while its record is flushed in the log,
which nothing but a checkpoint ends, and from a checkpoint on because the engine keeps the
mutation itself.
-/

set_option autoImplicit false

namespace Hadar.Mvcc

/-- The events past a revision are the last ones of a log. -/
theorem mem_drop_stamped {log : List Mutation} (hcount : log.length ≤ i64Max) {since : ℕ}
    (hle : since ≤ log.length) {e : Event} :
    e ∈ (stamped log).drop since ↔ e ∈ stamped log ∧ since < e.date := by
  have hlength : (log.take since).length = since := List.length_take_of_le hle
  have hrest : since + (log.drop since).length = log.length := by
    rw [List.length_drop]
    omega
  have hsplit : stamped log = stamped (log.take since) ++ stampedFrom since (log.drop since) := by
    conv_lhs => rw [← List.take_append_drop since log]
    rw [stamped_append, hlength]
  have hdrop : (stamped log).drop since = stampedFrom since (log.drop since) := by
    rw [hsplit, List.drop_left']
    rw [stamped, length_stampedFrom, hlength]
  rw [hdrop, hsplit, List.mem_append]
  constructor
  · exact fun he => ⟨.inr he, (lt_date_of_mem_stampedFrom (by omega) he).1⟩
  · rintro ⟨he | he, hlt⟩
    · have := (lt_date_of_mem_stampedFrom (by omega) he).2
      omega
    · exact he

end Hadar.Mvcc

namespace Hadar.Wal

open Hadar.Lib Hadar.Lib.Prog Hadar.Storage Hadar.Mvcc Std

section Ordering

variable [Crc32]

/-! ## Where a batch's records are -/

/-- The entries of events whose records are written to a segment from an offset on. -/
def entriesFrom (segment : ℕ) : ℕ → List Event → List Entry
  | _, [] => []
  | offset, e :: rest =>
    ⟨e, segment, offset⟩ :: entriesFrom segment (offset + (recordOf e.2).length) rest

section Entries

variable {segment offset since : ℕ} {events : List Event} {x : Entry}

theorem map_event_entriesFrom : (entriesFrom segment offset events).map Entry.event = events := by
  induction events generalizing offset with
  | nil => rfl
  | cons e rest ih => rw [entriesFrom, List.map_cons, ih]

/-- An entry is where its record is. -/
theorem place_of_mem_entriesFrom (hx : x ∈ entriesFrom segment offset events) :
    x.segment = segment ∧ offset ≤ x.offset ∧
      x.stop ≤ offset + (recordsOf (events.map (·.2))).length ∧
      ∀ data, data.length = offset →
        recordOf x.event.2 <+: (data ++ recordsOf (events.map (·.2))).drop x.offset := by
  induction events generalizing offset with
  | nil => cases hx
  | cons e rest ih =>
    rw [List.map_cons, recordsOf_cons, List.length_append]
    rcases List.mem_cons.mp hx with rfl | hx
    · refine ⟨rfl, Nat.le_refl _, ?_, fun data hdata => ?_⟩
      · show offset + (recordOf e.2).length ≤ _
        omega
      · rw [List.drop_left' hdata]
        exact List.prefix_append _ _
    · obtain ⟨hsegment, hle, hstop, hprefix⟩ := ih hx
      refine ⟨hsegment, by omega, by omega, fun data hdata => ?_⟩
      rw [← List.append_assoc]
      exact hprefix _ (by rw [List.length_append, hdata])

/-- The records of a batch do not overlap. -/
theorem pairwise_entriesFrom : (entriesFrom segment offset events).Pairwise Entry.Before := by
  induction events generalizing offset with
  | nil => exact .nil
  | cons e rest ih =>
    refine List.pairwise_cons.mpr ⟨fun x hx => ?_, ih⟩
    obtain ⟨hsegment, hle, -, -⟩ := place_of_mem_entriesFrom hx
    exact .inr ⟨hsegment.symm, hle⟩

/-- A record stays where it is while files only grow. -/
theorem Entry.Logged.grows {d d' : Disk} (h : x.Logged d) (hgrows : d.Grows d') : x.Logged d' := by
  obtain ⟨file, hfile, hdata, hflushed⟩ := h
  obtain ⟨file', hfile', hextends⟩ := hgrows _ _ hfile
  have hlonger : ∀ {bytes bytes' : Bytes}, bytes <+: bytes' →
      recordOf x.event.2 <+: bytes.drop x.offset → recordOf x.event.2 <+: bytes'.drop x.offset := by
    rintro bytes bytes' ⟨more, rfl⟩ hrecord
    rw [List.drop_append]
    exact hrecord.trans (List.prefix_append _ _)
  refine ⟨file', hfile', hlonger hextends.data hdata, ?_⟩
  rcases hextends.flushed with hsame | hall
  · rw [hsame]
    exact hflushed
  · exact hlonger hall hdata

omit [Crc32] in
/-- What was made durable stays so while commits are only added. -/
theorem Entry.Saved.commits {e e' : Engine} (h : x.Saved e) (hcommits : e.commits <:+ e'.commits)
    (hdurable : e'.durable = e.durable) : x.Saved e' := by
  obtain ⟨kept, hkept, hlength, hrecord⟩ := h
  exact ⟨kept, hkept.trans hcommits, hlength.trans hdurable.symm, hrecord⟩

end Entries

/-! ## What was applied -/

/-- The mutations a store has applied past a revision, each with its record in the log or no longer
needed there. -/
structure Chart (since : ℕ) (log : List Mutation) (entries : List Entry) (disk : Disk)
    (engine : Engine) : Prop where
  count : log.length ≤ i64Max
  since_le : since ≤ log.length
  events : entries.map Entry.event = (stamped log).drop since
  holds : ∃ marker, Holds engine.committed marker (stamped log)
  apart : entries.Pairwise Entry.Before
  covered : ∀ x ∈ entries, x.Logged disk ∨ x.Saved engine

/-- The same in a process, whose append target is past every entry. -/
structure Charted (since : ℕ) (log : List Mutation) (entries : List Entry) (w : Writer) : Prop where
  chart : Chart since log entries w.host.disk w.host.store.engine
  trails : ∃ older file, Trails w log older file
  placed : ∀ x ∈ entries, x.segment < w.segment.sink ∨
    x.segment = w.segment.sink ∧ x.stop ≤ w.segment.written

section Chart

variable {w w' : Writer} {since : ℕ} {log : List Mutation} {entries : List Entry}
  {disk disk' : Disk} {engine engine' : Engine} {older : List (ℕ × File)} {file : File}

theorem Chart.grows (h : Chart since log entries disk engine) (hgrows : disk.Grows disk')
    (hlater : engine.Later engine') : Chart since log entries disk' engine' := by
  refine ⟨h.count, h.since_le, h.events, ?_, h.apart, fun x hx => (h.covered x hx).imp ?_ ?_⟩
  · rw [hlater.committed]
    exact h.holds
  · exact fun hlogged => hlogged.grows hgrows
  · exact fun hsaved =>
      hsaved.commits (hlater.commits ▸ List.suffix_refl engine.commits) hlater.durable

/-- Nothing was applied yet. -/
theorem Trails.charted (h : Trails w log older file) : Charted log.length log [] w := by
  obtain ⟨marker, -, hholds⟩ := h.keeping.holds
  refine ⟨⟨h.keeping.count, Nat.le_refl _, ?_, ⟨marker, hholds⟩, .nil, by simp⟩, ⟨_, _, h⟩,
    by simp⟩
  rw [List.map_nil, stamped, eq_comm, List.drop_eq_nil_iff, length_stampedFrom]

theorem Charted.given (h : Charted since log entries w) (replies : List Reply)
    (calls : List Storage.Reply) : Charted since log entries (w.given replies calls) := by
  obtain ⟨older, file, htrails⟩ := h.trails
  exact ⟨⟨h.chart.count, h.chart.since_le, h.chart.events, h.chart.holds, h.chart.apart,
    h.chart.covered⟩, ⟨older, file, htrails.given replies calls⟩, h.placed⟩

/-- A step that applied nothing. -/
theorem Charted.unmoved (h : Charted since log entries w) (hunmoved : Unmoved w w' log) :
    Charted since log entries w' := by
  refine ⟨h.chart.grows hunmoved.onward.grows hunmoved.store.engine, hunmoved.trails,
    fun x hx => ?_⟩
  have := h.placed x hx
  have := hunmoved.onward.target
  omega

/-- A batch that was retired: its records are in the log, past all others. -/
theorem Charted.entered (h : Charted since log entries w) {batch : List Mutation}
    {revisions : List Revision} (hentered : Entered w w' log batch revisions) :
    ∃ more, Charted since (log ++ batch) (entries ++ more) w' ∧
      more.map Entry.event = stampedFrom log.length batch ∧
      ∀ x ∈ more, x.Logged w'.host.disk := by
  obtain ⟨older, data, htrails, hwritten, hclear⟩ := hentered.trails
  have hbatch : (stampedFrom log.length batch).map (·.2) = batch := map_snd_stampedFrom _ _
  have hplace := fun x (hx : x ∈ entriesFrom w'.segment.sink data.length
    (stampedFrom log.length batch)) => place_of_mem_entriesFrom hx
  rw [hbatch] at hplace
  rw [List.length_append] at hwritten
  have hlogged : ∀ x ∈ entriesFrom w'.segment.sink data.length (stampedFrom log.length batch),
      x.Logged w'.host.disk := by
    intro x hx
    obtain ⟨hsegment, -, -, hrecord⟩ := hplace x hx
    refine ⟨⟨data ++ recordsOf batch, data ++ recordsOf batch⟩, ?_, hrecord data rfl,
      hrecord data rfl⟩
    rw [hsegment]
    exact OrderedMap.getElem?_of_toList htrails.files
  obtain ⟨marker, -, hholds⟩ := htrails.keeping.holds
  refine ⟨_, ⟨⟨htrails.keeping.count, ?_, ?_, ⟨marker, hholds⟩, ?_, ?_⟩, ⟨_, _, htrails⟩, ?_⟩,
    map_event_entriesFrom, hlogged⟩
  · rw [List.length_append]
    exact Nat.le_add_right_of_le h.chart.since_le
  · have hle : since ≤ (stamped log).length := by
      rw [stamped, length_stampedFrom]
      exact h.chart.since_le
    rw [List.map_append, h.chart.events, map_event_entriesFrom, stamped_append,
      List.drop_append_of_le_length hle]
  · refine List.pairwise_append.mpr ⟨h.chart.apart, pairwise_entriesFrom, fun x hx y hy => ?_⟩
    obtain ⟨hsegment, hoffset, -, -⟩ := hplace y hy
    have := h.placed x hx
    unfold Entry.Before
    omega
  · intro x hx
    rcases List.mem_append.mp hx with hx | hx
    · exact (h.chart.covered x hx).imp (fun hlogged => hlogged.grows hentered.onward.grows)
        fun hsaved => hsaved.commits hentered.commits hentered.durable
    · exact .inl (hlogged x hx)
  · intro x hx
    rcases List.mem_append.mp hx with hx | hx
    · have := h.placed x hx
      omega
    · obtain ⟨hsegment, -, hstop, -⟩ := hplace x hx
      omega

/-! ## Checkpoints -/

/-- A checkpoint takes away nothing but records of mutations it has made durable. -/
theorem Charted.compacted (h : Charted since log entries w)
    (htrails : Trails w log older file)
    (hcompacted : Compacted w.host w'.host older (w.segment.sink, file))
    (hsegment : w'.segment = w.segment) : Charted since log entries w' := by
  obtain ⟨older', htrails'⟩ := htrails.compacted hcompacted hsegment
  refine ⟨⟨h.chart.count, h.chart.since_le, h.chart.events, ?_, h.chart.apart, fun x hx => ?_⟩,
    ⟨_, _, htrails'⟩, by rw [hsegment]; exact h.placed⟩
  · obtain ⟨marker, -, hholds⟩ := htrails'.keeping.holds
    exact ⟨marker, hholds⟩
  cases hcompacted with
  | untouched disk store =>
    exact (h.chart.grows (.of_files disk.files) store.engine).covered x hx
  | unsure disk state commits durable calls =>
    refine (h.chart.covered x hx).imp (fun hlogged => hlogged.grows (.of_files disk.files))
      fun hsaved => hsaved.commits ?_ durable
    rw [commits]
    exact List.suffix_cons _ _
  | taken k files replies state commits durable calls =>
    -- the commit that was made durable holds everything there is
    obtain ⟨marker, hholds⟩ := h.chart.holds
    refine .inr ⟨_, List.suffix_refl _, by rw [commits, durable, List.length_cons], ?_⟩
    have hx' : x.event ∈ (stamped log).drop since := by
      rw [← h.chart.events]
      exact List.mem_map_of_mem hx
    rw [commits]
    exact (hholds.mark _).lookup (List.mem_of_mem_drop hx')

end Chart

omit [Crc32] in
/-- No file was touched and nothing made durable, or the store's part of a checkpoint has returned
and nothing was done to the store since. -/
def Checked (h h' : Host) : Prop :=
  h'.disk.files = h.disk.files ∧ h'.store.engine.durable = h.store.engine.durable ∨
    ∃ position, checkpoint.exec h.store = (.ok position, h'.store)

omit [Crc32] in
/-- A checkpoint touches no file before the store's part of it has returned.
SOURCE: crates/wal/src/wal.rs:265-285 -/
theorem ends_compact_checked (h : Host) :
    Ends compact h (fun _ h' => Checked h h') (fun _ h' => Checked h h') fun h' => Checked h h' := by
  refine ends_bind.mpr (ends_zoom.mpr (Ends.mono
    (ends_checkpoint.and (ends_exec checkpoint h.store)) (fun position s hs => ?_)
    (fun _ s hs => .inl ⟨rfl, ?_⟩) fun s hs => .inl ⟨rfl, hs.1.1.engine.durable⟩))
  · have hchecked : ∀ d, Checked h ⟨d, s⟩ := fun _ => .inr ⟨position, hs.2⟩
    exact ends_bind.mpr (ends_zoom.mpr (Ends.mono (ends_left list h.disk)
      (fun segments d _ => ends_zoom.mpr (Ends.mono
        (ends_left (removeCovered position segments 0) d) (fun _ d' _ => hchecked d')
        (fun _ d' _ => hchecked d') fun d' _ => hchecked d'))
      (fun _ d _ => hchecked d) fun d _ => hchecked d))
  · rcases hs.1.1 with hlater | ⟨-, -, hdurable, -⟩
    · exact hlater.engine.durable
    · exact hdurable

/-! ## Turns -/

section Turn

variable {w w' : Writer} {since interval : ℕ} {log : List Mutation} {entries more : List Entry}
  {batch : List Request} {requested : Bool}

/-- From `w` on nothing that was in the log or came into it is gone in `w'` and nothing was made
durable, unless a checkpoint that began over the store of `settled` has returned. -/
structure Spares (w settled w' : Writer) (entries more : List Entry) : Prop where
  records : ∀ x, x ∈ more ∨ x ∈ entries ∧ x.Logged w.host.disk → x.Logged w'.host.disk ∨
    ∃ position, checkpoint.exec settled.host.store = (.ok position, w'.host.store)
  durable : w'.host.store.engine.durable = w.host.store.engine.durable ∨
    ∃ position, checkpoint.exec settled.host.store = (.ok position, w'.host.store)

/-- The batch of a turn is dealt with: it was applied, with its records in the log, or nothing
was. -/
structure Settled (since : ℕ) (w w' : Writer) (entries : List Entry) (batch : List Request)
    (writes : List (Except Error (List Revision))) : Prop where
  settled : w' = w.settled batch
  durable : w'.host.store.engine.durable = w.host.store.engine.durable
  charted : ∃ log more, Charted since log (entries ++ more) w' ∧
    acknowledged (batch.zip writes) = more.map Entry.event ∧
    ∀ x, x ∈ more ∨ x ∈ entries ∧ x.Logged w.host.disk → x.Logged w'.host.disk

/-- What a turn that returned leaves. -/
def Turned (since : ℕ) (w w' : Writer) (entries : List Entry) (batch : List Request)
    (writes : List (Except Error (List Revision))) : Prop :=
  ∃ log more, Charted since log (entries ++ more) w' ∧
    acknowledged (batch.zip writes) = more.map Entry.event ∧
    Spares w (w.settled batch) w' entries more

/-- What a turn leaves, however it ends. -/
def Halted (since : ℕ) (w w' : Writer) (entries : List Entry) (batch : List Request) : Prop :=
  ∃ log more, Chart since log (entries ++ more) w'.host.disk w'.host.store.engine ∧
    w'.host.Salvageable ∧ Spares w (w.settled batch) w' entries more

theorem Turned.halted {writes : List (Except Error (List Revision))}
    (h : Turned since w w' entries batch writes) : Halted since w w' entries batch := by
  obtain ⟨log, more, hcharted, -, hspares⟩ := h
  obtain ⟨older, file, htrails⟩ := hcharted.trails
  exact ⟨log, more, hcharted.chart, htrails.salvageable, hspares⟩

/-- Retiring a turn's batch.
SOURCE: crates/wal/src/writer.rs:175-208 -/
theorem Charted.ends_retire (h : Charted since log entries w) (hne : batch ≠ []) :
    Ends (retire batch) w
      (fun revisions w' => Settled since w w' entries batch (answer batch (.ok revisions)))
      (fun e w' => Settled since w w' entries batch (answer batch (.error e)))
      fun w' => Halted since w w' entries batch := by
  obtain ⟨older, file, htrails⟩ := h.trails
  have hsettled : w.settled batch = ((retire batch).exec w).2 := by
    rw [Writer.settled, if_neg (by simpa using hne)]
  refine Ends.mono ((htrails.ends_retire batch).and (ends_left _ w)) (fun revisions w' hw' => ?_)
    (fun e w' hw' => ?_) fun w' hw' => ?_
  · obtain ⟨hentered, hleft⟩ := hw'
    obtain ⟨more, hcharted, hevents, hlogged⟩ := h.entered hentered
    refine ⟨hleft.trans hsettled.symm, hentered.durable, _, more, hcharted, ?_, ?_⟩
    · have hlength : revisions.length = (mutationsOf batch).length := by
        rw [hentered.revisions, List.length_map, length_stampedFrom]
      rw [(acknowledged_answer_ok hlength).1, hentered.revisions, zip_stampedFrom, hevents]
    · rintro x (hx | ⟨-, hx⟩)
      · exact hlogged x hx
      · exact hx.grows hentered.onward.grows
  · obtain ⟨hunmoved, hleft⟩ := hw'
    refine ⟨hleft.trans hsettled.symm, hunmoved.store.engine.durable, log, [], ?_,
      (acknowledged_answer_error batch e).1, ?_⟩
    · rw [List.append_nil]
      exact h.unmoved hunmoved
    · rintro x (hx | ⟨-, hx⟩)
      · cases hx
      · exact hx.grows hunmoved.onward.grows
  · obtain ⟨hdropped, -⟩ := hw'
    refine ⟨log, [], ?_, hdropped.salvageable, ?_, .inl hdropped.store.engine.durable⟩
    · rw [List.append_nil]
      exact h.chart.grows hdropped.grows hdropped.store.engine
    · rintro x (hx | ⟨-, hx⟩)
      · cases hx
      · exact .inl (hx.grows hdropped.grows)

/-- A checkpoint once the batch is dealt with.
SOURCE: crates/wal/src/wal.rs:265-285 -/
theorem Settled.ends_compact {w₁ : Writer} {writes : List (Except Error (List Revision))}
    (h : Settled since w w₁ entries batch writes) :
    Ends (Writer.onHost compact) w₁
      (fun _ w' => ∀ appended, Turned since w { w' with appended } entries batch writes)
      (fun _ w' => Turned since w w' entries batch writes)
      fun w' => Halted since w w' entries batch := by
  obtain ⟨log, more, hcharted, hevents, hlogged⟩ := h.charted
  obtain ⟨older, file, htrails⟩ := hcharted.trails
  -- however it ends, and whatever is counted as appended
  have hturned : ∀ host appended, Checked w₁.host host →
      Compacted w₁.host host older (w₁.segment.sink, file) →
      Turned since w ⟨host, w₁.segment, appended⟩ entries batch writes := by
    intro host appended hchecked hcompacted
    refine ⟨log, more, hcharted.compacted htrails hcompacted rfl, hevents, ?_⟩
    rcases hchecked with ⟨hfiles, hdurable⟩ | ⟨position, hposition⟩
    · exact ⟨fun x hx => .inl ((hlogged x hx).grows (.of_files hfiles)),
        .inl (hdurable.trans h.durable)⟩
    · rw [h.settled] at hposition
      exact ⟨fun x hx => .inr ⟨position, hposition⟩, .inr ⟨position, hposition⟩⟩
  exact ends_zoom.mpr (Ends.mono
    ((Wal.ends_compact htrails.files).and (ends_compact_checked w₁.host))
    (fun _ host hhost appended => hturned host appended hhost.2 hhost.1.1)
    (fun _ host hhost => hturned host _ hhost.2 hhost.1.1)
    fun host hhost => (hturned host w₁.appended hhost.2 hhost.1.1).halted)

/-- One turn: what was applied has its records in the log, and only a checkpoint takes any away.
SOURCE: crates/wal/src/writer.rs:140-171 -/
theorem Charted.ends_turn (h : Charted since log entries w) :
    Ends (turn interval batch requested) w
      (fun answers w' => Turned since w w' entries batch answers.writes)
      (fun _ _ => False) fun w' => Halted since w w' entries batch := by
  refine @Wal.ends_turn w batch _ interval requested
    (fun writes w' => Settled since w w' entries batch writes)
    (fun writes w' => Turned since w w' entries batch writes) _ (fun hempty => ?_)
    (fun hne => h.ends_retire hne) (fun writes w' hsettled => ?_)
    fun writes w' hsettled _ => ?_
  · subst hempty
    refine ⟨rfl, rfl, log, [], by rwa [List.append_nil], rfl, ?_⟩
    rintro x (hx | ⟨-, hx⟩)
    · cases hx
    · exact hx
  · exact Ends.mono hsettled.ends_compact (fun _ w'' h => h 0) (fun _ _ h => h) fun _ h => h
  · obtain ⟨log, more, hcharted, hevents, hlogged⟩ := hsettled.charted
    exact ⟨log, more, hcharted, hevents, fun x hx => .inl (hlogged x hx), .inl hsettled.durable⟩

end Turn

/-! ## Runs and lives -/

section Run

variable {w₀ w : Writer} {interval : ℕ} {turns : List Turn} {told : List Exchange}
  {options : Options}

/-- A run keeps an entry for every mutation it applied, and acknowledges these. -/
theorem Run.charted {allowed : Writer → Turn → Prop} {log₀ : List Mutation}
    {older : List (ℕ × File)} {file : File} (h : Trails w₀ log₀ older file)
    (hrun : Run interval allowed w₀ turns w told) :
    ∃ log entries, Charted log₀.length log entries w ∧
      acknowledged told = entries.map Entry.event := by
  induction hrun with
  | start => exact ⟨log₀, [], h.charted, rfl⟩
  | @turned turns w w' told t answers before permitted ran ih =>
    obtain ⟨log, entries, hcharted, hevents⟩ := ih
    obtain ⟨log', more, hcharted', hevents', -⟩ :=
      (hcharted.given t.replies t.calls).ends_turn.of_ok ran
    refine ⟨log', entries ++ more, hcharted', ?_⟩
    rw [acknowledged_append, hevents, hevents', List.map_append]

/-- What a turn leaves, however it ends. -/
theorem Charted.halted {since : ℕ} {log : List Mutation} {entries : List Entry}
    (h : Charted since log entries w) (t : Turn) :
    Halted since (w.given t.replies t.calls) (w.after interval t) entries t.batch :=
  Ends.left (P := fun w' => Halted since (w.given t.replies t.calls) w' entries t.batch)
    (Ends.mono (h.given t.replies t.calls).ends_turn (fun _ _ h => h.halted)
      (fun _ _ h => h.elim) fun _ h => h)

/-- What any life has led to. -/
def Machine.Salvaged : Machine → Prop
  | .down disk engine => Salvageable disk engine
  | .up w => ∃ log older file, Trails w log older file

theorem Career.salvaged {machine : Machine} (h : Career options machine) : machine.Salvaged := by
  induction h with
  | fresh => exact salvageable_empty
  | @opened disk disk' engine engine' replies calls w before ran ih =>
    obtain ⟨log, older, file, htrails, -⟩ :=
      ((Salvageable.given ih replies calls).ends_boot options).of_ok ran
    exact ⟨log, older, file, htrails⟩
  | @unopened disk disk' disk'' engine engine' engine'' replies calls stop before ran onDisk
      inEngine ih =>
    have hends := (Salvageable.given ih replies calls).ends_boot options
    have hleft : Salvageable disk' engine' := by
      cases stop with
      | error e => exact hends.of_error ran
      | panic => exact hends.of_dead ran (.inl rfl)
      | crash => exact hends.of_dead ran (.inr rfl)
    exact hleft.crashed onDisk inEngine
  | @turned w w' t answers before ran ih =>
    obtain ⟨log, older, file, htrails⟩ := ih
    obtain ⟨log', more, hcharted, -⟩ := (htrails.charted.given t.replies t.calls).ends_turn.of_ok ran
    exact ⟨log', hcharted.trails⟩
  | @stopped w t disk engine before onDisk inEngine ih =>
    obtain ⟨log, older, file, htrails⟩ := ih
    obtain ⟨log', more, -, hsalvageable, -⟩ := htrails.charted.halted t
    exact hsalvageable.crashed onDisk inEngine

/-- A chart says of the mutations that were applied what is to be said of them. -/
theorem Chart.writesAhead {since : ℕ} {log : List Mutation} {entries : List Entry}
    (h : Chart since log entries w.host.disk w.host.store.engine)
    (htold : ∀ e ∈ acknowledged told, ∃ x ∈ entries, x.event = e) :
    WritesAhead since told w entries := by
  refine ⟨fun rev tombstone raw => ?_, htold, h.apart, h.covered⟩
  obtain ⟨marker, hholds⟩ := h.holds
  have hmem : ∀ e : Event, (∃ x ∈ entries, x.event = e) ↔ e ∈ stamped log ∧ since < e.date := by
    intro e
    rw [← List.mem_map, h.events, mem_drop_stamped h.count h.since_le]
  rw [hholds.lookup_iff]
  constructor
  · rintro ⟨hlt, e, he, rfl, htombstone, hraw⟩
    obtain ⟨x, hx, rfl⟩ := (hmem e).mpr ⟨he, hlt⟩
    exact ⟨x, hx, rfl, htombstone, hraw⟩
  · rintro ⟨x, hx, rfl, htombstone, hraw⟩
    obtain ⟨he, hlt⟩ := (hmem x.event).mp ⟨x, hx, rfl⟩
    exact ⟨hlt, x.event, he, rfl, htombstone, hraw⟩

/-- Records come before applications, and stay until what was applied is durable. A writer that
came out of any life runs through any turns; `t` is a turn more that may be cut short at any of its
operations and calls, so what is said of it holds at every step.
SOURCE: crates/wal/src/writer.rs:175-208, crates/wal/src/segment.rs:99-129,
crates/wal/src/wal.rs:265-285 -/
theorem writes_ahead (h : Career options (.up w₀))
    (hrun : Run options.checkpointInterval (fun _ _ => True) w₀ turns w told) (t : Turn) :
    ∃ entries more, WritesAhead w₀.host.store.state.current.main told w entries ∧
      WritesAhead w₀.host.store.state.current.main told (w.after options.checkpointInterval t)
        (entries ++ more) ∧
      Withholds options.checkpointInterval w t entries more := by
  obtain ⟨log₀, older, file, htrails⟩ := h.salvaged
  have hsince : w₀.host.store.state.current.main = log₀.length := by
    rw [htrails.keeping.current]
    exact Nat.min_eq_left htrails.keeping.count
  obtain ⟨log, entries, hcharted, hevents⟩ := hrun.charted htrails
  have hhalted : Halted log₀.length (w.given t.replies t.calls)
      (w.after options.checkpointInterval t) entries t.batch := hcharted.halted t
  obtain ⟨log', more, hchart, -, hspares⟩ := hhalted
  have htold : ∀ e ∈ acknowledged told, ∃ x ∈ entries, x.event = e := fun e he => by
    rwa [hevents, List.mem_map] at he
  rw [hsince]
  refine ⟨entries, more, hcharted.chart.writesAhead htold, hchart.writesAhead fun e he => ?_,
    hspares.records, hspares.durable⟩
  obtain ⟨x, hx, rfl⟩ := htold e he
  exact ⟨x, List.mem_append_left _ hx, rfl⟩

end Run

end Ordering

/-! ## A flush refused, a roll-over and a checkpoint -/

/-- Options under which a segment is full after two small records. -/
def narrow : Options := ⟨20, 1000⟩

def narrowWriter : Writer :=
  (@boot crc32fast narrow).returned (Disk.empty, Engine.empty)
    ⟨⟨Disk.empty, KvStore.fresh⟩, ⟨0, 0, 0, false⟩, 0⟩

theorem career_narrowWriter : @Career crc32fast narrow (.up narrowWriter) :=
  @Career.opened crc32fast narrow _ _ _ _ [] [] _ (@Career.fresh crc32fast narrow)
    (exec_returned (by decide +kernel) _)

/-- The flush of a first put is refused; a second put goes to the same segment, and the turn that
puts once more rolls over and takes that segment away. -/
theorem writes_ahead_narrow :
    ∃ w told, @Run crc32fast 1000 (fun _ _ => True) narrowWriter
        [putTurn 107 [.done, .refused 0] [], putTurn 108 [] []] w told ∧
      ∃ entries more, @WritesAhead crc32fast narrowWriter.host.store.state.current.main told w
          entries ∧
        @WritesAhead crc32fast narrowWriter.host.store.state.current.main told
          (@Writer.after crc32fast w 1000 ⟨[⟨[.put [109] [118]]⟩], true, [], []⟩)
          (entries ++ more) ∧
        @Withholds crc32fast 1000 w ⟨[⟨[.put [109] [118]]⟩], true, [], []⟩ entries more := by
  obtain ⟨first, h₁⟩ := @Run.next _ crc32fast _ _ _ _ _
    (@Run.start crc32fast 1000 (fun _ _ => True) narrowWriter)
    (putTurn 107 [.done, .refused 0] []) trivial (by decide +kernel)
  obtain ⟨second, h₂⟩ := @Run.next _ crc32fast _ _ _ _ _ h₁ (putTurn 108 [] []) trivial
    (by decide +kernel)
  exact ⟨_, _, h₂, @writes_ahead crc32fast _ _ _ _ narrow career_narrowWriter h₂ _⟩

end Hadar.Wal
