import Hadar.Analysis.Salvaging
import Hadar.Analysis.Turns

/-!
# The writer's steps in any life

Whatever is refused, the writer goes on from a state any life may lead to, and so does whatever it
leaves behind. Files are added to the directory and grow, and the append target moves on; only a
checkpoint takes a file away, once a commit with the store's position is durable.
-/

set_option autoImplicit false

namespace Hadar.Wal

open Hadar.Lib Hadar.Lib.Prog Hadar.Storage Hadar.Mvcc Std

/-! ## Files that grow -/

/-- Every file is still there, perhaps with more in it. -/
def Disk.Grows (d d' : Disk) : Prop :=
  ∀ (name : ℕ) (file : File), d.files[name]? = some file →
    ∃ file', d'.files[name]? = some file' ∧ file.Extends file'

section Grows

variable {d d' d'' : Disk} {older : List (ℕ × File)} {name next : ℕ} {file file' : File}

theorem Disk.Grows.of_files (h : d'.files = d.files) : d.Grows d' := fun name file hfile =>
  ⟨file, by rw [h]; exact hfile, File.Extends.refl file⟩

theorem Disk.Grows.trans (h : d.Grows d') (h' : d'.Grows d'') : d.Grows d'' := by
  intro name file hfile
  obtain ⟨file', hfile', hextends⟩ := h name file hfile
  obtain ⟨file'', hfile'', hextends'⟩ := h' name file' hfile'
  exact ⟨file'', hfile'', hextends.trans hextends'⟩

/-- More was added to the last file. -/
theorem Disk.Grows.last (hlist : d.files.toList = older ++ [(name, file)])
    (hlist' : d'.files.toList = older ++ [(name, file')]) (hextends : file.Extends file') :
    d.Grows d' := by
  intro x old hold
  rw [← ExtTreeMap.mem_toList_iff_getElem?_eq_some, hlist] at hold
  rcases List.mem_append.mp hold with hmem | hmem
  · refine ⟨old, ?_, File.Extends.refl old⟩
    rw [← ExtTreeMap.mem_toList_iff_getElem?_eq_some, hlist']
    exact List.mem_append_left _ hmem
  · cases List.mem_singleton.mp hmem
    refine ⟨file', ?_, hextends⟩
    rw [← ExtTreeMap.mem_toList_iff_getElem?_eq_some, hlist']
    exact List.mem_append_right _ (List.mem_singleton_self _)

/-- A file was added. -/
theorem Disk.Grows.push (hlist : d'.files.toList = d.files.toList ++ [(next, file)]) :
    d.Grows d' := by
  intro x old hold
  refine ⟨old, ?_, File.Extends.refl old⟩
  rw [← ExtTreeMap.mem_toList_iff_getElem?_eq_some, hlist]
  exact List.mem_append_left _ (ExtTreeMap.mem_toList_iff_getElem?_eq_some.mpr hold)

theorem oldest_le_last (hlist : d.files.toList = older ++ [(name, file)]) : d.oldest ≤ name := by
  rw [Disk.oldest]
  cases hhead : d.files.toList.head? with
  | none => exact Nat.zero_le _
  | some p => exact name_le_last hlist (List.mem_of_mem_head? hhead)

end Grows

/-! ## The writer's state -/

variable [Crc32] {w w' w'' : Writer} {log batch : List Mutation} {older : List (ℕ × File)}
  {file : File}

omit [Crc32] in
/-- Nothing was taken away, and the append target is the same or a later one. -/
structure Onward (w w' : Writer) : Prop where
  grows : w.host.disk.Grows w'.host.disk
  target : w.segment.sink < w'.segment.sink ∨
    w.segment.sink = w'.segment.sink ∧ w.segment.written ≤ w'.segment.written

omit [Crc32] in
theorem Onward.trans (h : Onward w w') (h' : Onward w' w'') : Onward w w'' := by
  refine ⟨h.grows.trans h'.grows, ?_⟩
  have := h.target
  have := h'.target
  omega

omit [Crc32] in
/-- Operations that change neither the files nor the append target. -/
theorem Onward.of_files (hfiles : w'.host.disk.files = w.host.disk.files)
    (hsegment : w'.segment = w.segment) : Onward w w' :=
  ⟨.of_files hfiles, .inr (by rw [hsegment]; exact ⟨rfl, Nat.le_refl _⟩)⟩

section Trails

/-- Operations and calls that change nothing. -/
theorem Trails.later (h : Trails w log older file)
    (hfiles : w'.host.disk.files = w.host.disk.files) (hsegment : w'.segment = w.segment)
    (hstore : w.host.store.Later w'.host.store) : Trails w' log older file := by
  refine ⟨h.keeping.later hstore, ?_, h.salvageable.later hfiles hstore.engine, ?_, ?_, ?_⟩
  · rw [hfiles, hsegment]
    exact h.files
  · rw [hsegment, hstore.state]
    exact h.keeps
  · rw [hsegment, hstore.state]
    exact h.begins
  · rw [hsegment]
    exact h.sound

/-- The operations and calls to come make no difference. -/
theorem Trails.given (h : Trails w log older file) (replies : List Reply)
    (calls : List Storage.Reply) : Trails (w.given replies calls) log older file :=
  ⟨⟨h.keeping.count, h.keeping.current, h.keeping.bound, h.keeping.holds⟩, h.files,
    ⟨h.salvageable.linked, h.salvageable.founded, h.salvageable.durable⟩, h.keeps, h.begins,
    h.sound⟩

/-- The active segment's file once more was added to it. -/
theorem Trails.extended (h : Trails w log older file) {file' : File}
    (hextends : file.Extends file')
    (hfiles : w'.host.disk.files.toList = older ++ [(w.segment.sink, file')])
    (hsink : w'.segment.sink = w.segment.sink) (hstore : w.host.store.Later w'.host.store)
    (hsound : w'.segment.poisoned = false → ∃ mutations, (∀ m ∈ mutations, Encodable m) ∧
      file'.data = recordsOf mutations ∧ w'.segment.written = file'.data.length) :
    Trails w' log older file' := by
  refine ⟨h.keeping.later hstore, by rw [hsink]; exact hfiles,
    h.salvageable.last h.files hfiles hstore.engine, ?_, ?_, hsound⟩
  · rw [hsink, hstore.state]
    exact h.keeps.extends hextends
  · rw [hsink, hstore.state]
    exact h.begins

/-- What a step that applied nothing leaves: the same log, nothing taken away. -/
structure Unmoved (w w' : Writer) (log : List Mutation) : Prop where
  onward : Onward w w'
  store : w.host.store.Later w'.host.store
  trails : ∃ older file, Trails w' log older file

theorem Unmoved.trans (h : Unmoved w w' log) (h' : Unmoved w' w'' log) : Unmoved w w'' log :=
  ⟨h.onward.trans h'.onward, h.store.trans h'.store, h'.trails⟩

/-- What a crash on the way leaves. -/
structure Dropped (w w' : Writer) : Prop where
  grows : w.host.disk.Grows w'.host.disk
  store : w.host.store.Later w'.host.store
  salvageable : w'.host.Salvageable

theorem Unmoved.dropped (h : Unmoved w w' log) : Dropped w w' := by
  obtain ⟨older, file, htrails⟩ := h.trails
  exact ⟨h.onward.grows, h.store, htrails.salvageable⟩

theorem Dropped.after (h : Dropped w' w'') (hbefore : Unmoved w w' log) : Dropped w w'' :=
  ⟨hbefore.onward.grows.trans h.grows, hbefore.store.trans h.store, h.salvageable⟩

theorem Trails.unmoved (h : Trails w log older file)
    (hfiles : w'.host.disk.files = w.host.disk.files) (hsegment : w'.segment = w.segment)
    (hstore : w.host.store.Later w'.host.store) : Unmoved w w' log :=
  ⟨.of_files hfiles hsegment, hstore, older, file, h.later hfiles hsegment hstore⟩

/-! ## Retiring -/

/-- A roll-over goes on in a new segment named after the store's position, or nothing changes.
SOURCE: crates/wal/src/writer.rs:191-196 -/
theorem Trails.ends_rollIfFull (h : Trails w log older file) :
    Ends rollIfFull w (fun _ w' => Unmoved w w' log) (fun _ w' => Unmoved w w' log)
      fun w' => Unmoved w w' log := by
  have hsame : ∀ d, w.host.disk.Later d →
      Unmoved w { w with host := { w.host with disk := d } } log :=
    fun d hlater => h.unmoved hlater.files rfl (KvStore.Later.refl _)
  refine Ends.mono (Wal.ends_rollIfFull h.files h.begins) (fun _ w' hrolled => ?_)
    (fun _ w' ⟨⟨d, hw', hlater⟩, _⟩ => hw' ▸ hsame d hlater)
    fun w' ⟨⟨d, hw', hlater⟩, _⟩ => hw' ▸ hsame d hlater
  rcases hrolled with ⟨-, rfl⟩ | ⟨-, hlt, -, d, rfl, -, hlist⟩
  · exact h.unmoved rfl rfl (KvStore.Later.refl _)
  · have holdest : d.oldest = w.host.disk.oldest := by
      rw [Disk.oldest, Disk.oldest, hlist, h.files]
      cases older <;> rfl
    have hlinked := h.salvageable.linked
    rw [h.files] at hlinked
    refine ⟨⟨.push hlist, .inl hlt⟩, KvStore.Later.refl _, w.host.disk.files.toList, ⟨[], []⟩,
      h.keeping, hlist, ⟨?_, ?_, h.salvageable.durable⟩, keeps_self _, Nat.le_refl _,
      fun _ => ⟨[], by simp, rfl, rfl⟩⟩
    · show Linked d.files.toList
      rw [hlist, h.files]
      exact hlinked.push h.keeps
    · show Founded _ d.oldest
      rw [holdest]
      exact h.salvageable.founded

/-- What an append that succeeded made of the writer: the batch's records are the last thing in
the active segment, flushed, and clear of what was counted before. -/
structure Appended (w w' : Writer) (log batch : List Mutation) (older : List (ℕ × File))
    (data : Bytes) : Prop where
  onward : Onward w w'
  store : w'.host.store = w.host.store
  trails : Trails w' log older ⟨data ++ recordsOf batch, data ++ recordsOf batch⟩
  keeps : Keeps (w'.segment.sink, ⟨data ++ recordsOf batch, data ++ recordsOf batch⟩)
    (w.host.store.state.applied + batch.length)
  sound : w'.segment.poisoned = false
  written : w'.segment.written = (data ++ recordsOf batch).length
  clear : w.segment.sink < w'.segment.sink ∨
    w.segment.sink = w'.segment.sink ∧ w.segment.written ≤ data.length

/-- A batch's records go to the end of the active segment, or nothing is taken away from it.
SOURCE: crates/wal/src/segment.rs:99-129 -/
theorem Trails.ends_append (h : Trails w log older file) (hsound : w.segment.poisoned = false)
    {batch : List Mutation} (hbatch : ∀ m ∈ batch, Encodable m) :
    Ends (Writer.onSegment (Segment.append (recordsOf batch))) w
      (fun _ w' => Appended w w' log batch older file.data)
      (fun _ w' => Unmoved w w' log) fun w' => Dropped w w' := by
  obtain ⟨mutations, hmutations, hdata, hwritten⟩ := h.sound hsound
  have hboth : ∀ m ∈ mutations ++ batch, Encodable m := fun m hm =>
    (List.mem_append.mp hm).elim (hmutations m) (hbatch m)
  have hrecords : file.data ++ recordsOf batch = recordsOf (mutations ++ batch) := by
    rw [hdata, recordsOf_append]
  -- a file with other bytes past the records is no less than it was
  have hunmoved : ∀ (w' : Writer) (file' : File), file.Extends file' →
      w'.host.disk.files.toList = older ++ [(w.segment.sink, file')] →
      w'.segment.sink = w.segment.sink → w.segment.written ≤ w'.segment.written →
      w'.host.store = w.host.store →
      (w'.segment.poisoned = false → ∃ mutations, (∀ m ∈ mutations, Encodable m) ∧
        file'.data = recordsOf mutations ∧ w'.segment.written = file'.data.length) →
      Unmoved w w' log := by
    intro w' file' hextends hfiles hsink hle hstore hsound'
    have hlater : w.host.store.Later w'.host.store := hstore ▸ KvStore.Later.refl _
    exact ⟨⟨.last h.files hfiles hextends, .inr ⟨hsink.symm, hle⟩⟩, hlater, older, file',
      h.extended hextends hfiles hsink hlater hsound'⟩
  have hextends : ∀ rest flushed, flushed = file.flushed ∨ file.data <+: flushed →
      file.Extends ⟨file.data ++ rest, flushed⟩ :=
    fun rest flushed hflushed => ⟨List.prefix_append _ _, hflushed⟩
  refine ends_zoom.mpr (Ends.mono (Wal.ends_append h.files hwritten hsound _)
    (fun _ t ht => ?_) (fun e t ht => ?_) fun t ht => ?_)
  · obtain ⟨hsegment, -, hfiles⟩ := ht
    have hsink : t.segment.sink = w.segment.sink := by rw [hsegment]
    have hcount : t.segment.written = (file.data ++ recordsOf batch).length := by
      rw [hsegment, List.length_append, ← hwritten]
    have hmore := hextends (recordsOf batch) (file.data ++ recordsOf batch)
      (.inr (List.prefix_append _ _))
    refine ⟨⟨.last h.files hfiles hmore, .inr ⟨hsink.symm, ?_⟩⟩, rfl,
      h.extended hmore hfiles hsink (KvStore.Later.refl _) fun _ =>
        ⟨mutations ++ batch, hboth, hrecords, hcount⟩, ?_, ?_, hcount,
      .inr ⟨hsink.symm, Nat.le_of_eq hwritten⟩⟩
    · show w.segment.written ≤ t.segment.written
      rw [hsegment]
      exact Nat.le_add_right _ _
    · have hle := h.keeps.le_segmentEnd
      rw [segmentEnd, hdata, complete_records hmutations] at hle
      show Keeps (t.segment.sink, _) _
      rw [hsink, hrecords]
      refine keeps_records hboth ?_
      rw [List.length_append]
      dsimp only at hle
      omega
    · show t.segment.poisoned = false
      rw [hsegment]
      exact hsound
  · obtain ⟨-, -, hunappended⟩ := ht
    cases hunappended with
    | rewound poisoned flushed kept segment files =>
      have hflushed : flushed = file.flushed ∨ file.data <+: flushed :=
        kept.imp_right fun (hall : flushed = file.data) => hall.symm ▸ List.prefix_refl _
      refine hunmoved _ ⟨file.data, flushed⟩ ⟨List.prefix_refl _, hflushed⟩
        files ?_ ?_ rfl fun _ => ⟨mutations, hmutations, hdata, ?_⟩
      · rw [segment]
      · rw [segment]
      · rw [segment]
        exact hwritten
    | stuck cut second first next segment files =>
      refine hunmoved _ _ (hextends _ _ (.inl rfl)) files ?_ ?_ rfl fun hfalse => ?_
      · rw [segment]
      · rw [segment]
      · rw [segment] at hfalse
        cases hfalse
    | unflushed second first next segment files =>
      refine hunmoved _ _ (hextends _ _ (.inl rfl)) files ?_ ?_ rfl fun _ =>
        ⟨mutations ++ batch, hboth, hrecords, ?_⟩
      · rw [segment]
      · rw [segment]
        exact Nat.le_add_right _ _
      · rw [segment, List.length_append, ← hwritten]
  · obtain ⟨-, -, file', hfiles, hmore⟩ := ht
    exact ⟨.last h.files hfiles hmore, KvStore.Later.refl _,
      h.salvageable.last h.files hfiles (Engine.Later.refl _)⟩

/-- What a batch that was retired made of the writer. -/
structure Entered (w w' : Writer) (log batch : List Mutation) (revisions : List Revision) :
    Prop where
  revisions : revisions = (stampedFrom log.length batch).map (·.1)
  onward : Onward w w'
  commits : w.host.store.engine.commits <:+ w'.host.store.engine.commits
  durable : w'.host.store.engine.durable = w.host.store.engine.durable
  trails : ∃ older data, Trails w' (log ++ batch) older
      ⟨data ++ recordsOf batch, data ++ recordsOf batch⟩ ∧
    w'.segment.written = (data ++ recordsOf batch).length ∧
    (w.segment.sink < w'.segment.sink ∨
      w.segment.sink = w'.segment.sink ∧ w.segment.written ≤ data.length)

/-- A batch that was appended is applied, or it stays in the log alone.
SOURCE: crates/wal/src/writer.rs:201-207 -/
theorem Appended.ends_apply {batch : List Mutation} {data : Bytes}
    (h : Appended w w' log batch older data) :
    Ends (Writer.onHost (Host.onStore (Mvcc.apply batch
        (w.host.store.state.applied + batch.length)))) w'
      (fun revisions w'' => Entered w w'' log batch revisions)
      (fun _ w'' => Unmoved w w'' log) fun w'' => Dropped w w'' := by
  have hkeeping := h.trails.keeping
  have hbound := hkeeping.bound
  rw [h.store] at hbound
  have hcommits : w.host.store.engine.commits = w'.host.store.engine.commits := by rw [h.store]
  have hunmoved : ∀ s, w'.host.store.Later s →
      Unmoved w { w' with host := { w'.host with store := s } } log := fun s hlater =>
    ⟨h.onward.trans (.of_files rfl rfl), h.store ▸ hlater, older, _,
      h.trails.later rfl rfl hlater⟩
  refine ends_zoom.mpr (ends_zoom.mpr (Ends.mono
    (hkeeping.ends_apply batch (by rw [List.length_append]; omega)) (fun revisions s hs => ?_)
    (fun _ s hs => hunmoved s hs) fun s hs => (hunmoved s hs).dropped))
  obtain ⟨hrevisions, hkeeping', happlied, ⟨contents, hcommits', hbacking⟩, hdurable⟩ := hs
  have hbegins := h.trails.begins
  rw [h.store] at hbegins
  refine ⟨hrevisions, h.onward.trans (.of_files rfl rfl), ?_, ?_, older, data,
    ⟨hkeeping', h.trails.files, ⟨h.trails.salvageable.linked, ?_, ?_⟩, ?_, ?_, h.trails.sound⟩,
    h.written, h.clear⟩
  · show _ <:+ s.engine.commits
    rw [hcommits', hcommits]
    exact List.suffix_cons _ _
  · show s.engine.durable = _
    rw [hdurable, h.store]
  · have holdest := oldest_le_last h.trails.files
    exact h.trails.salvageable.founded.commit hcommits' hdurable (hbacking _ (by omega))
  · have := h.trails.salvageable.durable
    show s.engine.durable ≤ s.engine.commits.length
    rw [hcommits', hdurable, List.length_cons]
    omega
  · show Keeps _ s.state.applied
    rw [happlied]
    exact h.keeps
  · show w'.segment.sink ≤ s.state.applied
    omega

/-- What counts the bytes appended changes nothing else. -/
theorem Appended.counted {batch : List Mutation} {data : Bytes}
    (h : Appended w w' log batch older data) (appended : ℕ) :
    Appended w { w' with appended } log batch older data :=
  ⟨h.onward.trans (.of_files rfl rfl), h.store, h.trails.later rfl rfl (KvStore.Later.refl _),
    h.keeps, h.sound, h.written, h.clear⟩

theorem Entered.after {batch : List Mutation} {revisions : List Revision}
    (h : Entered w' w'' log batch revisions) (hbefore : Unmoved w w' log) :
    Entered w w'' log batch revisions := by
  obtain ⟨older, data, htrails, hwritten, hclear⟩ := h.trails
  have hcommits := h.commits
  rw [hbefore.store.engine.commits] at hcommits
  refine ⟨h.revisions, hbefore.onward.trans h.onward, hcommits,
    h.durable.trans hbefore.store.engine.durable, older, data, htrails, hwritten, ?_⟩
  have := hbefore.onward.target
  omega

/-- Retiring a batch enters it in the log and the store, or takes nothing away from either.
SOURCE: crates/wal/src/writer.rs:175-208 -/
theorem Trails.ends_retire (h : Trails w log older file) (batch : List Request) :
    Ends (retire batch) w (fun revisions w' => Entered w w' log (mutationsOf batch) revisions)
      (fun _ w' => Unmoved w w' log) fun w' => Dropped w w' := by
  by_cases hbatch : ∀ m ∈ mutationsOf batch, Encodable m
  case neg =>
    refine Ends.mono (ends_retire_spoiled hbatch) (fun _ _ h => h.elim) (fun _ w' hw' => ?_)
      fun _ h => h.elim
    subst hw'
    exact h.unmoved rfl rfl (KvStore.Later.refl _)
  rw [retire, encodeBatch_eq hbatch, List.nil_append]
  refine ends_bind.mpr (Ends.mono h.ends_rollIfFull (fun (_ : Unit) w1 h1 => ?_)
    (fun _ _ h => h) fun _ h => h.dropped)
  obtain ⟨older1, file1, htrails1⟩ := h1.trails
  cases hpoisoned : w1.segment.poisoned with
  | true =>
    refine ends_bind.mpr (Ends.mono (ends_append_poisoned hpoisoned _) (fun _ _ h => h.elim)
      (fun _ w2 hw2 => ?_) fun _ h => h.elim)
    subst hw2
    exact h1
  | false =>
    refine ends_bind.mpr (Ends.mono (htrails1.ends_append hpoisoned hbatch)
      (fun (_ : Unit) w2 h2 => ?_) (fun _ w2 h2 => h1.trans h2) fun w2 h2 => h2.after h1)
    refine ends_bind.mpr (ends_modify.mpr (ends_bind.mpr (ends_get.mpr ?_)))
    dsimp only
    rw [h2.store]
    exact Ends.mono (h2.counted _).ends_apply (fun _ _ h => h.after h1) (fun _ _ h => h1.trans h)
      fun _ h => h.after h1

/-! ## Checkpoints -/

/-- A checkpoint leaves a state any life may lead to.
SOURCE: crates/wal/src/wal.rs:265-285 -/
theorem Trails.compacted (h : Trails w log older file)
    (hcompacted : Compacted w.host w'.host older (w.segment.sink, file))
    (hsegment : w'.segment = w.segment) : ∃ older', Trails w' log older' file := by
  have holdest := oldest_le_last h.files
  have hbegins := h.begins
  have hdurable := h.salvageable.durable
  -- the store stays where it is, with its position written again
  have hmarked : w'.host.store.state = w.host.store.state → w'.host.store.engine.commits =
      w.host.store.engine.committed.insert appliedKey
        (encodePosition w.host.store.state.applied) :: w.host.store.engine.commits →
      ∀ older', w'.host.disk.files.toList = older' ++ [(w.segment.sink, file)] →
      Salvageable w'.host.disk w'.host.store.engine → Trails w' log older' file := by
    intro hstate hcommits older' hfiles hsalvageable
    refine ⟨h.keeping.marked hstate hcommits, by rw [hsegment]; exact hfiles, hsalvageable, ?_, ?_,
      by rw [hsegment]; exact h.sound⟩
    · rw [hsegment, hstate]
      exact h.keeps
    · rw [hsegment, hstate]
      exact h.begins
  cases hcompacted with
  | untouched disk store => exact ⟨older, h.later disk.files hsegment store⟩
  | unsure disk state commits durable calls =>
    have hfiles : w'.host.disk.files.toList = older ++ [(w.segment.sink, file)] := by
      rw [disk.files, h.files]
    refine ⟨older, hmarked state commits older hfiles ⟨?_, ?_, ?_⟩⟩
    · rw [disk.files]
      exact h.salvageable.linked
    · rw [oldest_of_last h.files hfiles]
      exact h.salvageable.founded.commit commits durable (h.keeping.backing_mark (by omega))
    · rw [commits, durable, List.length_cons]
      omega
  | taken k files replies state commits durable calls =>
    have hlinked := h.salvageable.linked
    rw [h.files] at hlinked
    have holdest' := oldest_le_last files
    refine ⟨older.drop k, hmarked state commits _ files ⟨?_, ?_, ?_⟩⟩
    · rw [files]
      exact hlinked.drop
    · exact Founded.commitDurable commits durable (h.keeping.backing_mark (by omega))
    · rw [commits, durable, List.length_cons]

end Trails

end Hadar.Wal
