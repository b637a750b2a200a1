import Hadar.Analysis.Booting

/-!
# What a crash leaves behind

Every step of the writer leaves all files flushed, and while it runs at most the active
segment's file is not: bytes are being added to its end, or cut off it. So a crash leaves the
records there were, some of the first ones being added, and perhaps the beginning of one more,
and whatever commit the engine is back at, a restart restores exactly that log.
-/

set_option autoImplicit false

namespace Hadar.Wal

open Hadar.Lib Hadar.Lib.Prog Hadar.Storage Hadar.Mvcc Std

/-! ## Files -/

/-- Whether bytes were being added or cut off, what a crash leaves begins with the bytes that
are there either way. -/
theorem File.Survives.bounds {file : File} {rest short extra : Bytes} (h : file.Survives rest)
    (hfile : file.flushed = short ∧ file.data = short ++ extra ∨
      file.data = short ∧ file.flushed = short ++ extra) :
    ∃ more, more <+: extra ∧ rest = short ++ more := by
  have hshort : short <+: short ++ extra := List.prefix_append _ _
  have hboth : short <+: rest ∧ rest <+: short ++ extra := by
    rcases hfile with ⟨hflushed, hdata⟩ | ⟨hdata, hflushed⟩ <;>
      rcases h with ⟨hlow, hhigh⟩ | ⟨hlow, hhigh⟩ <;> rw [hflushed, hdata] at *
    · exact ⟨hlow, hhigh⟩
    · exact ⟨hshort.trans hlow, hhigh.trans hshort⟩
    · exact ⟨hshort.trans hlow, hhigh.trans hshort⟩
    · exact ⟨hlow, hhigh⟩
  obtain ⟨⟨more, rfl⟩, hhigh⟩ := hboth
  exact ⟨more, (List.prefix_append_right_inj short).mp hhigh, rfl⟩

/-- A flushed file is left as it is. -/
theorem File.Survives.eq_of_flushed {file : File} {rest : Bytes} (h : file.Survives rest)
    (hflushed : file.flushed = file.data) : rest = file.data := by
  obtain ⟨more, hmore, hrest⟩ := @File.Survives.bounds file rest file.data [] h
    (.inl ⟨hflushed, (List.append_nil _).symm⟩)
  rw [hrest, List.prefix_nil.mp hmore, List.append_nil]

/-! ## Directories -/

section Directory

variable {d d' : Disk}

/-- Flushed files are left as they are, and the last one may be cut short. -/
theorem Disk.Crashed.toList (h : d.Crashed d') {files : List (ℕ × File)} {name : ℕ} {file : File}
    (hlist : d.files.toList = files ++ [(name, file)])
    (hflushed : ∀ p ∈ files, p.2.flushed = p.2.data) :
    ∃ rest, file.Survives rest ∧ d'.files.toList = files ++ [(name, ⟨rest, rest⟩)] := by
  unfold Disk.Crashed at h
  rw [hlist] at h
  generalize d'.files.toList = left at h ⊢
  clear hlist
  induction files generalizing left with
  | nil =>
    obtain ⟨q, tail, ⟨hname, rest, hsurvives, hq⟩, htail, rfl⟩ := List.forall₂_cons_left_iff.mp h
    rw [List.forall₂_nil_left_iff.mp htail]
    exact ⟨rest, hsurvives, congrArg (fun p => [p]) (Prod.ext hname.symm hq)⟩
  | cons p files ih =>
    obtain ⟨q, tail, ⟨hname, rest, hsurvives, hq⟩, htail, rfl⟩ := List.forall₂_cons_left_iff.mp h
    obtain ⟨last, hlast, rfl⟩ := ih (fun x hx => hflushed x (List.mem_cons_of_mem _ hx)) tail htail
    have hp := hflushed p (List.mem_cons_self ..)
    obtain rfl := hsurvives.eq_of_flushed hp
    have hsame : q = p := Prod.ext hname.symm (by rw [hq]; exact congrArg _ hp.symm)
    exact ⟨last, hlast, by rw [hsame]; rfl⟩

/-- No file comes out of nothing. -/
theorem Disk.Crashed.toList_nil (h : d.Crashed d') (hempty : d.files.toList = []) :
    d'.files.toList = [] := by
  unfold Disk.Crashed at h
  rw [hempty] at h
  exact List.forall₂_nil_left_iff.mp h

theorem Disk.Crashed.flushed (h : d.Crashed d') : Flushed d' := by
  unfold Disk.Crashed at h
  unfold Flushed
  generalize d.files.toList = before, d'.files.toList = left at h ⊢
  induction h with
  | nil => exact fun _ hp => absurd hp List.not_mem_nil
  | cons hq _ ih =>
    obtain ⟨-, rest, -, hq⟩ := hq
    intro p hp
    rcases List.mem_cons.mp hp with rfl | hp
    · rw [hq]
    · exact ih p hp

/-- A crash that loses nothing that was written. -/
def Disk.kept (d : Disk) : Disk := ⟨d.files.map fun _ file => ⟨file.data, file.data⟩, []⟩

theorem Disk.crashed_kept (h : ∀ p ∈ d.files.toList, p.2.flushed <+: p.2.data) :
    d.Crashed d.kept := by
  unfold Disk.Crashed Disk.kept
  rw [ExtTreeMap.toList_map, List.forall₂_map_right_iff, List.forall₂_same]
  exact fun p hp => ⟨rfl, p.2.data, .inl ⟨h p hp, List.prefix_refl _⟩, rfl⟩

end Directory

/-! ## Between processes -/

variable [Crc32]

/-- A directory and an engine at rest that hold a log: one in which nothing was ever begun, or
one with the segments of the log and a commit that misses none of what was taken away. -/
inductive Dormant (disk : Disk) (engine : Engine) (log : List Mutation) : Prop where
  | unborn (files : disk.files.toList = []) (nothing : log = []) (backed : Backed engine log 0)
    (durable : engine.durable ≤ engine.commits.length)
  | resting {start : ℕ} {older : List (List Mutation)} {active : List Mutation} {torn : Bytes}
    (rests : Resting disk engine log start older active torn) (flushed : Flushed disk)

theorem dormant_empty : Dormant Disk.empty Engine.empty [] :=
  .unborn (by rfl) rfl (backed_empty []) (Nat.le_refl 0)

section Dormant

variable {disk disk' : Disk} {engine engine' : Engine} {log : List Mutation} {start : ℕ}
  {older : List (List Mutation)} {active batch : List Mutation} {torn : Bytes}

/-- The writer's directory and engine, as a restart would find them. -/
theorem Follows.resting {w : Writer} (h : Follows w log start older active torn) :
    Resting w.host.disk w.host.store.engine log start older active torn :=
  ⟨h.placed.segments, h.placed.written, h.start_le, h.holds, h.encodable, h.backed, h.durable⟩

/-- An engine that a crash put back to one of its commits. -/
theorem Resting.crashed (h : Resting disk engine log start older active torn)
    (hengine : EngineCrashed engine engine') :
    Resting disk engine' log start older active torn :=
  { h with
    backed := h.backed.suffix hengine.commits hengine.durable
    durable := by rw [hengine.durable]; exact hengine.kept }

/-- A crash where all files are flushed leaves the segments as they are. -/
theorem Resting.undisturbed (h : Resting disk engine log start older active torn)
    (hflushed : Flushed disk) (hdisk : disk.Crashed disk') (hengine : EngineCrashed engine engine') :
    Resting disk' engine' log start older active torn := by
  obtain ⟨files, file, hlist, -, -⟩ := h.exists_file
  obtain ⟨rest, hsurvives, hlist'⟩ := hdisk.toList hlist fun p hp =>
    hflushed p (by rw [hlist]; exact List.mem_append_left _ hp)
  have hlast := hflushed _ (by rw [hlist]; exact List.mem_append_right _ (List.mem_singleton_self _))
  obtain rfl := hsurvives.eq_of_flushed hlast
  have hsegments : disk'.segments = disk.segments := by
    rw [Disk.segments, Disk.segments, hlist, hlist', List.map_append, List.map_append]
    rfl
  exact { h.crashed hengine with segments := hsegments.trans h.segments }

theorem Resting.dormant (h : Resting disk engine log start older active torn)
    (hflushed : Flushed disk) (hdisk : disk.Crashed disk') (hengine : EngineCrashed engine engine') :
    Dormant disk' engine' log :=
  .resting (h.undisturbed hflushed hdisk hengine) hdisk.flushed

/-- The active segment's file with some more records and the beginning of another. -/
theorem Resting.extended (h : Resting disk engine log start older active torn)
    (hengine : EngineCrashed engine engine') {files : List (ℕ × File)} {name : ℕ} {file : File}
    (hlist : disk.files.toList = files ++ [(name, file)]) {torn' rest : Bytes}
    (hbatch : ∀ m ∈ batch, Encodable m) (htorn : Torn torn')
    (hrest : rest = recordsOf (active ++ batch) ++ torn')
    (hlist' : disk'.files.toList = files ++ [(name, ⟨rest, rest⟩)]) :
    Resting disk' engine' (log ++ batch) start older (active ++ batch) torn' := by
  obtain ⟨files', file', hlist'', hsealed, -⟩ := h.exists_file
  rw [hlist] at hlist''
  obtain ⟨rfl, hlast⟩ := List.append_inj' hlist'' rfl
  have hname : name = start + older.flatten.length := congrArg Prod.fst (List.cons.inj hlast).1
  have hcrashed := h.crashed hengine
  have hboth : ∀ {l : List Mutation}, (∀ m ∈ l, Encodable m) → ∀ m ∈ l ++ batch, Encodable m :=
    fun hl m hm => (List.mem_append.mp hm).elim (hl m) (hbatch m)
  refine ⟨segments_of_files hlist' hsealed hname hrest,
    ⟨h.written.older, hboth h.written.active, htorn⟩, ?_, ?_, hboth h.encodable,
    hcrashed.backed.append batch, hcrashed.durable⟩
  · have hle := h.start_le
    rw [List.length_append]
    omega
  · rw [List.drop_append_of_le_length h.start_le, h.holds, List.append_assoc]

/-- A crash while bytes were being added to the active segment, or cut off it. -/
theorem Resting.dormant_cut (h : Resting disk engine log start older active torn)
    (hflushed : Flushed disk) {files : List (ℕ × File)} {name : ℕ} {file : File}
    (hlist : disk.files.toList = files ++ [(name, file)]) {written : Disk}
    (hwritten : written.files.toList = files ++ [(name, { file with data := recordsOf active })])
    (hdisk : written.Crashed disk') (hengine : EngineCrashed engine engine') :
    Dormant disk' engine' log := by
  obtain ⟨files', file', hlist'', -, hdata⟩ := h.exists_file
  rw [hlist] at hlist''
  obtain ⟨rfl, hlast⟩ := List.append_inj' hlist'' rfl
  obtain rfl := (Prod.mk.inj (List.cons.inj hlast).1).2
  have hfile : file.flushed = file.data :=
    hflushed _ (by rw [hlist]; exact List.mem_append_right _ (List.mem_singleton_self _))
  obtain ⟨rest, hsurvives, hlist'⟩ := hdisk.toList hwritten fun p hp =>
    hflushed p (by rw [hlist]; exact List.mem_append_left _ hp)
  obtain ⟨more, hmore, hrest⟩ := hsurvives.bounds (.inr ⟨rfl, hfile.trans hdata⟩)
  have hnone : ∀ m ∈ ([] : List Mutation), Encodable m := by simp
  have hextended := h.extended hengine hlist hnone (h.written.torn.of_prefix hmore)
    (by rw [hrest, List.append_nil]) hlist'
  rw [List.append_nil] at hextended
  exact .resting hextended hdisk.flushed

/-- A crash while records were being added to the active segment: what is left of them is as
many as fit in the bytes that are left, and the beginning of the next. -/
theorem Resting.dormant_torn (h : Resting disk engine log start older active [])
    (hbatch : ∀ m ∈ batch, Encodable m) {files : List (ℕ × File)} {name : ℕ} {file : File}
    (hlist : disk.files.toList = files ++ [(name, file)]) {room : ℕ} {rest : Bytes}
    (hrest : rest = file.data ++ (recordsOf batch).take room)
    (hlist' : disk'.files.toList = files ++ [(name, ⟨rest, rest⟩)]) (hflushed : Flushed disk')
    (hengine : EngineCrashed engine engine') :
    Dormant disk' engine' (log ++ batch.take (fitting room batch)) := by
  obtain ⟨files', file', hlist'', -, hdata⟩ := h.exists_file
  rw [hlist] at hlist''
  obtain ⟨rfl, hlast⟩ := List.append_inj' hlist'' rfl
  obtain rfl := (Prod.mk.inj (List.cons.inj hlast).1).2
  obtain ⟨torn, htorn, htake⟩ := take_records hbatch room
  refine .resting (h.extended hengine hlist (fun m hm => hbatch m (List.mem_of_mem_take hm)) htorn
    ?_ hlist') hflushed
  rw [hrest, hdata, List.append_nil, htake, recordsOf_append, List.append_assoc]

/-- The same, where the crash itself says what is left. -/
theorem Resting.dormant_appending (h : Resting disk engine log start older active [])
    (hflushed : Flushed disk) (hbatch : ∀ m ∈ batch, Encodable m) {files : List (ℕ × File)}
    {name : ℕ} {file : File} (hlist : disk.files.toList = files ++ [(name, file)]) {written : Disk}
    {cut : ℕ} (hwritten : written.files.toList =
      files ++ [(name, { file with data := file.data ++ (recordsOf batch).take cut })])
    (hdisk : written.Crashed disk') (hengine : EngineCrashed engine engine') :
    ∃ n ≤ batch.length, Dormant disk' engine' (log ++ batch.take n) := by
  have hfile : file.flushed = file.data :=
    hflushed _ (by rw [hlist]; exact List.mem_append_right _ (List.mem_singleton_self _))
  obtain ⟨rest, hsurvives, hlist'⟩ := hdisk.toList hwritten fun p hp =>
    hflushed p (by rw [hlist]; exact List.mem_append_left _ hp)
  obtain ⟨more, hmore, hrest⟩ := hsurvives.bounds (.inl ⟨hfile, rfl⟩)
  rw [List.prefix_iff_eq_take.mp (hmore.trans (List.take_prefix _ _))] at hrest
  exact ⟨_, fitting_le _ _, h.dormant_torn hbatch hlist hrest hlist' hdisk.flushed hengine⟩

end Dormant

/-! ## Restarting -/

/-- The writer of a log that is written and flushed to the last byte. -/
def Steady (w : Writer) (log : List Mutation) : Prop :=
  ∃ start older active, Follows w log start older active [] ∧ w.segment.poisoned = false ∧
    Flushed w.host.disk

section Boot

variable {disk disk' : Disk} {engine engine' : Engine} {log : List Mutation}

/-- The operations to come make no difference to what is held. -/
theorem Dormant.given (h : Dormant disk engine log) (replies : List Reply)
    (calls : List Storage.Reply) :
    Dormant { disk with replies := replies } { engine with replies := calls } log := by
  cases h with
  | unborn files nothing backed durable => exact .unborn files nothing backed durable
  | resting rests flushed =>
    exact .resting ⟨rests.segments, rests.written, rests.start_le, rests.holds, rests.encodable,
      rests.backed, rests.durable⟩ flushed

/-- A crash over a dormant log, whatever calls of the engine came before it. -/
theorem Dormant.crashed (h : Dormant disk engine log) (hdisk : disk.Crashed disk')
    (hengine : EngineCrashed engine engine') : Dormant disk' engine' log := by
  cases h with
  | unborn files nothing backed durable =>
    refine .unborn (hdisk.toList_nil files) nothing
      (backed.suffix hengine.commits hengine.durable) ?_
    rw [hengine.durable]
    exact hengine.kept
  | resting rests flushed => exact rests.dormant flushed hdisk hengine

omit [Crc32] in
/-- A crash some calls later. -/
theorem EngineCrashed.of_later {e e' e'' : Engine} (hlater : e.Later e')
    (h : EngineCrashed e' e'') : EngineCrashed e e'' :=
  ⟨hlater.commits ▸ h.commits, h.durable.trans hlater.durable, hlater.durable ▸ h.kept⟩

/-- A restart opens the store over what the engine holds, and then the log over the store.
SOURCE: crates/wal/src/wal.rs:113-139, crates/mvcc/src/store.rs:66-117 -/
theorem ends_boot {n : ℕ} (hsnapshot : Snapshot engine.committed log n)
    (hkeys : ∀ m ∈ log, m.key.length ≤ u32Max) {options : Options} {ok : Writer → Prop}
    {bad : Prop} {dead : Disk × Engine → Prop} (hbad : Faults.Refuses engine → bad)
    (hdead : ∀ e, engine.Later e → Faults.Crashes engine → dead (disk, e))
    (hopen : ∀ e, engine.Later e → Ends (openWith options) ⟨disk, ⟨e, stateOf (log.take n)⟩⟩
      (fun segment h => ok ⟨h, segment, 0⟩) (fun _ _ => bad)
      fun h => dead (h.disk, h.store.engine)) :
    Ends (boot options) (disk, engine) (fun w _ => ok w) (fun _ _ => bad) dead := by
  refine ends_bind.mpr (ends_zoom.mpr (Ends.mono (hsnapshot.reads_openState hkeys)
    (fun state e he => ?_) (fun _ e he => hbad (he.2.resolve_right id))
    fun e he => hdead e he.1 (he.2.resolve_right id)))
  obtain ⟨rfl, hlater⟩ := he
  exact ends_zoom.mpr (ends_bind.mpr (Ends.mono (hopen e hlater)
    (fun segment h' hok => ends_bind.mpr (ends_get.mpr (ends_pure.mpr hok))) (fun _ _ h => h)
    fun _ h => h))

omit [Crc32] in
/-- Whatever the store is opened over, what is refused then was refused before it. -/
theorem refuses_of_opened {e : Engine} {state : State} (hlater : engine.Later e)
    (h : Faults.Refuses (⟨disk, ⟨e, state⟩⟩ : Host)) :
    Faults.Refuses disk ∨ Faults.Refuses engine :=
  h.imp_right (Faults.refuses (σ := Engine) hlater)

/-- A restart over the segments of a log ends in step with that log, and a crash leaves it to
the next one if the files were flushed. -/
theorem Resting.ends_boot {start : ℕ} {older : List (List Mutation)} {active : List Mutation}
    {torn : Bytes} (h : Resting disk engine log start older active torn) (options : Options) :
    Ends (boot options) (disk, engine)
      (fun w _ => Follows w log start older active [] ∧ w.segment.poisoned = false ∧
        (Flushed disk → Flushed w.host.disk))
      (fun _ _ => Faults.Refuses disk ∨ Faults.Refuses engine)
      (fun m => ((Faults.Crashes disk ∨ Faults.Crashes engine) ∨ i64Max < log.length) ∧
        (Flushed disk → ∀ disk' engine', m.1.Crashed disk' → EngineCrashed m.2 engine' →
          Dormant disk' engine' log)) := by
  obtain ⟨n, hsnapshot, hstart⟩ := h.backed.committed h.durable
  obtain ⟨files, file, hlist, -, -⟩ := h.exists_file
  refine Wal.ends_boot hsnapshot (fun m hm => (h.encodable m hm).key_le) .inr
    (fun e hlater hcrashes => ⟨.inl (.inr hcrashes), fun hflushed disk' engine' hdisk hengine =>
      h.dormant hflushed hdisk (hengine.of_later hlater)⟩) fun e hlater => ?_
  have hrests : Resting disk e log start older active torn :=
    { h with
      backed := h.backed.later hlater
      durable := by rw [hlater.durable, hlater.commits]; exact h.durable }
  have hcommitted : Snapshot e.committed log n := hlater.committed ▸ hsnapshot
  refine Ends.mono (hrests.ends_openWith (h := ⟨disk, ⟨e, stateOf (log.take n)⟩⟩) hcommitted
    hstart rfl options) (fun _ _ h => h) (fun _ _ h => refuses_of_opened hlater h) fun h' hdead => ?_
  obtain ⟨hwhy, hbacked, hdurable, hfiles⟩ := hdead
  refine ⟨hwhy.imp_left (Or.imp_right (Faults.crashes (σ := Engine) hlater)),
    fun hflushed disk' engine' hdisk hengine => ?_⟩
  have hrests' : Resting disk h'.store.engine log start older active torn :=
    { h with backed := hbacked, durable := hdurable }
  rcases hfiles with hsame | hcut
  · have hsegments : h'.disk.segments = disk.segments := by
      rw [Disk.segments, hsame]
      rfl
    have hrests'' : Resting h'.disk h'.store.engine log start older active torn :=
      { hrests' with segments := hsegments.trans hrests'.segments }
    refine hrests''.dormant ?_ hdisk hengine
    rw [Flushed, hsame]
    exact hflushed
  · exact hrests'.dormant_cut hflushed hlist (hcut files file hlist) hdisk hengine

/-- A restart ends with the log it found, unless it crashes or the revisions run out, and then leaves
that log to the next one. -/
theorem Dormant.ends_boot (h : Dormant disk engine log) (options : Options) :
    Ends (boot options) (disk, engine) (fun w _ => Steady w log)
      (fun _ _ => Faults.Refuses disk ∨ Faults.Refuses engine)
      (fun m => ((Faults.Crashes disk ∨ Faults.Crashes engine) ∨ i64Max < log.length) ∧
        ∀ disk' engine', m.1.Crashed disk' → EngineCrashed m.2 engine' →
          Dormant disk' engine' log) := by
  cases h with
  | unborn files nothing backed durable =>
    subst nothing
    obtain ⟨n, hsnapshot, -⟩ := backed.committed durable
    obtain rfl : n = 0 := Nat.le_zero.mp hsnapshot.1
    have hunborn := fun e (hlater : engine.Later e) disk' engine' (hdisk : disk.Crashed disk')
      (hengine : EngineCrashed e engine') => (Dormant.unborn files rfl backed durable).crashed hdisk
        (hengine.of_later hlater)
    refine Wal.ends_boot hsnapshot (by simp) .inr
      (fun e hlater hcrashes => ⟨.inl (.inr hcrashes), hunborn e hlater⟩) fun e hlater => ?_
    refine Ends.mono (ends_openWith_empty (h := ⟨disk, ⟨e, stateOf ([].take 0)⟩⟩) files
      (hlater.committed ▸ hsnapshot) (backed.later hlater) ?_ rfl options)
      (fun segment h' hok => ⟨0, [], [], hok⟩) (fun _ _ h => refuses_of_opened hlater h)
      fun h' hdead => ?_
    · rw [hlater.durable, hlater.commits]
      exact durable
    · obtain ⟨hwhy, hstore, hfiles⟩ := hdead
      refine ⟨.inl (hwhy.imp_right (Faults.crashes (σ := Engine) hlater)),
        fun disk' engine' hdisk hengine => ?_⟩
      rw [hstore] at hengine
      exact (Dormant.unborn hfiles rfl backed durable).crashed hdisk (hengine.of_later hlater)
  | resting rests flushed =>
    exact Ends.mono (rests.ends_boot options)
      (fun _ _ hok => ⟨_, _, _, hok.1, hok.2.1, hok.2.2 flushed⟩) (fun _ _ h => h)
      fun _ hdead => ⟨hdead.1, hdead.2 flushed⟩

end Boot

end Hadar.Wal
