import Hadar.Analysis.Appending
import Hadar.Analysis.Layout
import Hadar.Analysis.Tracking

/-!
# The writer's steps

The writer's append target is the last segment of the log, and it counts the bytes of the
records in it. A roll-over seals that segment and goes on in an empty one, and a checkpoint
takes segments away at the other end, so both leave the log what it is and only move where it
is cut.
-/

set_option autoImplicit false

namespace Hadar.Wal

open Hadar.Lib Hadar.Lib.Prog Hadar.Storage Hadar.Mvcc Std

/-! ## Segments taken away -/

/-- The loop of `compact` takes segments away from the oldest on and never the last one, however
far it comes. -/
theorem ends_removeCovered (durable : ℕ) {l : List (ℕ × File)} {last : ℕ × File} {d : Disk}
    (h : d.files.toList = l ++ [last]) (removed : ℕ) :
    Ends (removeCovered durable (d.files.toList.map (·.1)) removed) d
      (fun _ d' => (∃ k, d'.files.toList = l.drop k ++ [last]) ∧ d'.replies <:+ d.replies ∧
        ((∀ p ∈ l ++ [last], p.1 ≤ durable) → d'.files.toList = [last]))
      (fun _ d' => (∃ k, d'.files.toList = l.drop k ++ [last]) ∧
        d'.replies <:+ d.replies ∧ Faults.Refuses d)
      (fun d' => (∃ k, d'.files.toList = l.drop k ++ [last]) ∧
        d'.replies <:+ d.replies ∧ Faults.Crashes d) := by
  induction l generalizing d removed with
  | nil =>
    rw [h]
    exact ends_pure.mpr ⟨⟨0, h⟩, List.suffix_refl _, fun _ => h⟩
  | cons p l ih =>
    obtain ⟨q, rest, hq⟩ : ∃ q rest, l ++ [last] = q :: rest :=
      List.exists_cons_of_ne_nil (List.append_ne_nil_of_right_ne_nil _ (List.cons_ne_nil _ _))
    have hstay : ∀ d' : Disk, d'.files = d.files →
        ∃ k, d'.files.toList = (p :: l).drop k ++ [last] :=
      fun d' hd' => ⟨0, by rw [hd', h]; rfl⟩
    rw [h, List.cons_append, hq, List.map_cons, List.map_cons, removeCovered]
    split
    · rename_i hpast
      refine ends_pure.mpr ⟨hstay d rfl, List.suffix_refl _, fun hnames => ?_⟩
      exact absurd (hnames q (List.mem_cons_of_mem _ (List.mem_cons_self ..))) (Nat.not_le.mpr hpast)
    · refine ends_bind.mpr (ends_bind.mpr (Ends.mono ends_nextReply (fun r d1 hr => ?_)
        (fun _ _ h => h.elim) fun _ h => h.elim))
      obtain ⟨hlater, hreply, -⟩ := hr
      cases r with
      | refused cut =>
        exact ends_fail.mpr ⟨hstay d1 hlater.files, hlater.replies, refuses_of_headD hreply.symm⟩
      | crash cut =>
        exact ends_crashing.mpr ⟨hstay d1 hlater.files, hlater.replies,
          crashes_of_headD hreply.symm⟩
      | done =>
        refine ends_modify.mpr ?_
        have herased : (d1.files.erase p.1).toList = l ++ [last] :=
          OrderedMap.toList_erase_first (by rw [hlater.files, h]; rfl)
        have hrest := @ih { d1 with files := d1.files.erase p.1 } herased (removed + 1)
        dsimp only at hrest
        rw [herased, hq, List.map_cons] at hrest
        have hmore : ∀ d' : Disk, (∃ k, d'.files.toList = l.drop k ++ [last]) →
            ∃ k, d'.files.toList = (p :: l).drop k ++ [last] :=
          fun d' ⟨k, hd'⟩ => ⟨k + 1, by rwa [List.drop_succ_cons]⟩
        refine Ends.mono hrest (fun _ d' h' => ⟨hmore d' h'.1, h'.2.1.trans hlater.replies,
            fun hnames => h'.2.2 fun x hx => hnames x (List.mem_cons_of_mem _ (hq ▸ hx))⟩)
          (fun _ d' h' => ⟨hmore d' h'.1, h'.2.1.trans hlater.replies, ?_⟩)
          fun d' h' => ⟨hmore d' h'.1, h'.2.1.trans hlater.replies, ?_⟩
        · exact Faults.refuses (σ := Disk) hlater h'.2.2
        · exact Faults.crashes (σ := Disk) hlater h'.2.2

/-- What a checkpoint made of the host: nothing, or a commit that may not be durable, or a
durable commit and some of the oldest segments gone. -/
inductive Compacted (h h' : Host) (files : List (ℕ × File)) (last : ℕ × File) : Prop where
  | untouched (disk : h.disk.Later h'.disk) (store : h.store.Later h'.store)
  | unsure (disk : h.disk.Later h'.disk) (state : h'.store.state = h.store.state)
    (commits : h'.store.engine.commits = h.store.engine.committed.insert appliedKey
      (encodePosition h.store.state.applied) :: h.store.engine.commits)
    (durable : h'.store.engine.durable = h.store.engine.durable)
    (calls : h'.store.engine.replies <:+ h.store.engine.replies)
  | taken (k : ℕ) (files : h'.disk.files.toList = files.drop k ++ [last])
    (replies : h'.disk.replies <:+ h.disk.replies) (state : h'.store.state = h.store.state)
    (commits : h'.store.engine.commits = h.store.engine.committed.insert appliedKey
      (encodePosition h.store.state.applied) :: h.store.engine.commits)
    (durable : h'.store.engine.durable = h.store.engine.commits.length + 1)
    (calls : h'.store.engine.replies <:+ h.store.engine.replies)

/-- A checkpoint takes segments away only once the commit is durable, and then all those the store
is past.
SOURCE: crates/wal/src/wal.rs:265-285 -/
theorem ends_compact {h : Host} {files : List (ℕ × File)} {last : ℕ × File}
    (hlist : h.disk.files.toList = files ++ [last]) :
    Ends compact h (fun _ h' => Compacted h h' files last ∧
        ((∀ p ∈ h.disk.files.toList, p.1 ≤ h.store.state.applied) → h'.disk.files.toList = [last]))
      (fun _ h' => Compacted h h' files last ∧ Faults.Refuses h)
      (fun h' => Compacted h h' files last ∧ Faults.Crashes h) := by
  refine ends_bind.mpr (ends_zoom.mpr (Ends.mono ends_checkpoint (fun position s hs => ?_)
    (fun _ s hs => ⟨?_, .inr hs.2⟩) fun s hs => ⟨?_, .inr (hs.2.resolve_right id)⟩))
  · obtain ⟨rfl, hstate, hcommits, hdurable, hcalls⟩ := hs
    refine ends_bind.mpr (ends_zoom.mpr (Ends.mono reads_list (fun segments d hd => ?_)
      (fun _ d hd => ⟨?_, .inl (hd.2.resolve_right id)⟩)
      fun d hd => ⟨?_, .inl (hd.2.resolve_right id)⟩))
    · obtain ⟨rfl, hlater⟩ := hd
      have hlist' : d.files.toList = files ++ [last] := by rw [Disk.Later.files hlater, hlist]
      refine ends_zoom.mpr ?_
      dsimp only
      rw [← Disk.Later.files hlater]
      refine Ends.mono (ends_removeCovered h.store.state.applied hlist' 0)
        (fun _ d' hd' => ⟨?_, ?_⟩) (fun _ d' hd' => ⟨?_, ?_⟩) fun d' hd' => ⟨?_, ?_⟩
      · obtain ⟨⟨k, hk⟩, hreplies, -⟩ := hd'
        exact .taken k hk (hreplies.trans (Disk.Later.replies hlater)) hstate hcommits hdurable
          hcalls
      · rw [Disk.Later.files hlater, hlist]
        exact hd'.2.2
      · obtain ⟨⟨k, hk⟩, hreplies, -⟩ := hd'
        exact .taken k hk (hreplies.trans (Disk.Later.replies hlater)) hstate hcommits hdurable
          hcalls
      · exact .inl (Faults.refuses (σ := Disk) hlater hd'.2.2)
      · obtain ⟨⟨k, hk⟩, hreplies, -⟩ := hd'
        exact .taken k hk (hreplies.trans (Disk.Later.replies hlater)) hstate hcommits hdurable
          hcalls
      · exact .inl (Faults.crashes (σ := Disk) hlater hd'.2.2)
    · exact .taken 0 (by rw [List.drop_zero, ← hlist]; exact congrArg _ (Disk.Later.files hd.1))
        (Disk.Later.replies hd.1) hstate hcommits hdurable hcalls
    · exact .taken 0 (by rw [List.drop_zero, ← hlist]; exact congrArg _ (Disk.Later.files hd.1))
        (Disk.Later.replies hd.1) hstate hcommits hdurable hcalls
  · rcases hs.1 with hlater | ⟨hstate, hcommits, hdurable, hcalls⟩
    · exact .untouched (Disk.Later.refl _) hlater
    · exact .unsure (Disk.Later.refl _) hstate hcommits hdurable hcalls
  · exact .untouched (Disk.Later.refl _) hs.1

/-! ## Rolling over -/

section RollOver

variable {w : Writer} {files : List (ℕ × File)} {file : File}

/-- A full segment is followed by an empty one named after the store's position, unless that name
is taken. Where it fails nothing changes.
SOURCE: crates/wal/src/writer.rs:191-196, crates/wal/src/segment.rs:86-88 -/
theorem ends_rollIfFull_any (w : Writer) :
    Ends rollIfFull w
      (fun _ w' => w.segment.isFull = false ∧ w' = w ∨
        w.segment.isFull = true ∧
          w.host.disk.files.contains w.host.store.state.applied = false ∧
          w.host.disk.replies.headD .done = .done ∧
          ∃ d, w' = { w with
              host := { w.host with disk := d }
              segment := ⟨w.host.store.state.applied, 0, w.segment.limit, false⟩ } ∧
            d.replies = w.host.disk.replies.tail ∧ d.files =
              w.host.disk.files.insert w.host.store.state.applied ⟨[], []⟩)
      (fun _ w' => (∃ d, w' = { w with host := { w.host with disk := d } } ∧
          w.host.disk.Later d) ∧ ((∃ cut, w.host.disk.replies.headD .done = .refused cut) ∨
        w.segment.isFull = true ∧
          w.host.disk.files.contains w.host.store.state.applied = true))
      (fun w' => (∃ d, w' = { w with host := { w.host with disk := d } } ∧
          w.host.disk.Later d) ∧ ∃ cut, w.host.disk.replies.headD .done = .crash cut) := by
  refine ends_bind.mpr (ends_get.mpr ?_)
  cases hfull : w.segment.isFull with
  | false =>
    rw [if_neg Bool.false_ne_true]
    exact ends_pure.mpr (.inl ⟨rfl, rfl⟩)
  | true =>
    rw [if_pos rfl]
    refine ends_bind.mpr (ends_zoom.mpr (ends_zoom.mpr (Ends.mono (ends_create _ _ _)
      (fun segment d hcreated => ?_) (fun _ d hfailed => ?_) fun d hdead => ?_)))
    · obtain ⟨rfl, hfresh, hreply, hreplies, hfiles⟩ := hcreated
      exact ends_modify.mpr (.inr ⟨rfl, hfresh, hreply, d, rfl, hreplies, hfiles⟩)
    · exact ⟨⟨d, rfl, hfailed.1⟩, hfailed.2.imp_right fun htaken => ⟨rfl, htaken⟩⟩
    · exact ⟨⟨d, rfl, hdead.1⟩, hdead.2⟩

/-- Where no segment is named past the store's position, only the name of the active one can be
taken. -/
theorem ends_rollIfFull (h : w.host.disk.files.toList = files ++ [(w.segment.sink, file)])
    (hle : w.segment.sink ≤ w.host.store.state.applied) :
    Ends rollIfFull w
      (fun _ w' => w.segment.isFull = false ∧ w' = w ∨
        w.segment.isFull = true ∧ w.segment.sink < w.host.store.state.applied ∧
          w.host.disk.replies.headD .done = .done ∧
          ∃ d, w' = { w with
              host := { w.host with disk := d }
              segment := ⟨w.host.store.state.applied, 0, w.segment.limit, false⟩ } ∧
            d.replies = w.host.disk.replies.tail ∧ d.files.toList =
              w.host.disk.files.toList ++ [(w.host.store.state.applied, ⟨[], []⟩)])
      (fun _ w' => (∃ d, w' = { w with host := { w.host with disk := d } } ∧
          w.host.disk.Later d) ∧ (Faults.Refuses w.host.disk ∨
        w.segment.isFull = true ∧ w.segment.sink = w.host.store.state.applied))
      (fun w' => (∃ d, w' = { w with host := { w.host with disk := d } } ∧
          w.host.disk.Later d) ∧ Faults.Crashes w.host.disk) := by
  have hheld : w.host.disk.files.contains w.segment.sink = true :=
    OrderedMap.contains_iff.mpr ⟨file, by simp [h]⟩
  refine Ends.mono (ends_rollIfFull_any w) (fun _ w' hok => ?_) (fun _ w' herr => ?_)
    fun _ hdead => hdead.imp_right fun ⟨cut, hcut⟩ => crashes_of_headD hcut
  · refine hok.imp_right ?_
    rintro ⟨hfull, hfresh, hreply, d, rfl, hreplies, hfiles⟩
    have hne : w.segment.sink ≠ w.host.store.state.applied := by
      intro heq
      rw [← heq, hheld] at hfresh
      cases hfresh
    have hlt : w.segment.sink < w.host.store.state.applied := Nat.lt_of_le_of_ne hle hne
    have hpast : ∀ p ∈ w.host.disk.files.toList,
        compare p.1 w.host.store.state.applied = .lt := fun p hp =>
      Nat.compare_eq_lt.mpr (Nat.lt_of_le_of_lt (name_le_last h hp) hlt)
    refine ⟨hfull, hlt, hreply, d, rfl, hreplies, ?_⟩
    rw [hfiles]
    exact OrderedMap.toList_insert_last hpast
  · refine ⟨herr.1, herr.2.imp (fun ⟨cut, hcut⟩ => refuses_of_headD hcut)
      fun ⟨hfull, htaken⟩ => ⟨hfull, ?_⟩⟩
    -- the name is taken, and no name is greater than the active segment's
    obtain ⟨file', hfile'⟩ := OrderedMap.contains_iff.mp htaken
    exact Nat.le_antisymm hle (name_le_last h hfile')

end RollOver

/-! ## The append target -/

/-- A poisoned segment takes nothing.
SOURCE: crates/wal/src/segment.rs:100-105 -/
theorem ends_append_poisoned {w : Writer} (hpoisoned : w.segment.poisoned = true)
    (bytes : Bytes) : Ends (Writer.onSegment (Segment.append bytes)) w (fun _ _ => False)
      (fun _ w' => w' = w) fun _ => False := by
  refine ends_zoom.mpr (ends_bind.mpr (ends_get.mpr ?_))
  rw [show (⟨w.segment, w.host.disk⟩ : Target).segment.poisoned = true from hpoisoned, if_pos rfl]
  exact ends_fail.mpr rfl

section Placed

variable [Crc32]

/-- The writer's directory holds a log, and its append target is the end of it. What follows the
last record, if anything, was left by a rewind that failed, and such a segment takes no more
records. -/
structure Placed (w : Writer) (start : ℕ) (older : List (List Mutation))
    (active : List Mutation) (torn : Bytes) : Prop where
  segments : w.host.disk.segments = laidOut start older active torn
  written : Written older active torn
  sink : w.segment.sink = start + older.flatten.length
  count : w.segment.written = (recordsOf active).length
  clean : torn ≠ [] → w.segment.poisoned = true
  room : torn ≠ [] → w.segment.isFull = false ∨ active = []

variable {w w' : Writer} {start : ℕ} {older : List (List Mutation)} {active : List Mutation}
  {torn : Bytes}

/-- The last file of a directory a log is laid out in. -/
theorem exists_last_file {d : Disk} (hsegments : d.segments = laidOut start older active torn) :
    ∃ files file, d.files.toList = files ++ [(start + older.flatten.length, file)] ∧
      files.map (fun p => (p.1, p.2.data)) = sealedFrom start older ∧
      file.data = recordsOf active ++ torn := by
  rw [Disk.segments, laidOut, List.map_eq_append_iff] at hsegments
  obtain ⟨files, last, hlist, hsealed, hlast⟩ := hsegments
  obtain ⟨p, rfl, hp⟩ := List.map_eq_singleton_iff.mp hlast
  have hname : p.1 = start + older.flatten.length := congrArg Prod.fst hp
  exact ⟨files, p.2, by rw [hlist, ← hname], hsealed, congrArg Prod.snd hp⟩

/-- The active segment's file is the last one. -/
theorem Placed.exists_file (h : Placed w start older active torn) :
    ∃ files file, w.host.disk.files.toList = files ++ [(w.segment.sink, file)] ∧
      files.map (fun p => (p.1, p.2.data)) = sealedFrom start older ∧
      file.data = recordsOf active ++ torn := by
  rw [h.sink]
  exact exists_last_file h.segments

/-- No segment has a greater name than the active one. -/
theorem Placed.name_le (h : Placed w start older active torn) {p : ℕ × File}
    (hp : p ∈ w.host.disk.files.toList) : p.1 ≤ w.segment.sink := by
  obtain ⟨files, file, hlist, -, -⟩ := h.exists_file
  exact name_le_last hlist hp

/-- The directory after the active segment's file changed. -/
theorem segments_of_files {d : Disk} {files : List (ℕ × File)} {sink : ℕ} {file : File}
    (hlist : d.files.toList = files ++ [(sink, file)])
    (hsealed : files.map (fun p => (p.1, p.2.data)) = sealedFrom start older)
    (hsink : sink = start + older.flatten.length) (hdata : file.data = recordsOf active ++ torn) :
    d.segments = laidOut start older active torn := by
  rw [Disk.segments, hlist, List.map_append, hsealed, List.map_singleton, hdata, hsink, laidOut]

/-- The end of the log. -/
theorem Placed.logEnd (h : Placed w start older active torn) :
    logEnd w.host.disk.segments = start + (older.flatten ++ active).length := by
  rw [h.segments, logEnd_laidOut h.written]

/-- What the writer works on stays in place while only replies are taken. -/
theorem Placed.of_files (h : Placed w start older active torn)
    (hfiles : w'.host.disk.files = w.host.disk.files) (hsegment : w'.segment = w.segment) :
    Placed w' start older active torn := by
  refine ⟨?_, h.written, by rw [hsegment]; exact h.sink, by rw [hsegment]; exact h.count,
    by rw [hsegment]; exact h.clean, by rw [hsegment]; exact h.room⟩
  rw [Disk.segments, hfiles]
  exact h.segments

/-- The log without its oldest segments. -/
theorem Placed.drop (h : Placed w start older active torn) {files : List (ℕ × File)}
    {last : ℕ × File} {k : ℕ} (hlist : w.host.disk.files.toList = files ++ [last])
    (hlist' : w'.host.disk.files.toList = files.drop k ++ [last])
    (hsegment : w'.segment = w.segment) :
    Placed w' (start + (older.take k).flatten.length) (older.drop k) active torn := by
  have hsegments := h.segments
  rw [Disk.segments, hlist, List.map_append, List.map_singleton, laidOut] at hsegments
  obtain ⟨hsealed, hlast⟩ := List.append_inj' hsegments rfl
  have hflatten : (older.take k).flatten.length + (older.drop k).flatten.length =
      older.flatten.length := by
    rw [← List.length_append, ← List.flatten_append, List.take_append_drop]
  refine ⟨?_, ⟨fun m hm => h.written.older m ?_, h.written.active, h.written.torn⟩, ?_,
    by rw [hsegment]; exact h.count, by rw [hsegment]; exact h.clean,
    by rw [hsegment]; exact h.room⟩
  · rw [Disk.segments, hlist', List.map_append, List.map_drop, hsealed, List.map_singleton,
      drop_sealedFrom, laidOut, hlast, Nat.add_assoc, hflatten]
  · rw [← List.take_append_drop k older, List.flatten_append]
    exact List.mem_append_right _ hm
  · rw [hsegment, h.sink, Nat.add_assoc, hflatten]

/-- What `rollIfFull` made of the writer. -/
inductive Rolled (w w' : Writer) (start : ℕ) (older : List (List Mutation))
    (active : List Mutation) (torn : Bytes) : Prop where
  | stayed (full : w.segment.isFull = false) (same : w' = w)
  | moved (full : w.segment.isFull = true) (nonempty : active ≠ []) (clean : torn = [])
    (reply : w.host.disk.replies.headD .done = .done)
    (replies : w'.host.disk.replies = w.host.disk.replies.tail)
    (store : w'.host.store = w.host.store) (appended : w'.appended = w.appended)
    (segment : w'.segment = ⟨w.host.store.state.applied, 0, w.segment.limit, false⟩)
    (files : w'.host.disk.files.toList =
      w.host.disk.files.toList ++ [(w.host.store.state.applied, ⟨[], []⟩)])

/-- Where the store is at the end of the log a roll-over either is not needed, or goes on in a
new segment named after that end, or changes nothing.
SOURCE: crates/wal/src/writer.rs:191-196 -/
theorem Placed.ends_rollIfFull (h : Placed w start older active torn)
    (hend : w.host.store.state.applied = start + (older.flatten ++ active).length) :
    Ends rollIfFull w (fun _ w' => Rolled w w' start older active torn)
      (fun _ w' => (∃ d, w' = { w with host := { w.host with disk := d } } ∧
          w.host.disk.Later d) ∧ (Faults.Refuses w.host.disk ∨ w.segment.limit = 0))
      (fun w' => (∃ d, w' = { w with host := { w.host with disk := d } } ∧
          w.host.disk.Later d) ∧ Faults.Crashes w.host.disk) := by
  obtain ⟨files, file, hlist, -, -⟩ := h.exists_file
  have happlied : w.host.store.state.applied = w.segment.sink + active.length := by
    rw [hend, h.sink, List.length_append, Nat.add_assoc]
  refine Ends.mono (Wal.ends_rollIfFull hlist (by omega)) (fun _ w' hrolled => ?_)
    (fun _ w' hfailed => hfailed.imp_right (Or.imp_right fun ⟨hfull, hsame⟩ => ?_)) fun _ h => h
  · rcases hrolled with ⟨hroom, hsame⟩ | ⟨hfull, hlt, hreply, d, rfl, hreplies, hfiles⟩
    · exact .stayed hroom hsame
    · have hnonempty : active ≠ [] := List.length_pos_iff.mp (by omega)
      refine .moved hfull hnonempty ?_ hreply hreplies rfl rfl rfl hfiles
      by_contra htorn
      rcases h.room htorn with hroom | hempty
      · rw [hfull] at hroom; cases hroom
      · exact hnonempty hempty
  · -- the name is taken: the active segment is still empty
    have hempty : active = [] := List.length_eq_zero_iff.mp (by omega)
    have hover := of_decide_eq_true hfull
    rw [h.count, hempty] at hover
    exact Nat.le_zero.mp hover

/-- A roll-over leaves the log what it is. -/
theorem Rolled.placed (hrolled : Rolled w w' start older active torn)
    (h : Placed w start older active torn)
    (hend : w.host.store.state.applied = start + (older.flatten ++ active).length) :
    ∃ older' active' torn', Placed w' start older' active' torn' ∧
      older'.flatten ++ active' = older.flatten ++ active ∧ w'.host.store = w.host.store ∧
      (w'.segment.isFull = false ∨ active' = []) := by
  cases hrolled with
  | stayed full same =>
    subst same
    exact ⟨older, active, torn, h, rfl, rfl, .inl full⟩
  | moved full nonempty clean reply replies store appended segment files =>
    subst clean
    have hname : (older ++ [active]).flatten = older.flatten ++ active := by
      rw [List.flatten_append, List.flatten_singleton]
    refine ⟨older ++ [active], [], [], ⟨?_, ⟨fun m hm => ?_, by simp, torn_nil⟩, ?_, ?_,
      fun hne => absurd rfl hne, fun hne => absurd rfl hne⟩, ?_, store, .inr rfl⟩
    · have hsegments := h.segments
      rw [Disk.segments] at hsegments
      rw [Disk.segments, files, List.map_append, hsegments, laidOut_sealed, hend,
        List.length_append, Nat.add_assoc]
      rfl
    · rw [hname] at hm
      rcases List.mem_append.mp hm with hm | hm
      · exact h.written.older m hm
      · exact h.written.active m hm
    · rw [segment, hname, hend]
    · rw [segment]; rfl
    · rw [hname, List.append_nil]

/-- The bytes a short write left behind, where it wrote no whole record. -/
theorem torn_take {mutations : List Mutation} (h : ∀ m ∈ mutations, Encodable m) {cut : ℕ}
    (hcut : ∀ m ∈ mutations.head?, cut < (recordOf m).length) :
    Torn ((recordsOf mutations).take cut) := by
  cases mutations with
  | nil => rw [recordsOf_nil, List.take_nil]; exact torn_nil
  | cons m rest =>
    have hlt := hcut m rfl
    refine ⟨m, h m (List.mem_cons_self ..), ?_, ?_⟩
    · rw [recordsOf_cons, List.take_append_of_le_length (Nat.le_of_lt hlt)]
      exact List.take_prefix _ _
    · rw [List.length_take]
      omega

/-- A batch's records go to the end of the log at once, or to no place a reader finds unless a
flush or a rewind was refused.
SOURCE: crates/wal/src/segment.rs:99-129 -/
theorem Placed.ends_append (h : Placed w start older active torn)
    (hsound : w.segment.poisoned = false) (hroom : w.segment.isFull = false ∨ active = [])
    {mutations : List Mutation} (hmutations : ∀ m ∈ mutations, Encodable m) :
    Ends (Writer.onSegment (Segment.append (recordsOf mutations))) w
      (fun _ w' => Placed w' start older (active ++ mutations) [] ∧
        w'.host.store = w.host.store ∧ w'.appended = w.appended ∧
        w'.segment = { w.segment with
          written := w.segment.written + (recordsOf mutations).length } ∧
        w'.host.disk.replies <:+ w.host.disk.replies ∧
        ∀ files file, w.host.disk.files.toList = files ++ [(w.segment.sink, file)] →
          w'.host.disk.files.toList = files ++ [(w.segment.sink,
            ⟨file.data ++ recordsOf mutations, file.data ++ recordsOf mutations⟩)])
      (fun _ w' => Faults.Refuses w.host.disk ∧ w'.host.store = w.host.store ∧
        w'.host.disk.replies <:+ w.host.disk.replies ∧
        (Harmless mutations w.host.disk.replies → ∃ torn', Placed w' start older active torn'))
      (fun w' => Faults.Crashes w.host.disk ∧ w'.host.store = w.host.store ∧
        (Faults.Refuses w.host.disk ∨ ∀ files file,
          w.host.disk.files.toList = files ++ [(w.segment.sink, file)] →
          ∃ cut, (w.host.disk.replies.headD .done = .crash cut ∨
              w.host.disk.replies.headD .done = .done ∧ cut = (recordsOf mutations).length) ∧
            w'.host.disk.files.toList = files ++ [(w.segment.sink,
              { file with data := file.data ++ (recordsOf mutations).take cut })])) := by
  have htorn : torn = [] := by
    by_contra hne
    rw [h.clean hne] at hsound
    cases hsound
  subst htorn
  obtain ⟨files, file, hlist, hsealed, hdata⟩ := h.exists_file
  rw [List.append_nil] at hdata
  have hsame : ∀ files' file', w.host.disk.files.toList = files' ++ [(w.segment.sink, file')] →
      files' = files ∧ file' = file := by
    intro files' file' hlist'
    rw [hlist] at hlist'
    obtain ⟨hfiles, hlast⟩ := List.append_inj' hlist' rfl
    exact ⟨hfiles.symm, (Prod.mk.inj (List.cons.inj hlast).1).2.symm⟩
  -- the log as it was, perhaps with bytes left behind
  have hleft : ∀ (w' : Writer) (torn' flushed : Bytes), Torn torn' →
      (torn' ≠ [] → w'.segment.poisoned = true) → w'.segment.sink = w.segment.sink →
      w'.segment.written = w.segment.written → w'.segment.limit = w.segment.limit →
      w'.host.disk.files.toList = files ++ [(w.segment.sink, ⟨file.data ++ torn', flushed⟩)] →
      Placed w' start older active torn' := by
    intro w' torn' flushed htorn hpoisoned hsink hwritten hlimit hfiles
    refine ⟨segments_of_files hfiles hsealed h.sink (by rw [hdata]),
      ⟨h.written.older, h.written.active, htorn⟩, by rw [hsink, h.sink], by rw [hwritten, h.count],
      hpoisoned, fun _ => ?_⟩
    rwa [Segment.isFull, hwritten, hlimit]
  refine ends_zoom.mpr (Ends.mono (Wal.ends_append hlist (by rw [h.count, hdata]) hsound _)
    (fun _ t ht => ?_) (fun e t ht => ?_) fun t ht => ?_)
  · obtain ⟨hsegment, hreplies, hfiles⟩ := ht
    refine ⟨⟨?_, ⟨h.written.older, fun m hm => ?_, torn_nil⟩, ?_, ?_, fun hne => absurd rfl hne,
      fun hne => absurd rfl hne⟩, rfl, rfl, hsegment, hreplies, fun files' file' hlist' => ?_⟩
    · refine segments_of_files hfiles hsealed h.sink ?_
      rw [hdata, recordsOf_append, List.append_nil]
    · rcases List.mem_append.mp hm with hm | hm
      · exact h.written.active m hm
      · exact hmutations m hm
    · rw [hsegment]; exact h.sink
    · rw [hsegment, recordsOf_append, List.length_append, ← h.count]
    · obtain ⟨rfl, rfl⟩ := hsame files' file' hlist'
      exact hfiles
  · obtain ⟨hrefuses, hreplies, hunappended⟩ := ht
    refine ⟨hrefuses, rfl, hreplies, fun hharmless => ?_⟩
    cases hunappended with
    | rewound poisoned flushed kept segment files' =>
      refine ⟨[], hleft _ [] flushed torn_nil (fun hne => absurd rfl hne) ?_ ?_ ?_ ?_⟩
      · rw [segment]
      · rw [segment]
      · rw [segment]
      · rw [files', List.append_nil]
    | stuck cut second first next segment files' =>
      unfold Harmless at hharmless
      rw [first, next] at hharmless
      refine ⟨(recordsOf mutations).take cut, hleft _ _ file.flushed
        (torn_take hmutations hharmless) (fun _ => ?_) ?_ ?_ ?_ files'⟩
      · rw [segment]
      · rw [segment]
      · rw [segment]
      · rw [segment]
    | unflushed second first next segment files' =>
      unfold Harmless at hharmless
      rw [first, next] at hharmless
      have hnil : mutations = [] := hharmless
      subst hnil
      refine ⟨[], hleft _ [] file.flushed torn_nil (fun hne => absurd rfl hne) ?_ ?_ ?_ files'⟩
      · rw [segment]
      · rw [segment]; rfl
      · rw [segment]
  · obtain ⟨hcrashes, hdead, -⟩ := ht
    refine ⟨hcrashes, rfl, hdead.imp_right fun ⟨cut, hcut, hfiles⟩ files' file' hlist' => ?_⟩
    obtain ⟨rfl, rfl⟩ := hsame files' file' hlist'
    exact ⟨cut, hcut, hfiles⟩

end Placed

end Hadar.Wal
