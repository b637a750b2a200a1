import Hadar.Lib.Alike
import Hadar.Analysis.Naming
import Hadar.Analysis.Crashes
import Hadar.Interface.Crc32

/-!
# The log over named files is the log over numbers

Every program over a directory of named files ends as its counterpart over numbers does, and leaves
a directory that is depicted by what the counterpart leaves: first the operations, then the listing,
the segments, recovery, compaction and the writer, and last whole lives. The files that are not the
log's stay as they are.
-/

set_option autoImplicit false

namespace Hadar.Wal.Named

open Hadar.Lib Hadar.Lib.Prog Hadar.Storage Hadar.Mvcc Std

variable {strays : Strays} {f : Folder} {d : Disk} {first : ℕ}

/-! ## Directories -/

section Directories

theorem Depicts.contains (h : Depicts strays f d) (hfirst : first ≤ u64Max) :
    f.files.contains (fileName first) = d.files.contains first := by
  rw [ExtTreeMap.contains_eq_isSome_getElem?, ExtTreeMap.contains_eq_isSome_getElem?,
    h.segment first hfirst]

theorem Depicts.answered (h : Depicts strays f d) (replies : List Reply) :
    Depicts strays { f with replies := replies } { d with replies := replies } :=
  ⟨h.segment, h.bounded, h.others, rfl⟩

theorem Depicts.insert (h : Depicts strays f d) (hfirst : first ≤ u64Max) (file : File) :
    Depicts strays { f with files := f.files.insert (fileName first) file }
      { d with files := d.files.insert first file } where
  segment other hother := by
    rw [ExtTreeMap.getElem?_insert, ExtTreeMap.getElem?_insert, compare_fileName hfirst hother,
      h.segment other hother]
  bounded other hmem := by
    rcases ExtTreeMap.mem_insert.mp hmem with heq | hmem
    · rwa [← LawfulEqCmp.eq_of_compare heq]
    · exact h.bounded other hmem
  others name hname := by
    have hne : compare (fileName first) name ≠ .eq := fun heq =>
      hname first hfirst (LawfulEqCmp.eq_of_compare heq).symm
    rw [ExtTreeMap.getElem?_insert, if_neg hne]
    exact h.others name hname
  replies := h.replies

theorem Depicts.erase (h : Depicts strays f d) (hfirst : first ≤ u64Max) :
    Depicts strays { f with files := f.files.erase (fileName first) }
      { d with files := d.files.erase first } where
  segment other hother := by
    rw [ExtTreeMap.getElem?_erase, ExtTreeMap.getElem?_erase, compare_fileName hfirst hother,
      h.segment other hother]
  bounded other hmem := h.bounded other (ExtTreeMap.mem_of_mem_erase hmem)
  others name hname := by
    have hne : compare (fileName first) name ≠ .eq := fun heq =>
      hname first hfirst (LawfulEqCmp.eq_of_compare heq).symm
    rw [ExtTreeMap.getElem?_erase, if_neg hne]
    exact h.others name hname
  replies := h.replies

theorem Depicts.update (h : Depicts strays f d) (hfirst : first ≤ u64Max) (change : File → File) :
    Depicts strays (f.update (fileName first) change) (d.update first change) := by
  unfold Folder.update Disk.update
  rw [h.segment first hfirst]
  cases d.files[first]? with
  | none => exact h
  | some file => exact h.insert hfirst (change file)

end Directories

/-! ## Operations -/

section Operations

variable {α β : Type} {V : α → β → Prop}

theorem shadows_nextReply : Shadows (Depicts strays) Eq nextReply Wal.nextReply := by
  intro f d h
  obtain ⟨files, replies⟩ := f
  obtain ⟨files', replies'⟩ := d
  obtain rfl : replies = replies' := h.replies
  cases replies with
  | nil => exact ⟨rfl, h⟩
  | cons reply rest => exact ⟨rfl, h.answered rest⟩

theorem shadows_operation {p : Prog Folder Error α} {q : Prog Disk Error β} (context : String)
    (h : Shadows (Depicts strays) V p q) :
    Shadows (Depicts strays) V (operation context p) (Wal.operation context q) :=
  shadows_nextReply.bind fun reply reply' heq => by
    subst heq
    cases reply with
    | done => exact h
    | refused cut => exact shadows_fail _
    | crash cut => exact shadows_crashing

theorem shadows_update (hfirst : first ≤ u64Max) (change : File → File) :
    Shadows (Depicts strays) Eq (modify (·.update (fileName first) change) : Prog Folder Error Unit)
      (modify (·.update first change) : Prog Disk Error Unit) :=
  shadows_modify fun _ _ h => h.update hfirst change

theorem shadows_createDir : Shadows (Depicts strays) Eq createDir Wal.createDir :=
  shadows_operation _ (shadows_pure rfl)

/-- SOURCE: crates/wal/src/io.rs:25-33 -/
theorem shadows_createFile (hfirst : first ≤ u64Max) :
    Shadows (Depicts strays) Eq (createFile (fileName first)) (Wal.createFile first) :=
  shadows_operation _ fun f d h => alike_get_bind (by
    rw [h.contains hfirst]
    split
    · exact alike_fail h
    · exact ⟨rfl, h.insert hfirst _⟩)

/-- SOURCE: crates/wal/src/io.rs:36-43 -/
theorem shadows_openFile (hfirst : first ≤ u64Max) :
    Shadows (Depicts strays) Eq (openFile (fileName first)) (Wal.openFile first) :=
  shadows_operation _ fun f d h => alike_get_bind (by
    rw [h.contains hfirst]
    split
    · exact ⟨rfl, h⟩
    · exact alike_fail h)

/-- SOURCE: crates/wal/src/io.rs:69-75, 104-107 -/
theorem shadows_writeAll (hfirst : first ≤ u64Max) (bytes : Bytes) :
    Shadows (Depicts strays) Eq (writeAll (fileName first) bytes) (Wal.writeAll first bytes) :=
  shadows_nextReply.bind fun reply reply' heq => by
    subst heq
    cases reply with
    | done => exact shadows_update hfirst _
    | refused cut => exact (shadows_update hfirst _).bind fun _ _ _ => shadows_fail _
    | crash cut => exact (shadows_update hfirst _).bind fun _ _ _ => shadows_crashing

theorem shadows_syncData (hfirst : first ≤ u64Max) :
    Shadows (Depicts strays) Eq (syncData (fileName first)) (Wal.syncData first) :=
  shadows_operation _ (shadows_update hfirst _)

/-- SOURCE: crates/wal/src/io.rs:95-101, 114-120 -/
theorem shadows_truncate (hfirst : first ≤ u64Max) (len : ℕ) :
    Shadows (Depicts strays) Eq (truncate (fileName first) len) (Wal.truncate first len) :=
  (shadows_operation _ (shadows_update hfirst _)).bind fun _ _ _ =>
    shadows_operation _ (shadows_update hfirst _)

/-- SOURCE: crates/wal/src/segment.rs:174-182 -/
theorem shadows_readSegment (hfirst : first ≤ u64Max) :
    Shadows (Depicts strays) Eq (readSegment (fileName first)) (Wal.readSegment first) :=
  (shadows_operation _ (shadows_pure rfl)).bind fun _ _ _ =>
    shadows_operation _ fun f d h => alike_get_bind (by
      rw [h.segment first hfirst]
      cases d.files[first]? with
      | none => exact alike_fail h
      | some file => exact ⟨rfl, h⟩)

/-- SOURCE: crates/wal/src/segment.rs:189-191 -/
theorem shadows_removeSegment (hfirst : first ≤ u64Max) :
    Shadows (Depicts strays) Eq (removeSegment (fileName first)) (Wal.removeSegment first) :=
  shadows_operation _ (shadows_modify fun _ _ h => h.erase hfirst)

end Operations

/-! ## The listing -/

section Listing

/-- A segment as `list` returns it. -/
def entryOf (first : ℕ) : ℕ × Name := (first, fileName first)

/-- The files with the extension of a segment are the segments. -/
theorem Depicts.mem_files (h : Depicts strays f d) {name : Name}
    (hextension : extension name = some walExtension) :
    name ∈ f.files ↔ ∃ first ∈ d.files, name = fileName first := by
  rw [ExtTreeMap.mem_iff_isSome_getElem?]
  constructor
  · intro hmem
    rcases Classical.em (∃ first ≤ u64Max, name = fileName first) with hname | hname
    · obtain ⟨first, hfirst, rfl⟩ := hname
      rw [h.segment first hfirst] at hmem
      exact ⟨first, ExtTreeMap.mem_iff_isSome_getElem?.mpr hmem, rfl⟩
    · rw [h.others name fun first hfirst heq => hname ⟨first, hfirst, heq⟩] at hmem
      exact absurd hextension
        (strays.foreign name (ExtTreeMap.mem_iff_isSome_getElem?.mpr hmem))
  · rintro ⟨first, hmem, rfl⟩
    rw [h.segment first (h.bounded first hmem)]
    exact ExtTreeMap.mem_iff_isSome_getElem?.mp hmem

theorem Depicts.well_named (h : Depicts strays f d) : ∀ name ∈ f.files, ¬Misnamed name := by
  rintro name hmem ⟨hextension, hindex⟩
  obtain ⟨first, hfirst, rfl⟩ := (h.mem_files hextension).mp hmem
  rw [indexOf_fileName (h.bounded first hfirst)] at hindex
  cases hindex

variable [Listing]

/-- The segments that are listed are those of the directory over numbers, in its order. -/
theorem Depicts.listed (h : Depicts strays f d) :
    Listing.sortByKey ((Listing.entries f).filterMap segmentOf) = d.files.keys.map entryOf := by
  have hmem : ∀ p : ℕ × Name, p ∈ Listing.sortByKey ((Listing.entries f).filterMap segmentOf) ↔
      p ∈ d.files.keys.map entryOf := by
    intro p
    rw [mem_listed, List.mem_map]
    constructor
    · rintro ⟨hname, hextension, hindex⟩
      obtain ⟨first, hfirst, hp⟩ := (h.mem_files hextension).mp hname
      rw [hp, indexOf_fileName (h.bounded first hfirst)] at hindex
      exact ⟨first, ExtTreeMap.mem_keys.mpr hfirst, Prod.ext (Option.some.inj hindex) hp.symm⟩
    · rintro ⟨first, hkey, rfl⟩
      have hfirst := ExtTreeMap.mem_keys.mp hkey
      exact ⟨(h.mem_files (extension_fileName first)).mpr ⟨first, hfirst, rfl⟩,
        extension_fileName first, indexOf_fileName (h.bounded first hfirst)⟩
  have hordered : (d.files.keys.map entryOf).Pairwise fun p q => p.1 ≤ q.1 :=
    List.pairwise_map.mpr ((ExtTreeMap.ordered_keys (t := d.files)).imp fun hlt =>
      Nat.le_of_lt (Nat.compare_eq_lt.mp hlt))
  have hperm : (Listing.sortByKey ((Listing.entries f).filterMap segmentOf)).Perm
      (d.files.keys.map entryOf) := by
    refine (List.perm_ext_iff_of_nodup (.of_map _ (nodup_listed f)) ?_).mpr hmem
    exact ExtTreeMap.nodup_keys.map fun m n heq => congrArg Prod.fst heq
  refine hperm.eq_of_pairwise (fun p q hp hq hpq hqp => ?_) (Listing.sorted_sortByKey _) hordered
  -- of two segments listed under one number, both have its name
  obtain ⟨m, -, rfl⟩ := List.mem_map.mp (hperm.mem_iff.mp hp)
  obtain ⟨n, -, rfl⟩ := List.mem_map.mp hq
  exact congrArg entryOf (Nat.le_antisymm hpq hqp)

/-- SOURCE: crates/wal/src/segment.rs:145-167 -/
theorem shadows_list : Shadows (Depicts strays)
    (fun segments firsts => segments = firsts.map entryOf ∧ ∀ first ∈ firsts, first ≤ u64Max)
    list Wal.list := by
  intro f d h
  obtain ⟨files, replies⟩ := f
  obtain ⟨files', replies'⟩ := d
  obtain rfl : replies = replies' := h.replies
  have hbounded : ∀ first ∈ files'.toList.map (·.1), first ≤ u64Max := fun first hmem => by
    rw [ExtTreeMap.map_fst_toList_eq_keys, ExtTreeMap.mem_keys] at hmem
    exact h.bounded first hmem
  have hdone : replies.headD .done = .done → Prog.Alike list Wal.list ⟨files, replies⟩
      ⟨files', replies⟩ (fun segments firsts f' d' => (segments = firsts.map entryOf ∧
        ∀ first ∈ firsts, first ≤ u64Max) ∧ Depicts strays f' d')
      fun _ f' d' => Depicts strays f' d' := by
    intro hreply
    have hlist := exec_list (f := ⟨files, replies⟩) hreply
    rw [collect_ok fun name hmem => h.well_named name (mem_entries.mp hmem)] at hlist
    have hwal : Wal.list.exec ⟨files', replies⟩ =
        (.ok (files'.toList.map (·.1)), ⟨files', replies.tail⟩) := by
      cases replies with
      | nil => rfl
      | cons reply rest =>
        obtain rfl : reply = .done := hreply
        rfl
    refine alike_iff.mpr (.inl ⟨_, _, _, _, hlist, hwal, ⟨?_, hbounded⟩,
      h.answered replies.tail⟩)
    rw [h.listed, ExtTreeMap.map_fst_toList_eq_keys]
  cases replies with
  | nil => exact hdone rfl
  | cons reply rest =>
    cases reply with
    | done => exact hdone rfl
    | crash cut => exact ⟨rfl, h.answered rest⟩
    | refused cut =>
      -- the entries that were read before the refusal are well named too
      have hpart : collect ((Listing.entries ⟨files, .refused cut :: rest⟩).take cut) = .ok _ :=
        collect_ok fun name hmem => h.well_named name (mem_entries.mp (List.mem_of_mem_take hmem))
      exact alike_iff.mpr (.inr ⟨_, _, _, exec_list_refused hpart, rfl, h.answered rest⟩)

end Listing

/-! ## The append target -/

section Segments

/-- A segment and its directory, under names and under numbers. -/
structure DepictsTarget (strays : Strays) (t : Target) (t' : Wal.Target) : Prop where
  segment : DepictsSegment t.segment t'.segment
  folder : Depicts strays t.folder t'.disk

theorem DepictsSegment.isFull {s : Segment} {s' : Wal.Segment} (h : DepictsSegment s s') :
    s.isFull = s'.isFull := by
  rw [Segment.isFull, Wal.Segment.isFull, h.written, h.limit]

/-- SOURCE: crates/wal/src/segment.rs:41-51 -/
theorem shadows_create (hfirst : first ≤ u64Max) (limit : ℕ) :
    Shadows (Depicts strays) DepictsSegment (Segment.create first limit)
      (Wal.Segment.create first limit) :=
  (shadows_createFile hfirst).bind fun _ _ _ => shadows_pure ⟨rfl, hfirst, rfl, rfl, rfl⟩

/-- SOURCE: crates/wal/src/segment.rs:63-79 -/
theorem shadows_reopen (hfirst : first ≤ u64Max) (valid limit : ℕ) :
    Shadows (Depicts strays) DepictsSegment (Segment.reopen (fileName first) valid limit)
      (Wal.Segment.reopen first valid limit) :=
  (shadows_openFile hfirst).bind fun _ _ _ => (shadows_truncate hfirst valid).bind fun _ _ _ =>
    shadows_pure ⟨rfl, hfirst, rfl, rfl, rfl⟩

theorem shadows_onFolder {α β : Type} {V : α → β → Prop} {p : Prog Folder Error α}
    {q : Prog Disk Error β} (h : Shadows (Depicts strays) V p q) :
    Shadows (DepictsTarget strays) V (onFolder p) (onDisk q) :=
  h.zoom id (fun _ _ ht => ht.folder) fun _ _ _ _ ht hf => ⟨ht.segment, hf⟩

/-- SOURCE: crates/wal/src/segment.rs:99-129 -/
theorem shadows_append (bytes : Bytes) :
    Shadows (DepictsTarget strays) Eq (Segment.append bytes) (Wal.Segment.append bytes) := by
  refine shadows_get.bind fun t t' ht => ?_
  obtain ⟨⟨sink, written, limit, poisoned⟩, folder⟩ := t
  obtain ⟨rfl, hsink, rfl, rfl, rfl⟩ := ht.segment
  dsimp only
  split
  · exact shadows_fail _
  · refine (shadows_onFolder (shadows_writeAll hsink bytes)).attempt.bind fun outcome outcome' heq => ?_
    subst heq
    cases outcome with
    | error error =>
      refine (shadows_onFolder (shadows_truncate hsink _)).attempt.bind fun rewind rewind' heq => ?_
      subst heq
      cases rewind with
      | error rewind =>
        refine (shadows_modify fun u u' hu => ?_).bind fun _ _ _ => shadows_fail _
        exact ⟨⟨hu.segment.sink, hu.segment.bounded, hu.segment.written, hu.segment.limit, rfl⟩,
          hu.folder⟩
      | ok => exact shadows_fail _
    | ok =>
      refine (shadows_modify fun u u' hu => ?_).bind fun _ _ _ =>
        shadows_onFolder (shadows_syncData hsink)
      exact ⟨⟨hu.segment.sink, hu.segment.bounded,
        congrArg (· + bytes.length) hu.segment.written, hu.segment.limit, hu.segment.poisoned⟩,
        hu.folder⟩

end Segments

/-! ## Recovery and compaction -/

section Recovery

variable {α β : Type} {V : α → β → Prop}

/-- Where the log ends, under names and under numbers. -/
def DepictsTail (tail : Option Tail) (tail' : Option Wal.Tail) : Prop :=
  tail = tail'.map (fun t => ⟨fileName t.first, t.valid⟩) ∧ ∀ t ∈ tail', t.first ≤ u64Max

theorem depictsTail_none : DepictsTail none none := ⟨rfl, fun t ht => by cases ht⟩

theorem depictsTail_some (hfirst : first ≤ u64Max) (valid : ℕ) :
    DepictsTail (some ⟨fileName first, valid⟩) (some ⟨first, valid⟩) :=
  ⟨rfl, fun t ht => by
    obtain rfl := Option.mem_some.mp ht
    exact hfirst⟩

theorem shadows_hostFolder {p : Prog Folder Error α} {q : Prog Disk Error β}
    (h : Shadows (Depicts strays) V p q) :
    Shadows (DepictsHost strays) V (Host.onFolder p) (Wal.Host.onDisk q) :=
  h.zoom id (fun _ _ hh => hh.folder) fun _ _ _ _ hh hf => ⟨hf, hh.store⟩

theorem shadows_hostStore (p : Prog KvStore Mvcc.Error α) :
    Shadows (DepictsHost strays) Eq (Host.onStore p) (Wal.Host.onStore p) :=
  (shadows_self p).zoom _ (fun _ _ hh => hh.store) fun _ _ _ _ hh hs => ⟨hh.folder, hs⟩

/-- SOURCE: crates/wal/src/wal.rs:273-282 -/
theorem shadows_removeCovered {durable : ℕ} {firsts : List ℕ}
    (hfirsts : ∀ first ∈ firsts, first ≤ u64Max) (removed : ℕ) :
    Shadows (Depicts strays) Eq (removeCovered durable (firsts.map entryOf) removed)
      (Wal.removeCovered durable firsts removed) := by
  induction firsts generalizing removed with
  | nil => exact shadows_pure rfl
  | cons first rest ih =>
    obtain ⟨hfirst, hrest⟩ := List.forall_mem_cons.mp hfirsts
    cases rest with
    | nil => exact shadows_pure rfl
    | cons next rest =>
      unfold Wal.removeCovered
      simp only [List.map_cons, entryOf, removeCovered]
      split
      · exact shadows_pure rfl
      · exact (shadows_removeSegment hfirst).bind fun _ _ _ => ih hrest (removed + 1)

variable [Listing]

/-- SOURCE: crates/wal/src/wal.rs:265-285 -/
theorem shadows_compact : Shadows (DepictsHost strays) Eq compact Wal.compact :=
  (shadows_hostStore checkpoint).bind fun durable durable' heq => by
    subst heq
    refine (shadows_hostFolder shadows_list).bind fun segments firsts h => ?_
    obtain ⟨rfl, hfirsts⟩ := h
    exact shadows_hostFolder (shadows_removeCovered hfirsts 0)

variable [Crc32]

omit [Listing] in
/-- SOURCE: crates/wal/src/wal.rs:205-242 -/
theorem shadows_replaySegments (applied last seen : ℕ) (firsts : List (ℕ × ℕ))
    (hfirsts : ∀ p ∈ firsts, p.1 ≤ u64Max) (pending : List Mutation) {tail : Option Tail}
    {tail' : Option Wal.Tail} (htail : DepictsTail tail tail') :
    Shadows (Depicts strays)
      (fun r r' => r.1 = r'.1 ∧ r.2.1 = r'.2.1 ∧ DepictsTail r.2.2 r'.2.2)
      (replaySegments applied last (firsts.map fun p => (entryOf p.1, p.2)) seen pending tail)
      (Wal.replaySegments applied last firsts seen pending tail') := by
  induction firsts generalizing seen pending tail tail' with
  | nil => exact shadows_pure ⟨rfl, rfl, htail⟩
  | cons p rest ih =>
    obtain ⟨first, index⟩ := p
    obtain ⟨hfirst, hrest⟩ := List.forall_mem_cons.mp hfirsts
    refine (shadows_readSegment hfirst).bind fun bytes bytes' heq => ?_
    subst heq
    cases replayRecords applied (index == last) bytes first 0 pending with
    | error e => exact shadows_fail e
    | ok counted =>
      exact ih _ hrest _ (depictsTail_some hfirst counted.2.1)

/-- SOURCE: crates/wal/src/wal.rs:197-257 -/
theorem shadows_recover : Shadows (DepictsHost strays) DepictsTail recover Wal.recover := by
  refine shadows_get.bind fun h h' hh => ?_
  dsimp only
  rw [hh.store]
  refine (shadows_hostFolder shadows_list).bind fun segments firsts hlist => ?_
  obtain ⟨rfl, hfirsts⟩ := hlist
  have hindexed : (firsts.map entryOf).zipIdx = firsts.zipIdx.map fun p => (entryOf p.1, p.2) := by
    rw [List.zipIdx_map]
    rfl
  rw [hindexed, List.length_map]
  have hbounded : ∀ p ∈ firsts.zipIdx, p.1 ≤ u64Max := fun p hp =>
    hfirsts p.1 (List.fst_mem_of_mem_zipIdx hp)
  refine (shadows_hostFolder (shadows_replaySegments _ _ 0 _ hbounded [] depictsTail_none)).bind
    fun r r' hr => ?_
  obtain ⟨seen, pending, tail⟩ := r
  obtain ⟨seen', pending', tail'⟩ := r'
  obtain ⟨rfl, rfl, htail⟩ := hr
  dsimp only
  split
  · exact shadows_fail _
  · split
    · exact shadows_pure htail
    · exact (shadows_hostStore _).bind fun _ _ _ => shadows_pure htail

/-- SOURCE: crates/wal/src/wal.rs:113-139 -/
theorem shadows_openWith (options : Options) :
    Shadows (DepictsHost strays) DepictsSegment (openWith options) (Wal.openWith options) := by
  refine (shadows_hostFolder shadows_createDir).bind fun _ _ _ => ?_
  refine shadows_recover.bind fun tail tail' htail => ?_
  obtain ⟨rfl, hbounded⟩ := htail
  cases tail' with
  | none => exact shadows_hostFolder (shadows_create (Nat.zero_le _) _)
  | some t => exact shadows_hostFolder (shadows_reopen (hbounded t rfl) _ _)

end Recovery

/-! ## The writer -/

section Writer

variable {α β : Type} {V : α → β → Prop} {w : Writer} {w' : Wal.Writer}

theorem shadows_onHost {p : Prog Host Error α} {q : Prog Wal.Host Error β}
    (h : Shadows (DepictsHost strays) V p q) :
    Shadows (DepictsWriter strays) V (Writer.onHost p) (Wal.Writer.onHost q) :=
  h.zoom id (fun _ _ hw => hw.host) fun _ _ _ _ hw hh => ⟨hh, hw.segment, hw.appended⟩

theorem shadows_onSegment {p : Prog Target Error α} {q : Prog Wal.Target Error β}
    (h : Shadows (DepictsTarget strays) V p q) :
    Shadows (DepictsWriter strays) V (Writer.onSegment p) (Wal.Writer.onSegment q) :=
  h.zoom id (fun _ _ hw => ⟨hw.segment, hw.host.folder⟩) fun _ _ _ _ hw ht =>
    ⟨⟨ht.folder, hw.host.store⟩, ht.segment, hw.appended⟩

/-- A new segment is named by the position of the store, which is a `u64`.
SOURCE: crates/wal/src/writer.rs:193-196 -/
theorem alike_rollIfFull (h : DepictsWriter strays w w')
    (hcounted : w.host.store.state.applied ≤ u64Max) :
    Prog.Alike rollIfFull Wal.rollIfFull w w' (fun _ _ v v' => DepictsWriter strays v v')
      fun _ v v' => DepictsWriter strays v v' := by
  refine alike_get_bind ?_
  rw [h.segment.isFull]
  split
  · have hroll : Shadows (DepictsWriter strays) DepictsSegment
        (Writer.onHost (Host.onFolder (w.segment.rollOver w.host.store.state.applied)))
        (Wal.Writer.onDisk (w'.segment.rollOver w'.host.store.state.applied)) := by
      unfold Segment.rollOver Wal.Segment.rollOver
      rw [← h.host.store, h.segment.limit]
      exact shadows_onHost (shadows_hostFolder (shadows_create hcounted _))
    exact (hroll w w' h).bind fun next next' v v' hnext =>
      ⟨hnext.2.host, hnext.1, hnext.2.appended⟩
  · exact alike_pure h

variable [Crc32]

/-- SOURCE: crates/wal/src/writer.rs:175-208 -/
theorem alike_retire (h : DepictsWriter strays w w') (hcounted : w.host.store.state.applied ≤ u64Max)
    (batch : List Request) :
    Prog.Alike (retire batch) (Wal.retire batch) w w'
      (fun revisions revisions' v v' => revisions = revisions' ∧ DepictsWriter strays v v')
      fun _ v v' => DepictsWriter strays v v' := by
  unfold retire Wal.retire
  cases encodeBatch (mutationsOf batch) [] with
  | error e => exact alike_fail h
  | ok bytes =>
    refine (alike_rollIfFull h hcounted).bind fun _ _ v v' hv => ?_
    have hrest : Shadows (DepictsWriter strays) Eq (do
        Writer.onSegment (Segment.append bytes)
        modify fun w => { w with appended := w.appended + bytes.length }
        let w ← get
        let applied := w.host.store.state.applied + (mutationsOf batch).length
        Writer.onHost (Host.onStore (Mvcc.apply (mutationsOf batch) applied))) (do
        Wal.Writer.onSegment (Wal.Segment.append bytes)
        modify fun w => { w with appended := w.appended + bytes.length }
        let w ← get
        let applied := w.host.store.state.applied + (mutationsOf batch).length
        Wal.Writer.onHost (Wal.Host.onStore (Mvcc.apply (mutationsOf batch) applied))) := by
      refine (shadows_onSegment (shadows_append bytes)).bind fun _ _ _ => ?_
      refine (shadows_modify fun u u' hu => ?_).bind fun _ _ _ => ?_
      · exact ⟨hu.host, hu.segment, congrArg (· + bytes.length) hu.appended⟩
      · refine shadows_get.bind fun u u' hu => ?_
        rw [hu.host.store]
        exact shadows_onHost (shadows_hostStore _)
    exact hrest v v' hv

variable [Listing]

/-- SOURCE: crates/wal/src/writer.rs:154-170 -/
theorem alike_turn (h : DepictsWriter strays w w') (hcounted : w.host.store.state.applied ≤ u64Max)
    (interval : ℕ) (batch : List Request) (requested : Bool) :
    Prog.Alike (turn interval batch requested) (Wal.turn interval batch requested) w w'
      (fun answers answers' v v' => answers = answers' ∧ DepictsWriter strays v v')
      fun _ v v' => DepictsWriter strays v v' := by
  unfold turn Wal.turn
  extract_lets rest rest'
  have hcompact : Shadows (DepictsWriter strays) Eq (Writer.onHost compact).attempt
      (Wal.Writer.onHost Wal.compact).attempt := (shadows_onHost shadows_compact).attempt
  have hreset : Shadows (DepictsWriter strays) Eq
      (modify fun v => { v with appended := 0 } : Prog Writer Error Unit)
      (modify fun v' => { v' with appended := 0 } : Prog Wal.Writer Error Unit) :=
    shadows_modify fun _ _ hv => ⟨hv.host, hv.segment, rfl⟩
  have hrest : ∀ writes, Shadows (DepictsWriter strays) Eq (rest writes) (rest' writes) := by
    intro writes
    have hended : ∀ (outcome : Except Error ℕ) (taken : Option (Except Error ℕ)),
        Shadows (DepictsWriter strays) Eq (do
          if outcome.isOk then modify fun w => { w with appended := 0 }
          pure ⟨writes, taken⟩ : Prog Writer Error Answers) (do
          if outcome.isOk then modify fun w => { w with appended := 0 }
          pure ⟨writes, taken⟩ : Prog Wal.Writer Error Answers) := by
      intro outcome taken
      dsimp only
      split
      · exact hreset.bind fun _ _ _ => shadows_pure rfl
      · exact shadows_pure rfl
    unfold rest rest'
    dsimp only
    split
    · refine hcompact.bind fun outcome outcome' heq => ?_
      subst heq
      exact hended outcome (some outcome)
    · refine shadows_get.bind fun v v' hv => ?_
      rw [hv.appended]
      split
      · refine hcompact.bind fun outcome outcome' heq => ?_
        subst heq
        exact hended outcome none
      · exact shadows_pure rfl
  split
  · exact hrest [] w w' h
  · refine (alike_retire h hcounted batch).attempt.bind fun outcome outcome' v v' hv => ?_
    obtain ⟨rfl, hv⟩ := hv
    exact hrest _ v v' hv

end Writer

/-! ## Crashes and restarts -/

section Restarts

/-- What a crash leaves of the named files is what one may leave of the directory over numbers.
Files that are flushed are left as they are, so the strays are. -/
theorem Depicts.crashed {f' : Folder} (h : Depicts strays f d) (hcrashed : f.Crashed f') :
    ∃ d', d.Crashed d' ∧ Depicts strays f' d' := by
  refine ⟨⟨d.files.map fun first file => f'.files[fileName first]?.getD file, f'.replies⟩, ?_, ?_⟩
  · unfold Disk.Crashed
    rw [ExtTreeMap.toList_map, List.forall₂_map_right_iff, List.forall₂_same]
    intro p hp
    have hfile : d.files[p.1]? = some p.2 := ExtTreeMap.mem_toList_iff_getElem?_eq_some.mp hp
    have hfirst : p.1 ≤ u64Max :=
      h.bounded p.1 (ExtTreeMap.mem_iff_isSome_getElem?.mpr (by rw [hfile]; rfl))
    have hleft := hcrashed (fileName p.1)
    rw [h.segment p.1 hfirst, hfile] at hleft
    cases hafter : f'.files[fileName p.1]? with
    | none => rw [hafter] at hleft; cases hleft
    | some file' =>
      rw [hafter] at hleft
      obtain ⟨rest, hsurvives, rfl⟩ := hleft
      exact ⟨rfl, rest, hsurvives, rfl⟩
  · refine ⟨fun first hfirst => ?_, fun first hmem => ?_, fun name hname => ?_, rfl⟩
    · have hleft := hcrashed (fileName first)
      rw [h.segment first hfirst] at hleft
      rw [ExtTreeMap.getElem?_map]
      cases hbefore : d.files[first]? <;> cases hafter : f'.files[fileName first]? <;>
        rw [hbefore, hafter] at hleft
      · rfl
      · cases hleft
      · cases hleft
      · rfl
    · exact h.bounded first (ExtTreeMap.mem_map.mp hmem)
    · have hleft := hcrashed name
      have hothers := h.others name hname
      rw [hothers] at hleft
      cases hbefore : strays.files[name]? <;> cases hafter : f'.files[name]? <;>
        rw [hbefore, hafter] at hleft
      · cases hleft
      · cases hleft
      · rename_i file file'
        obtain ⟨rest, hsurvives, rfl⟩ := hleft
        have hflushed := strays.flushed name file hbefore
        obtain ⟨data, flushed⟩ := file
        obtain rfl : flushed = data := hflushed
        rw [hsurvives.eq_of_flushed rfl]

variable [Listing] [Crc32]

/-- A directory and an engine, under names and under numbers. -/
def DepictsDown (strays : Strays) (m : Folder × Engine) (m' : Disk × Engine) : Prop :=
  Depicts strays m.1 m'.1 ∧ m.2 = m'.2

omit [Listing] [Crc32] in
theorem Depicts.down (h : Depicts strays f d) (replies : List Reply) (engine : Engine) :
    DepictsDown strays ({ f with replies := replies }, engine)
      ({ d with replies := replies }, engine) :=
  ⟨h.answered replies, rfl⟩

/-- A restart over named files is one over numbers. -/
theorem shadows_boot (options : Options) :
    Shadows (DepictsDown strays) (DepictsWriter strays) (boot options) (Wal.boot options) := by
  refine ((shadows_self openState).zoom _ (fun _ _ hm => hm.2) fun _ _ _ _ hm hs =>
    ⟨hm.1, hs⟩).bind fun state state' heq => ?_
  subst heq
  refine Shadows.zoom id ((shadows_openWith options).bind fun segment segment' hsegment => ?_)
    (fun _ _ hm => ⟨hm.1, by rw [hm.2]⟩) fun _ _ _ _ _ hh => ⟨hh.folder, by rw [hh.store]⟩
  exact shadows_get.bind fun _ _ hh => shadows_pure ⟨hh, hsegment, rfl⟩

end Restarts

/-! ## Lives -/

section Lives

variable [Crc32] [Listing] {options : Options}

omit [Crc32] [Listing] in
/-- At first there are the strays alone. -/
theorem Strays.depicts_empty (strays : Strays) : Depicts strays ⟨strays.files, []⟩ Disk.empty where
  segment first _ := by
    have hnot : fileName first ∉ strays.files := fun hmem =>
      strays.foreign _ hmem (extension_fileName first)
    exact (ExtTreeMap.getElem?_eq_none hnot).trans ExtTreeMap.getElem?_empty.symm
  bounded first hmem := absurd hmem ExtTreeMap.not_mem_empty
  others _ _ := rfl
  replies := rfl

omit [Crc32] [Listing] in
theorem DepictsWriter.given {w : Writer} {w' : Wal.Writer} (h : DepictsWriter strays w w')
    (replies : List Reply) (calls : List Storage.Reply) :
    DepictsWriter strays (w.given replies calls) (w'.given replies calls) := by
  refine ⟨⟨h.host.folder.answered replies, ?_⟩, h.segment, h.appended⟩
  dsimp only [Writer.given, Wal.Writer.given]
  rw [h.host.store]

/-- **A log over named files is a log over numbers.** Every life of a log in a directory of named
files, among strays, is depicted by a life of the log over numbers: each segment is under the name
of its number and the strays are as they were.
SOURCE: crates/wal/src/segment.rs:36-191 -/
theorem career_depicted (strays : Strays) (options : Options) (machine : Machine)
    (h : Career options strays machine) :
    ∃ machine', Wal.Career options machine' ∧ DepictsMachine strays machine machine' := by
  induction h with
  | fresh =>
    exact ⟨_, .fresh, .down _ strays.depicts_empty⟩
  | @opened folder _ engine _ replies calls w before ran ih =>
    obtain ⟨_, hcareer, hdepicts⟩ := ih
    cases hdepicts with
    | down _ hfolder =>
      have hboot := shadows_boot options _ _ (hfolder.down replies { engine with replies := calls })
      obtain ⟨w', m', hran, hwriter, -⟩ := hboot.returns ran
      exact ⟨_, .opened hcareer hran, .up hwriter⟩
  | @unopened folder _ _ engine _ _ replies calls stop before ran inFolder inEngine ih =>
    obtain ⟨_, hcareer, hdepicts⟩ := ih
    cases hdepicts with
    | down _ hfolder =>
      have hboot := shadows_boot options _ _ (hfolder.down replies { engine with replies := calls })
      obtain ⟨⟨disk', engine'⟩, hran, hleft, rfl⟩ := hboot.stops ran
      obtain ⟨disk'', hdisk, hleft⟩ := hleft.crashed inFolder
      exact ⟨_, .unopened hcareer hran hdisk inEngine, .down _ hleft⟩
  | @turned w _ t _ before counted ran ih =>
    obtain ⟨_, hcareer, hdepicts⟩ := ih
    cases hdepicts with
    | up hwriter =>
      have hturn := alike_turn (hwriter.given t.replies t.calls) counted options.checkpointInterval
        t.batch t.requested
      obtain ⟨answers', w'', hran, rfl, hafter⟩ := hturn.returns ran
      exact ⟨_, .turned hcareer hran, .up hafter⟩
  | @stopped w t folder engine before counted inFolder inEngine ih =>
    obtain ⟨_, hcareer, hdepicts⟩ := ih
    cases hdepicts with
    | up hwriter =>
      have hturn := alike_turn (hwriter.given t.replies t.calls) counted options.checkpointInterval
        t.batch t.requested
      have hafter := hturn.left (fun _ _ _ _ h => h.2) fun _ _ _ h => h
      obtain ⟨disk, hdisk, hleft⟩ := hafter.host.folder.crashed inFolder
      refine ⟨_, .stopped hcareer hdisk ?_, .down _ hleft⟩
      rw [hafter.host.store] at inEngine
      exact inEngine

end Lives

/-! ## A log among notes -/

/-- Somebody's notes. -/
def notes : Strays where
  files := ExtTreeMap.empty.insert notesName ⟨[1], [1]⟩
  foreign name hmem := by
    rcases ExtTreeMap.mem_insert.mp hmem with heq | hmem
    · rw [← LawfulEqCmp.eq_of_compare heq]
      decide
    · exact absurd hmem ExtTreeMap.not_mem_empty
  flushed name file hfile := by
    rw [ExtTreeMap.getElem?_insert] at hfile
    split at hfile
    · cases hfile
      rfl
    · exact absurd (hfile.symm.trans ExtTreeMap.getElem?_empty) nofun

/-- The writer of a log that was opened among the notes. -/
def notedWriter : Writer :=
  (@boot crc32fast nameOrder Options.default).returned (⟨notes.files, []⟩, Engine.empty)
    ⟨⟨⟨notes.files, []⟩, KvStore.fresh⟩, ⟨fileName 0, 0, 0, false⟩, 0⟩

/-- One key is put, and a checkpoint is asked for. -/
def notedTurn : Turn := ⟨[⟨[.put [107] [118]]⟩], true, [], []⟩

theorem career_depicted_notes : ∃ machine', @Wal.Career crc32fast Options.default machine' ∧
    DepictsMachine notes (.up ((@turn nameOrder crc32fast Options.default.checkpointInterval
      notedTurn.batch notedTurn.requested).exec (notedWriter.given [] [])).2) machine' := by
  have hboot := exec_returned (p := @boot crc32fast nameOrder Options.default)
    (s := (⟨notes.files, []⟩, Engine.empty)) (by decide +kernel)
    ⟨⟨⟨notes.files, []⟩, KvStore.fresh⟩, ⟨fileName 0, 0, 0, false⟩, 0⟩
  have hturn : (@turn nameOrder crc32fast Options.default.checkpointInterval notedTurn.batch
      notedTurn.requested).returnsFrom (notedWriter.given [] []) = true := by decide +kernel
  obtain ⟨answers, hexec⟩ := exec_of_returnsFrom hturn
  have hopened := @Career.opened crc32fast nameOrder Options.default notes _ _ _ _ [] [] notedWriter
    (@Career.fresh crc32fast nameOrder _ notes) hboot
  exact @career_depicted crc32fast nameOrder notes Options.default _
    (@Career.turned crc32fast nameOrder _ _ _ _ notedTurn answers hopened (by decide +kernel) hexec)

end Hadar.Wal.Named
