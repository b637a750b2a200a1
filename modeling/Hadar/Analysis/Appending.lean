import Hadar.Analysis.Directories

/-!
# Appending to a segment

What the operations on the active segment can end in. The active segment is the last file of
the directory, so each of them changes the last entry of the listing and no other. An append
that fails leaves one of three things behind: the bytes from before it, those and a part of
what was to be written that could not be removed, or all of them, not flushed.
-/

set_option autoImplicit false

namespace Hadar.Wal

open Hadar.Lib Hadar.Lib.Prog Hadar.Storage Hadar.Mvcc Std

/-- A file once it was written to: its bytes are still there and may go on, and what was flushed is
what was flushed before or all of those bytes. -/
structure File.Extends (file file' : File) : Prop where
  data : file.data <+: file'.data
  flushed : file'.flushed = file.flushed ∨ file.data <+: file'.flushed

theorem File.Extends.refl (file : File) : file.Extends file := ⟨List.prefix_refl _, .inl rfl⟩

theorem File.Extends.trans {file file' file'' : File} (h : file.Extends file')
    (h' : file'.Extends file'') : file.Extends file'' := by
  refine ⟨h.data.trans h'.data, ?_⟩
  rcases h'.flushed with hsame | hflushed
  · exact h.flushed.imp hsame.trans fun hflushed => hsame ▸ hflushed
  · exact .inr (h.data.trans hflushed)

section Disk

variable {d : Disk} {older : List (ℕ × File)} {sink : ℕ} {file : File}

/-- No file has a greater name than the last one. -/
theorem name_le_last (h : d.files.toList = older ++ [(sink, file)]) {p : ℕ × File}
    (hp : p ∈ d.files.toList) : p.1 ≤ sink := by
  have hasc := OrderedMap.ascending_toList d.files
  rw [h] at hasc hp
  rcases List.mem_append.mp hp with hp | hp
  · have hlt := (List.pairwise_append.mp hasc).2.2 p hp _ (List.mem_singleton_self _)
    exact Nat.le_of_lt (Nat.compare_eq_lt.mp hlt)
  · rw [List.mem_singleton.mp hp]

theorem replies_update (d : Disk) (sink : ℕ) (f : File → File) :
    (d.update sink f).replies = d.replies := by
  unfold Disk.update
  split <;> rfl

/-! ### Any file -/

theorem files_update (h : d.files[sink]? = some file) (f : File → File) :
    (d.update sink f).files = d.files.insert sink (f file) := by
  rw [Disk.update, h]

/-- SOURCE: crates/wal/src/io.rs:69-75 -/
theorem ends_writeAll_at (h : d.files[sink]? = some file) (bytes : Bytes) :
    Ends (writeAll sink bytes) d
      (fun _ d' => d.replies.headD .done = .done ∧ d'.replies = d.replies.tail ∧
        d'.files = d.files.insert sink { file with data := file.data ++ bytes })
      (fun _ d' => d'.replies = d.replies.tail ∧ ∃ cut, d.replies.headD .done = .refused cut ∧
        d'.files = d.files.insert sink { file with data := file.data ++ bytes.take cut })
      (fun d' => ∃ cut, d.replies.headD .done = .crash cut ∧
        d'.files = d.files.insert sink { file with data := file.data ++ bytes.take cut }) := by
  refine ends_bind.mpr (Ends.mono ends_nextReply (fun r d1 hr => ?_) (fun _ _ h => h.elim)
    fun _ h => h.elim)
  obtain ⟨hlater, hreply, htail⟩ := hr
  rw [← hlater.files] at h ⊢
  cases r with
  | done =>
    exact ends_modify.mpr ⟨hreply.symm, (replies_update _ _ _).trans htail, files_update h _⟩
  | refused cut =>
    refine ends_bind.mpr (ends_modify.mpr (ends_fail.mpr ?_))
    exact ⟨(replies_update _ _ _).trans htail, cut, hreply.symm, files_update h _⟩
  | crash cut =>
    refine ends_bind.mpr (ends_modify.mpr (ends_crashing.mpr ?_))
    exact ⟨cut, hreply.symm, files_update h _⟩

/-- An operation that changes a file, with the reply it got. -/
theorem ends_update_at (h : d.files[sink]? = some file) (context : String) (f : File → File) :
    Ends (operation context (modify (·.update sink f)) : Prog Disk Error Unit) d
      (fun _ d' => d'.replies = d.replies.tail ∧ d'.files = d.files.insert sink (f file))
      (fun _ d' => d'.replies = d.replies.tail ∧ (∃ cut, d.replies.headD .done = .refused cut) ∧
        d'.files = d.files)
      (fun d' => (∃ cut, d.replies.headD .done = .crash cut) ∧ d'.files = d.files) := by
  refine ends_bind.mpr (Ends.mono ends_nextReply (fun r d1 hr => ?_) (fun _ _ h => h.elim)
    fun _ h => h.elim)
  obtain ⟨hlater, hreply, htail⟩ := hr
  have hfiles := hlater.files
  rw [← hfiles] at h
  cases r with
  | done =>
    refine ends_modify.mpr ⟨(replies_update _ _ _).trans htail, ?_⟩
    rw [files_update h, hfiles]
  | refused cut => exact ends_fail.mpr ⟨htail, ⟨cut, hreply.symm⟩, hfiles⟩
  | crash cut => exact ends_crashing.mpr ⟨⟨cut, hreply.symm⟩, hfiles⟩

/-- A new segment, unless a file has its name.
SOURCE: crates/wal/src/segment.rs:41-51 -/
theorem ends_create (d : Disk) (first limit : ℕ) :
    Ends (Segment.create first limit) d
      (fun segment d' => segment = ⟨first, 0, limit, false⟩ ∧
        d.files.contains first = false ∧ d.replies.headD .done = .done ∧
        d'.replies = d.replies.tail ∧ d'.files = d.files.insert first ⟨[], []⟩)
      (fun _ d' => d.Later d' ∧ ((∃ cut, d.replies.headD .done = .refused cut) ∨
        d.files.contains first = true))
      (fun d' => d.Later d' ∧ ∃ cut, d.replies.headD .done = .crash cut) := by
  refine ends_bind.mpr (ends_bind.mpr (Ends.mono ends_nextReply (fun r d' hr => ?_)
    (fun _ _ h => h.elim) fun _ h => h.elim))
  obtain ⟨hlater, hreply, htail⟩ := hr
  cases r with
  | refused cut => exact ends_fail.mpr ⟨hlater, .inl ⟨cut, hreply.symm⟩⟩
  | crash cut => exact ends_crashing.mpr ⟨hlater, cut, hreply.symm⟩
  | done =>
    refine ends_bind.mpr (ends_get.mpr ?_)
    split
    · rename_i htaken
      rw [hlater.files] at htaken
      exact ends_fail.mpr ⟨hlater, .inr htaken⟩
    · rename_i hfresh
      rw [Bool.not_eq_true, hlater.files] at hfresh
      refine ends_set.mpr (ends_pure.mpr ⟨rfl, hfresh, hreply.symm, htail, ?_⟩)
      rw [← hlater.files]

/-- Truncating a file cuts it and then flushes it, or fails before either.
SOURCE: crates/wal/src/io.rs:95-101 -/
theorem ends_truncate_at (h : d.files[sink]? = some file) (len : ℕ) :
    Ends (truncate sink len) d
      (fun _ d' => d'.replies = d.replies.tail.tail ∧ d'.files =
        d.files.insert sink ⟨setLen file.data len, setLen file.data len⟩)
      (fun _ d' => d'.replies <:+ d.replies ∧ Faults.Refuses d ∧
        ((∃ cut, d.replies.headD .done = .refused cut) ∧ d'.files = d.files ∨
          d'.files = d.files.insert sink { file with data := setLen file.data len }))
      (fun d' => Faults.Crashes d ∧ (d'.files = d.files ∨
        d'.files = d.files.insert sink { file with data := setLen file.data len })) := by
  have htail : ∀ r, r ∈ d.replies.tail → r ∈ d.replies := fun r hr => List.mem_of_mem_tail hr
  refine ends_bind.mpr (Ends.mono (ends_update_at h _ _) (fun (_ : Unit) d1 h1 => ?_)
    (fun e d1 h1 => ?_) fun d1 h1 => ?_)
  · obtain ⟨hreplies1, hfiles1⟩ := h1
    have hheld : d1.files[sink]? = some { file with data := setLen file.data len } := by
      rw [hfiles1, ExtTreeMap.getElem?_insert_self]
    refine Ends.mono (ends_update_at hheld _ _) (fun (_ : Unit) d2 h2 => ?_) (fun e d2 h2 => ?_)
      fun d2 h2 => ?_
    · exact ⟨by rw [h2.1, hreplies1], by rw [h2.2, hfiles1, OrderedMap.insert_insert]⟩
    · obtain ⟨hreplies, ⟨cut, hcut⟩, hfiles⟩ := h2
      obtain ⟨c, hmem⟩ := refuses_of_headD hcut
      refine ⟨?_, ⟨c, htail _ (hreplies1 ▸ hmem)⟩, .inr (hfiles.trans hfiles1)⟩
      rw [hreplies, hreplies1]
      exact (List.tail_suffix _).trans (List.tail_suffix _)
    · obtain ⟨⟨cut, hcut⟩, hfiles⟩ := h2
      obtain ⟨c, hmem⟩ := crashes_of_headD hcut
      exact ⟨⟨c, htail _ (hreplies1 ▸ hmem)⟩, .inr (hfiles.trans hfiles1)⟩
  · obtain ⟨hreplies, ⟨cut, hcut⟩, hfiles⟩ := h1
    refine ⟨?_, refuses_of_headD hcut, .inl ⟨⟨cut, hcut⟩, hfiles⟩⟩
    rw [hreplies]
    exact List.tail_suffix _
  · obtain ⟨⟨cut, hcut⟩, hfiles⟩ := h1
    exact ⟨crashes_of_headD hcut, .inl hfiles⟩

/-- Reopening a segment that is there gives one that counts what was kept of it, or fails with its
file cut or not.
SOURCE: crates/wal/src/segment.rs:63-79 -/
theorem ends_reopen_at (h : d.files[sink]? = some file) (valid limit : ℕ) :
    Ends (Segment.reopen sink valid limit) d
      (fun segment d' => segment = ⟨sink, valid, limit, false⟩ ∧ d'.files =
        d.files.insert sink ⟨setLen file.data valid, setLen file.data valid⟩)
      (fun _ d' => Faults.Refuses d ∧ (d'.files = d.files ∨
        d'.files = d.files.insert sink { file with data := setLen file.data valid }))
      (fun d' => Faults.Crashes d ∧ (d'.files = d.files ∨
        d'.files = d.files.insert sink { file with data := setLen file.data valid })) := by
  refine ends_bind.mpr (Ends.mono (reads_openFile h)
    (fun (_ : Unit) d1 h1 => ?_) (fun _ d1 h1 => ⟨h1.2.resolve_right id, .inl ?_⟩)
    fun d1 h1 => ⟨h1.2.resolve_right id, .inl ?_⟩)
  · have hlater : d.Later d1 := h1.2
    rw [← hlater.files] at h ⊢
    refine ends_bind.mpr (Ends.mono (ends_truncate_at h valid)
      (fun (_ : Unit) d2 h2 => ends_pure.mpr ⟨rfl, h2.2⟩)
      (fun _ d2 h2 => ⟨Faults.refuses (σ := Disk) hlater h2.2.1, h2.2.2.imp_left (·.2)⟩)
      fun d2 h2 => ⟨Faults.crashes (σ := Disk) hlater h2.1, h2.2⟩)
  · exact Disk.Later.files h1.1
  · exact Disk.Later.files h1.1

/-! ### The last file -/

/-- Changing the last file of the directory. -/
theorem toList_of_insert {d' : Disk} {file' : File}
    (h : d.files.toList = older ++ [(sink, file)]) (h' : d'.files = d.files.insert sink file') :
    d'.files.toList = older ++ [(sink, file')] := by
  rw [h']
  exact OrderedMap.toList_overwrite h

/-- Cutting what was added takes the bytes back. -/
theorem setLen_append (data rest : Bytes) : setLen (data ++ rest) data.length = data := by
  rw [setLen, List.take_left, List.length_append, Nat.sub_eq_zero_of_le (Nat.le_add_right _ _)]
  exact List.append_nil data

theorem length_setLen (data : Bytes) (len : ℕ) : (setLen data len).length = len := by
  rw [setLen, List.length_append, List.length_take, List.length_replicate]
  omega

/-- Reopening the last segment cuts what follows its records, or leaves it there, or has cut it
and not flushed the cut. -/
theorem ends_reopen (h : d.files.toList = older ++ [(sink, file)]) {records rest : Bytes}
    (hdata : file.data = records ++ rest) (limit : ℕ) :
    Ends (Segment.reopen sink records.length limit) d
      (fun segment d' => segment = ⟨sink, records.length, limit, false⟩ ∧
        d'.files.toList = older ++ [(sink, ⟨records, records⟩)])
      (fun _ d' => Faults.Refuses d ∧ (d'.files.toList = older ++ [(sink, file)] ∨
        d'.files.toList = older ++ [(sink, { file with data := records })]))
      (fun d' => Faults.Crashes d ∧ (d'.files.toList = older ++ [(sink, file)] ∨
        d'.files.toList = older ++ [(sink, { file with data := records })])) := by
  have hends := ends_reopen_at (OrderedMap.getElem?_of_toList h) records.length limit
  rw [hdata, setLen_append] at hends
  refine Ends.mono hends (fun _ d' hok => ⟨hok.1, toList_of_insert h hok.2⟩)
    (fun _ d' herr => ⟨herr.1, herr.2.imp (fun hfiles => ?_) (toList_of_insert h)⟩)
    fun d' hdead => ⟨hdead.1, hdead.2.imp (fun hfiles => ?_) (toList_of_insert h)⟩
  · rw [hfiles, h]
  · rw [hfiles, h]

end Disk

/-! ## Appending -/

/-- What an append that failed leaves behind. -/
inductive Unappended (older : List (ℕ × File)) (file : File) (bytes : Bytes) (t t' : Target) :
    Prop where
  | rewound (poisoned : Bool) (flushed : Bytes)
    (kept : flushed = file.flushed ∨ flushed = file.data)
    (segment : t'.segment = { t.segment with poisoned })
    (files : t'.disk.files.toList = older ++ [(t.segment.sink, ⟨file.data, flushed⟩)])
  | stuck (cut second : ℕ) (first : t.disk.replies.headD .done = .refused cut)
    (next : t.disk.replies.tail.headD .done = .refused second)
    (segment : t'.segment = { t.segment with poisoned := true })
    (files : t'.disk.files.toList =
      older ++ [(t.segment.sink, { file with data := file.data ++ bytes.take cut })])
  | unflushed (second : ℕ) (first : t.disk.replies.headD .done = .done)
    (next : t.disk.replies.tail.headD .done = .refused second)
    (segment : t'.segment = { t.segment with written := t.segment.written + bytes.length })
    (files : t'.disk.files.toList =
      older ++ [(t.segment.sink, { file with data := file.data ++ bytes })])

/-- The segment and the file that an append that failed leaves behind. -/
inductive Fallen (file : File) (bytes : Bytes) (t : Target) : Segment → File → Prop where
  | rewound {cut : ℕ} {flushed : Bytes} (poisoned : Bool)
    (first : t.disk.replies.headD .done = .refused cut)
    (kept : flushed = file.flushed ∨ flushed = file.data) :
    Fallen file bytes t { t.segment with poisoned } ⟨file.data, flushed⟩
  | stuck {cut second : ℕ} (first : t.disk.replies.headD .done = .refused cut)
    (next : t.disk.replies.tail.headD .done = .refused second) :
    Fallen file bytes t { t.segment with poisoned := true }
      { file with data := file.data ++ bytes.take cut }
  | unflushed {second : ℕ} (first : t.disk.replies.headD .done = .done)
    (next : t.disk.replies.tail.headD .done = .refused second) :
    Fallen file bytes t { t.segment with written := t.segment.written + bytes.length }
      { file with data := file.data ++ bytes }

section Append

variable {t : Target} {older : List (ℕ × File)} {file : File}

/-- An append writes its bytes and flushes them, or fails in one of three ways, or stops with
a part of them written. No other file changes.
SOURCE: crates/wal/src/segment.rs:99-129 -/
theorem ends_append_at (h : t.disk.files[t.segment.sink]? = some file)
    (hwritten : t.segment.written = file.data.length) (hsound : t.segment.poisoned = false)
    (bytes : Bytes) :
    Ends (Segment.append bytes) t
      (fun _ t' => t.disk.replies.headD .done = .done ∧
        t'.segment = { t.segment with written := t.segment.written + bytes.length } ∧
        t'.disk.replies <:+ t.disk.replies ∧ t'.disk.files =
          t.disk.files.insert t.segment.sink ⟨file.data ++ bytes, file.data ++ bytes⟩)
      (fun _ t' => Faults.Refuses t.disk ∧ t'.disk.replies <:+ t.disk.replies ∧ ∃ file',
        Fallen file bytes t t'.segment file' ∧
          t'.disk.files = t.disk.files.insert t.segment.sink file')
      (fun t' => Faults.Crashes t.disk ∧ (Faults.Refuses t.disk ∨ ∃ cut,
        (t.disk.replies.headD .done = .crash cut ∨
          t.disk.replies.headD .done = .done ∧ cut = bytes.length) ∧
        t'.disk.files = t.disk.files.insert t.segment.sink
          { file with data := file.data ++ bytes.take cut }) ∧
        ∃ file', t'.disk.files = t.disk.files.insert t.segment.sink file' ∧
          file.Extends file') := by
  have htail : ∀ r, r ∈ t.disk.replies.tail → r ∈ t.disk.replies :=
    fun r hr => List.mem_of_mem_tail hr
  have hextends : ∀ rest, file.Extends { file with data := file.data ++ rest } :=
    fun rest => ⟨List.prefix_append _ _, .inl rfl⟩
  refine ends_bind.mpr (ends_get.mpr ?_)
  rw [hsound, if_neg Bool.false_ne_true]
  refine ends_bind.mpr (ends_attempt.mpr (ends_zoom.mpr ?_))
  refine Ends.mono (ends_writeAll_at h bytes) (fun (_ : Unit) d1 h1 => ?_) (fun e d1 h1 => ?_)
    fun d1 h1 => ?_
  · -- written in full: the count moves on before the flush
    obtain ⟨hdone, hreplies, hfiles1⟩ := h1
    have hheld : d1.files[t.segment.sink]? = some { file with data := file.data ++ bytes } := by
      rw [hfiles1, ExtTreeMap.getElem?_insert_self]
    refine ends_bind.mpr (ends_modify.mpr (ends_zoom.mpr ?_))
    refine Ends.mono (ends_update_at hheld _ _) (fun (_ : Unit) d2 h2 => ?_)
      (fun e d2 h2 => ?_) fun d2 h2 => ?_
    · obtain ⟨hreplies2, hfiles2⟩ := h2
      refine ⟨hdone, rfl, ?_, ?_⟩
      · rw [show d2.replies = d1.replies.tail from hreplies2, hreplies]
        exact (List.tail_suffix _).trans (List.tail_suffix _)
      · rw [show d2.files = _ from hfiles2, hfiles1, OrderedMap.insert_insert]
    · obtain ⟨hreplies2, ⟨cut, hcut⟩, hfiles2⟩ := h2
      obtain ⟨c, hmem⟩ := refuses_of_headD hcut
      rw [hreplies] at hcut hreplies2 hmem
      refine ⟨⟨c, htail _ hmem⟩, ?_, _, .unflushed hdone hcut, hfiles2.trans hfiles1⟩
      rw [hreplies2]
      exact (List.tail_suffix _).trans (List.tail_suffix _)
    · obtain ⟨⟨cut, hcut⟩, hfiles2⟩ := h2
      obtain ⟨c, hmem⟩ := crashes_of_headD hcut
      rw [hreplies] at hmem
      refine ⟨⟨c, htail _ hmem⟩, .inr ⟨bytes.length, .inr ⟨hdone, rfl⟩, ?_⟩, _,
        hfiles2.trans hfiles1, hextends _⟩
      rw [List.take_length]
      exact hfiles2.trans hfiles1
  · -- written in part: the rewind either takes it back or poisons the segment
    obtain ⟨hreplies, cut, hcut, hfiles1⟩ := h1
    have hheld : d1.files[t.segment.sink]? =
        some { file with data := file.data ++ bytes.take cut } := by
      rw [hfiles1, ExtTreeMap.getElem?_insert_self]
    refine ends_bind.mpr (ends_attempt.mpr (ends_zoom.mpr ?_))
    refine Ends.mono (ends_truncate_at hheld t.segment.written) (fun (_ : Unit) d2 h2 => ?_)
      (fun rewind d2 h2 => ?_) fun d2 h2 => ?_
    · rw [hwritten, setLen_append, hfiles1, OrderedMap.insert_insert] at h2
      refine ends_fail.mpr ⟨refuses_of_headD hcut, ?_, _,
        .rewound t.segment.poisoned hcut (.inr rfl), h2.2⟩
      rw [show d2.replies = d1.replies.tail.tail from h2.1, hreplies]
      exact ((List.tail_suffix _).trans (List.tail_suffix _)).trans (List.tail_suffix _)
    · rw [hwritten, setLen_append, hfiles1, OrderedMap.insert_insert] at h2
      obtain ⟨hsuffix, -, h2⟩ := h2
      refine ends_bind.mpr (ends_modify.mpr (ends_fail.mpr ⟨refuses_of_headD hcut, ?_, ?_⟩))
      · rw [hreplies] at hsuffix
        exact hsuffix.trans (List.tail_suffix _)
      · rcases h2 with ⟨⟨second, hsecond⟩, hfiles2⟩ | hfiles2
        · rw [hreplies] at hsecond
          exact ⟨_, .stuck hcut hsecond, hfiles2⟩
        · exact ⟨_, .rewound true hcut (.inl rfl), hfiles2⟩
    · rw [hwritten, setLen_append, hfiles1, OrderedMap.insert_insert] at h2
      obtain ⟨c, hmem⟩ := h2.1
      rw [hreplies] at hmem
      refine ⟨⟨c, htail _ hmem⟩, .inl (refuses_of_headD hcut), ?_⟩
      rcases h2.2 with hfiles2 | hfiles2
      · exact ⟨_, hfiles2, hextends _⟩
      · exact ⟨_, hfiles2, File.Extends.refl file⟩
  · obtain ⟨cut, hcut, hfiles1⟩ := h1
    exact ⟨crashes_of_headD hcut, .inr ⟨cut, .inl hcut, hfiles1⟩, _, hfiles1, hextends _⟩

/-- An append to the last segment of the directory. -/
theorem ends_append (hfiles : t.disk.files.toList = older ++ [(t.segment.sink, file)])
    (hwritten : t.segment.written = file.data.length) (hsound : t.segment.poisoned = false)
    (bytes : Bytes) :
    Ends (Segment.append bytes) t
      (fun _ t' => t'.segment = { t.segment with written := t.segment.written + bytes.length } ∧
        t'.disk.replies <:+ t.disk.replies ∧ t'.disk.files.toList =
          older ++ [(t.segment.sink, ⟨file.data ++ bytes, file.data ++ bytes⟩)])
      (fun _ t' => Faults.Refuses t.disk ∧ t'.disk.replies <:+ t.disk.replies ∧
        Unappended older file bytes t t')
      (fun t' => Faults.Crashes t.disk ∧ (Faults.Refuses t.disk ∨ ∃ cut,
        (t.disk.replies.headD .done = .crash cut ∨
          t.disk.replies.headD .done = .done ∧ cut = bytes.length) ∧
        t'.disk.files.toList =
          older ++ [(t.segment.sink, { file with data := file.data ++ bytes.take cut })]) ∧
        ∃ file', t'.disk.files.toList = older ++ [(t.segment.sink, file')] ∧
          file.Extends file') := by
  have hlast : ∀ {t' : Target} {file' : File},
      t'.disk.files = t.disk.files.insert t.segment.sink file' →
        t'.disk.files.toList = older ++ [(t.segment.sink, file')] :=
    fun h' => toList_of_insert hfiles h'
  refine Ends.mono (ends_append_at (OrderedMap.getElem?_of_toList hfiles) hwritten hsound bytes)
    (fun _ t' ⟨_, hsegment, hreplies, hfiles'⟩ => ⟨hsegment, hreplies, hlast hfiles'⟩)
    (fun _ t' ⟨hrefuses, hreplies, file', hfallen, hfiles'⟩ => ⟨hrefuses, hreplies, ?_⟩)
    fun t' ⟨hcrashes, hdead, file', hfiles', hextends⟩ => ⟨hcrashes, hdead.imp_right ?_, file',
      hlast hfiles', hextends⟩
  · generalize hsegment : t'.segment = segment at hfallen
    cases hfallen with
    | rewound poisoned first kept => exact .rewound poisoned _ kept hsegment (hlast hfiles')
    | stuck first next => exact .stuck _ _ first next hsegment (hlast hfiles')
    | unflushed first next => exact .unflushed _ first next hsegment (hlast hfiles')
  · exact fun ⟨cut, hcut, hcutFiles⟩ => ⟨cut, hcut, hlast hcutFiles⟩

end Append

end Hadar.Wal
