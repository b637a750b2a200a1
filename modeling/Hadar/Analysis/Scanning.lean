import Hadar.Analysis.Codec
import Hadar.Analysis.Directories
import Hadar.Interface.Log
import Hadar.Model.Counting

/-!
# Reading the log back

The record loop of `recover` goes through the complete records of a segment, and its segment
loop through the segments; between them they pick out the records the store has not applied.
So what recovery does to the store is one call of `apply` on these, and it gets that far
exactly on a log that is readable and reaches the position the store is at.
-/

set_option autoImplicit false

namespace Hadar.Wal

open Hadar.Lib Hadar.Lib.Prog Hadar.Storage Hadar.Mvcc Std

variable [Crc32]

/-! ## One segment -/

theorem decode_nil : decode [] = .error .truncated :=
  decode_error (decodeFrame_short (by decide))

theorem scanned_ok {bytes : Bytes} {m : Mutation} {width : ℕ}
    (h : decode bytes = .ok (m, width)) :
    scanned bytes = (m :: complete (bytes.drop width), leftover (bytes.drop width)) := by
  rw [scanned]
  split
  · rename_i m' width' h'
    rw [h] at h'
    cases h'
    rfl
  · rename_i e h'
    rw [h] at h'
    cases h'

theorem scanned_error {bytes : Bytes} {e : Error} (h : decode bytes = .error e) :
    scanned bytes = ([], bytes) := by
  rw [scanned]
  split
  · rename_i h'
    rw [h] at h'
    cases h'
  · rfl

/-- A segment is its complete records and what follows them. -/
theorem records_leftover (bytes : Bytes) :
    recordsOf (complete bytes) ++ leftover bytes = bytes := by
  induction bytes using scanned.induct with
  | case1 bytes m width h ih =>
    obtain ⟨-, rest, hbytes, hwidth⟩ := recordOf_of_decode h
    have hdrop : bytes.drop width = rest := by rw [hbytes, hwidth, List.drop_left]
    rw [complete, leftover, scanned_ok h, recordsOf_cons, List.append_assoc, ih, hdrop, ← hbytes]
  | case2 bytes e h => rw [complete, leftover, scanned_error h, recordsOf_nil, List.nil_append]

theorem encodable_of_mem_complete {bytes : Bytes} {m : Mutation} (hm : m ∈ complete bytes) :
    Encodable m := by
  induction bytes using scanned.induct with
  | case1 bytes m' width h ih =>
    rw [complete, scanned_ok h] at hm
    rcases List.mem_cons.mp hm with rfl | hm
    · exact (recordOf_of_decode h).1
    · exact ih hm
  | case2 bytes e h =>
    rw [complete, scanned_error h] at hm
    cases hm

/-- Records end to end are read as they are, and then what follows them. -/
theorem scanned_records {mutations : List Mutation} (h : ∀ m ∈ mutations, Encodable m)
    (rest : Bytes) :
    scanned (recordsOf mutations ++ rest) = (mutations ++ complete rest, leftover rest) := by
  induction mutations with
  | nil => rfl
  | cons m ms ih =>
    have hm : decode (recordOf m ++ (recordsOf ms ++ rest)) = .ok (m, (recordOf m).length) :=
      decode_recordOf (h m (List.mem_cons_self ..)) _
    have hms := ih fun x hx => h x (List.mem_cons_of_mem _ hx)
    rw [recordsOf_cons, List.append_assoc, scanned_ok hm, List.drop_left, complete, leftover, hms,
      List.cons_append]

theorem isEmpty_of_decode {bytes : Bytes} {m : Mutation} {width : ℕ}
    (h : decode bytes = .ok (m, width)) : bytes.isEmpty = false := by
  cases bytes with
  | nil => rw [decode_nil] at h; cases h
  | cons => rfl

theorem replayRecords_cons {bytes : Bytes} {m : Mutation} {width : ℕ}
    (h : decode bytes = .ok (m, width)) (applied : ℕ) (isLast : Bool) (seen valid : ℕ)
    (pending : List Mutation) :
    replayRecords applied isLast bytes seen valid pending =
      replayRecords applied isLast (bytes.drop width) (seen + 1) (valid + width)
        (if seen + 1 > applied then pending ++ [m] else pending) := by
  rw [replayRecords, isEmpty_of_decode h, if_neg Bool.false_ne_true]
  split
  · rename_i m' width' h'
    rw [h] at h'
    cases h'
    rfl
  · rename_i h'
    rw [h] at h'
    cases h'

/-- What is no record ends the loop.
SOURCE: crates/wal/src/wal.rs:227-237 -/
theorem replayRecords_stop {bytes : Bytes} {e : Error} (h : decode bytes = .error e)
    (hne : ¬ bytes.isEmpty = true) (applied : ℕ) (isLast : Bool) (seen valid : ℕ)
    (pending : List Mutation) :
    replayRecords applied isLast bytes seen valid pending =
      if e.isTruncated && isLast then .ok (seen, valid, pending)
      else if e.isTruncated then .error (.corrupt "a sealed segment ends mid-record")
      else .error e := by
  rw [replayRecords, if_neg hne]
  split
  · rename_i h'
    rw [h] at h'
    cases h'
  · rename_i e' h'
    rw [h] at h'
    cases h'
    rfl

omit [Crc32] in
theorem drop_step {α : Type} (a seen : ℕ) (x : α) (xs : List α) :
    (if seen + 1 > a then [x] else []) ++ xs.drop (a - (seen + 1)) = (x :: xs).drop (a - seen) := by
  by_cases h : seen + 1 > a
  · rw [if_pos h, show a - (seen + 1) = 0 by omega, show a - seen = 0 by omega]
    rfl
  · rw [if_neg h, show a - seen = (a - (seen + 1)) + 1 by omega]
    rfl

/-- The record loop picks out the records past the applied position.
SOURCE: crates/wal/src/wal.rs:212-239 -/
theorem replayRecords_ok (applied : ℕ) {isLast : Bool} {bytes : Bytes}
    (h : leftover bytes = [] ∨ isLast = true ∧ decode (leftover bytes) = .error .truncated)
    (seen valid : ℕ) (pending : List Mutation) :
    replayRecords applied isLast bytes seen valid pending =
      .ok (seen + (complete bytes).length, valid + (recordsOf (complete bytes)).length,
        pending ++ (complete bytes).drop (applied - seen)) := by
  induction bytes using scanned.induct generalizing seen valid pending with
  | case1 bytes m width hd ih =>
    have hleft : leftover bytes = leftover (bytes.drop width) := by rw [leftover, scanned_ok hd]
    have hall : complete bytes = m :: complete (bytes.drop width) := by
      rw [complete, scanned_ok hd]
    obtain ⟨-, rest, -, hwidth⟩ := recordOf_of_decode hd
    rw [hleft] at h
    rw [replayRecords_cons hd, ih h, hall, ← drop_step, ← List.append_assoc, recordsOf_cons,
      List.length_cons, List.length_append, ← hwidth]
    have hpending : (if seen + 1 > applied then pending ++ [m] else pending) =
        pending ++ if seen + 1 > applied then [m] else [] := by split <;> simp
    rw [hpending, show seen + 1 + (complete (bytes.drop width)).length =
      seen + ((complete (bytes.drop width)).length + 1) by omega, Nat.add_assoc valid]
  | case2 bytes e hd =>
    have hnone : complete bytes = [] := by rw [complete, scanned_error hd]
    have hleft : leftover bytes = bytes := by rw [leftover, scanned_error hd]
    rw [hleft] at h
    rw [hnone]
    by_cases hempty : bytes.isEmpty = true
    · rw [replayRecords, if_pos hempty]
      simp
    · obtain ⟨hlast, htorn⟩ := h.resolve_left fun hnil => hempty (by rw [hnil]; rfl)
      rw [replayRecords_stop htorn hempty, hlast]
      simp [Error.isTruncated]

/-- The record loop fails on anything else, and says that the log is corrupt. -/
theorem replayRecords_error (applied : ℕ) {isLast : Bool} {bytes : Bytes}
    (h : ¬ (leftover bytes = [] ∨
      isLast = true ∧ decode (leftover bytes) = .error .truncated))
    (seen valid : ℕ) (pending : List Mutation) :
    ∃ e, replayRecords applied isLast bytes seen valid pending = .error e ∧
      e.isCorrupt = true := by
  induction bytes using scanned.induct generalizing seen valid pending with
  | case1 bytes m width hd ih =>
    have hleft : leftover bytes = leftover (bytes.drop width) := by rw [leftover, scanned_ok hd]
    rw [hleft] at h
    rw [replayRecords_cons hd]
    exact ih h _ _ _
  | case2 bytes e hd =>
    have hleft : leftover bytes = bytes := by rw [leftover, scanned_error hd]
    rw [hleft] at h
    obtain ⟨hne, hlast⟩ := not_or.mp h
    rw [replayRecords_stop hd (by simpa using hne)]
    rcases decode_error_kind hd with rfl | hcorrupt
    · have hsealed : isLast ≠ true := fun hl => hlast ⟨hl, hd⟩
      rw [if_neg (by simpa [Error.isTruncated] using hsealed),
        if_pos (show Error.truncated.isTruncated = true from rfl)]
      exact ⟨_, rfl, rfl⟩
    · have hwhole : e.isTruncated = false := by
        cases e <;> first | rfl | cases hcorrupt
      rw [hwhole, Bool.false_and, if_neg Bool.false_ne_true, if_neg Bool.false_ne_true]
      exact ⟨_, rfl, hcorrupt⟩

omit [Crc32] in
theorem increment_of_lt {overflowChecks : Bool} {seen : ℕ} (h : seen < u64Max) :
    increment overflowChecks seen = some (seen + 1) := if_pos h

/-- Where the records of a segment are numbered within a `u64`, the record loop counts them as if
there were no end to it. -/
theorem replayRecordsCounted_eq (overflowChecks : Bool) (applied : ℕ) (isLast : Bool)
    {bytes : Bytes} {seen : ℕ} (h : seen + (complete bytes).length ≤ u64Max) (valid : ℕ)
    (pending : List Mutation) :
    replayRecordsCounted overflowChecks applied isLast bytes seen valid pending =
      some (replayRecords applied isLast bytes seen valid pending) := by
  induction bytes using scanned.induct generalizing seen valid pending with
  | case1 bytes m width hd ih =>
    have hall : complete bytes = m :: complete (bytes.drop width) := by
      rw [complete, scanned_ok hd]
    rw [hall, List.length_cons] at h
    rw [replayRecords_cons hd, replayRecordsCounted, isEmpty_of_decode hd,
      if_neg Bool.false_ne_true]
    split
    · rename_i m' width' h'
      rw [hd] at h'
      cases h'
      rw [increment_of_lt (by omega)]
      exact ih (by omega) _ _
    · rename_i h'
      rw [hd] at h'
      cases h'
  | case2 bytes e hd =>
    by_cases hempty : bytes.isEmpty = true
    · rw [replayRecordsCounted, replayRecords, if_pos hempty, if_pos hempty]
    · rw [replayRecords_stop hd hempty, replayRecordsCounted, if_neg hempty]
      split
      · rename_i h'
        rw [hd] at h'
        cases h'
      · rename_i e' h'
        rw [hd] at h'
        cases h'
        split
        · rfl
        · split <;> rfl

/-! ## The segments -/

/-- The records of a log past a position, in the order recovery meets them. -/
def past (applied : ℕ) (segments : List (ℕ × Bytes)) : List Mutation :=
  segments.flatMap fun p => (complete p.2).drop (applied - p.1)

/-- Where recovery finds that the log ends. -/
def tailOf (segments : List (ℕ × Bytes)) : Option Tail :=
  segments.getLast?.map fun p => ⟨p.1, (recordsOf (complete p.2)).length⟩

theorem past_cons (applied : ℕ) (p : ℕ × Bytes) (rest : List (ℕ × Bytes)) :
    past applied (p :: rest) = (complete p.2).drop (applied - p.1) ++ past applied rest := rfl

/-- The segment loop collects the records past the applied position and ends where the log
does, if every segment is readable.
SOURCE: crates/wal/src/wal.rs:205-242 -/
theorem reads_replaySegments (applied last : ℕ) {p : ℕ × Bytes} {rest : List (ℕ × Bytes)}
    {index : ℕ} (hlast : index + rest.length = last) {d : Disk}
    (hfiles : ∀ q ∈ p :: rest, ∃ file, d.files[q.1]? = some file ∧ file.data = q.2)
    (seen : ℕ) (pending : List Mutation) (tail : Option Tail) :
    Reads (¬ Readable (p :: rest)) False
      (replaySegments applied last (((p :: rest).map (·.1)).zipIdx index) seen pending tail) d
      fun r => Readable (p :: rest) ∧
        r = (logEnd (p :: rest), pending ++ past applied (p :: rest), tailOf (p :: rest)) := by
  induction rest generalizing p index d seen pending tail with
  | nil =>
    obtain ⟨first, bytes⟩ := p
    obtain ⟨file, hfile, rfl⟩ := hfiles _ (List.mem_cons_self ..)
    have hindex : (index == last) = true := by simpa using hlast
    rw [List.map_cons, List.zipIdx_cons, replaySegments]
    refine Reads.bind ((reads_readSegment hfile).mono (fun _ h => h) False.elim id)
      fun bytes d1 hbytes h1 => ?_
    rw [hbytes, hindex]
    by_cases hend : decode (leftover file.data) = .error .truncated
    · rw [replayRecords_ok applied (.inr ⟨rfl, hend⟩)]
      refine Reads.pure ⟨hend, ?_⟩
      simp [logEnd, past, tailOf]
    · have hbad : ¬ (leftover file.data = [] ∨
          true = true ∧ decode (leftover file.data) = .error .truncated) := by
        rintro (hnil | ⟨-, htorn⟩)
        · exact hend (by rw [hnil, decode_nil])
        · exact hend htorn
      obtain ⟨e, he, -⟩ := replayRecords_error applied hbad first 0 pending
      rw [he]
      exact Reads.fail hend
  | cons q rest ih =>
    obtain ⟨first, bytes⟩ := p
    obtain ⟨file, hfile, rfl⟩ := hfiles _ (List.mem_cons_self ..)
    have hindex : (index == last) = false := by
      rw [List.length_cons] at hlast
      simp only [beq_eq_false_iff_ne]
      omega
    rw [List.map_cons, List.zipIdx_cons, replaySegments]
    refine Reads.bind ((reads_readSegment hfile).mono (fun _ h => h) False.elim id)
      fun bytes d1 hbytes h1 => ?_
    rw [hbytes, hindex]
    by_cases hend : leftover file.data = []
    · rw [replayRecords_ok applied (.inl hend)]
      dsimp only
      have hlast' : index + 1 + rest.length = last := by
        rw [List.length_cons] at hlast
        omega
      have hfiles' : ∀ r ∈ q :: rest, ∃ file, d1.files[r.1]? = some file ∧ file.data = r.2 :=
        fun r hr => by
          rw [Disk.Later.files h1]
          exact hfiles r (List.mem_cons_of_mem _ hr)
      refine Reads.mono (ih hlast' hfiles' _ _ _) (fun r hr => ⟨⟨hend, hr.1⟩, ?_⟩)
        (fun h hread => h hread.2) id
      rw [hr.2, past_cons applied (first, file.data), List.append_assoc, logEnd, logEnd, tailOf,
        tailOf, List.getLast?_cons_cons]
    · have hbad : ¬ (leftover file.data = [] ∨
          false = true ∧ decode (leftover file.data) = .error .truncated) := by
        rintro (hnil | ⟨hfalse, -⟩)
        · exact hend hnil
        · cases hfalse
      obtain ⟨e, he, -⟩ := replayRecords_error applied hbad first 0 pending
      rw [he]
      exact Reads.fail fun hread => hend hread.1

/-- The segments of a directory are read one by one, whatever was called before. -/
theorem reads_segments (applied : ℕ) {d d' : Disk} (hlater : d.Later d') :
    Reads (¬ Readable d.segments) False
      (replaySegments applied ((d.segments.map (·.1)).length - 1) (d.segments.map (·.1)).zipIdx 0
        [] none) d'
      fun r => Readable d.segments ∧
        r = (logEnd d.segments, past applied d.segments, tailOf d.segments) := by
  have hfiles : ∀ q ∈ d.segments, ∃ file, d'.files[q.1]? = some file ∧ file.data = q.2 := by
    intro q hq
    obtain ⟨⟨first, file⟩, hmem, rfl⟩ := List.mem_map.mp hq
    refine ⟨file, ?_, rfl⟩
    rw [hlater.files]
    exact ExtTreeMap.mem_toList_iff_getElem?_eq_some.mp hmem
  cases hsegments : d.segments with
  | nil => exact Reads.pure ⟨trivial, rfl⟩
  | cons p rest =>
    rw [hsegments] at hfiles
    exact Reads.mono (reads_replaySegments applied _ (by simp) hfiles 0 [] none)
      (fun _ h => h) id id

/-- `recover` reads the log and applies the records past the store's position at once, if the
log is readable and reaches that position; otherwise it fails and changes nothing.
SOURCE: crates/wal/src/wal.rs:197-257 -/
theorem ends_recover {h : Host} {ok : Option Tail → Host → Prop} {err : Error → Host → Prop}
    {dead : Host → Prop} {segments : List (ℕ × Bytes)} {applied : ℕ}
    (hsegments : h.disk.segments = segments) (happlied : h.store.state.applied = applied)
    (hrefuse : ∀ e d', h.disk.Later d' →
      Faults.Refuses h.disk ∨ ¬ (Readable segments ∧ applied ≤ logEnd segments) →
      err e { h with disk := d' })
    (hstop : ∀ d', h.disk.Later d' → Faults.Crashes h.disk → dead { h with disk := d' })
    (hskip : ∀ d', h.disk.Later d' → Readable segments → applied ≤ logEnd segments →
      past applied segments = [] → ok (tailOf segments) { h with disk := d' })
    (hreplay : ∀ d', h.disk.Later d' → Readable segments → applied ≤ logEnd segments →
      past applied segments ≠ [] →
      Ends (Mvcc.apply (past applied segments) (logEnd segments)) h.store
        (fun _ s => ok (tailOf segments) ⟨d', s⟩)
        (fun e s => err (.apply e.display) ⟨d', s⟩) fun s => dead ⟨d', s⟩) :
    Ends recover h ok err dead := by
  subst hsegments happlied
  obtain ⟨disk, store⟩ := h
  refine ends_bind.mpr (ends_get.mpr (ends_bind.mpr (ends_zoom.mpr ?_)))
  refine Ends.mono reads_list (fun segments d1 h1 => ?_)
    (fun e d1 h1 => hrefuse e d1 h1.1 (.inl (h1.2.resolve_right id)))
    fun d1 h1 => hstop d1 h1.1 (h1.2.resolve_right id)
  obtain ⟨hlist, hlater1⟩ := h1
  have hnames : segments = disk.segments.map (·.1) := by
    rw [hlist, Disk.segments, List.map_map]
    rfl
  subst hnames
  refine ends_bind.mpr (ends_zoom.mpr ?_)
  refine Ends.mono (reads_segments store.state.applied hlater1) (fun r d2 h2 => ?_)
    (fun e d2 h2 => ?_) fun d2 h2 => ?_
  · obtain ⟨⟨hreadable, rfl⟩, hlater2⟩ := h2
    have hlater : disk.Later d2 := Disk.Later.trans hlater1 hlater2
    dsimp only
    by_cases hreach : logEnd disk.segments < store.state.applied
    · rw [if_pos hreach]
      exact ends_fail.mpr (hrefuse _ d2 hlater (.inr fun hok => Nat.not_le_of_lt hreach hok.2))
    · rw [if_neg hreach]
      have hle : store.state.applied ≤ logEnd disk.segments := by omega
      by_cases hnone : past store.state.applied disk.segments = []
      · rw [hnone]
        exact ends_pure.mpr (hskip d2 hlater hreadable hle hnone)
      · rw [if_neg (by simpa using hnone)]
        refine ends_bind.mpr (ends_zoom.mpr ?_)
        exact Ends.mono (hreplay d2 hlater hreadable hle hnone) (fun _ _ h => h) (fun _ _ h => h)
          fun _ h => h
  · have hlater : disk.Later d2 := Disk.Later.trans hlater1 h2.1
    refine hrefuse e d2 hlater (h2.2.imp (Faults.refuses (σ := Disk) hlater1) ?_)
    exact fun hbad hok => hbad hok.1
  · have hlater : disk.Later d2 := Disk.Later.trans hlater1 h2.1
    exact hstop d2 hlater (Faults.crashes (σ := Disk) hlater1 (h2.2.resolve_right id))

/-- Where every operation and every call succeeds, recovery fails exactly on a log that is not
readable or does not reach the store's position. -/
theorem recover_error_iff {h : Host} (hdisk : h.disk.replies = [])
    (hengine : h.store.engine.replies = []) :
    (∃ e h', recover.exec h = (.error (.error e), h')) ↔
      ¬ (Readable h.disk.segments ∧ h.store.state.applied ≤ logEnd h.disk.segments) := by
  have hends : Ends recover h
      (fun _ _ => Readable h.disk.segments ∧ h.store.state.applied ≤ logEnd h.disk.segments)
      (fun _ _ => ¬ (Readable h.disk.segments ∧
        h.store.state.applied ≤ logEnd h.disk.segments))
      fun _ => Readable h.disk.segments ∧
        h.store.state.applied ≤ logEnd h.disk.segments := by
    refine ends_recover rfl rfl
      (fun _ _ _ hbad => hbad.resolve_left (Disk.calm hdisk).1)
      (fun _ _ hcrash => absurd hcrash (Disk.calm hdisk).2)
      (fun _ _ hreadable hle _ => ⟨hreadable, hle⟩) fun _ _ hreadable hle _ => ?_
    refine Ends.mono (ends_apply_any _ _) (fun _ _ _ => ⟨hreadable, hle⟩)
      (fun _ _ hfails => ?_) fun _ _ => ⟨hreadable, hle⟩
    exact absurd (hfails.2.resolve_right id) (Engine.calm hengine).1
  cases hexec : recover.exec h with
  | mk outcome h' =>
    cases outcome with
    | ok tail =>
      have hok := hends.of_ok hexec
      constructor
      · rintro ⟨e, _, h⟩; cases h
      · exact fun hbad => absurd hok hbad
    | error stop =>
      cases stop with
      | error e =>
        have hbad := hends.of_error hexec
        exact ⟨fun _ => hbad, fun _ => ⟨e, h', rfl⟩⟩
      | panic =>
        have hok := hends.of_dead hexec (.inl rfl)
        constructor
        · rintro ⟨e, _, h⟩; cases h
        · exact fun hbad => absurd hok hbad
      | crash =>
        have hok := hends.of_dead hexec (.inr rfl)
        constructor
        · rintro ⟨e, _, h⟩; cases h
        · exact fun hbad => absurd hok hbad

end Hadar.Wal
