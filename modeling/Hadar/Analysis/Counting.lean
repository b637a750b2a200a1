import Hadar.Analysis.Shortening
import Hadar.Analysis.Booting
import Hadar.Interface.Counting

/-!
# Recovery over any directory

Where no segment's records are numbered past the end of a `u64`, both builds recover as `recover`
does. A directory without a hole is such a one, unless its last segment goes past the end, and
that segment says where the log ends: a position the store cannot be given.
-/

set_option autoImplicit false

namespace Hadar.Wal

open Hadar.Lib Hadar.Lib.Prog Hadar.Storage Hadar.Mvcc Std

variable {overflowChecks : Bool}

theorem increment_le {seen next : ℕ} (h : increment overflowChecks seen = some next) :
    next ≤ u64Max := by
  unfold increment at h
  split at h
  · obtain rfl := Option.some.inj h
    omega
  · split at h
    · cases h
    · obtain rfl := Option.some.inj h
      exact Nat.zero_le _

section Recovery

variable [Crc32]

/-! ### Within the type -/

/-- The segment loop reads the same segments, and counts their records the same. -/
theorem exec_replaySegmentsCounted (applied last : ℕ) {names : List (ℕ × ℕ)} {d : Disk}
    (h : ∀ q ∈ names, ∃ file, d.files[q.1]? = some file ∧ segmentEnd (q.1, file.data) ≤ u64Max)
    (seen : ℕ) (pending : List Mutation) (tail : Option Tail) :
    (replaySegmentsCounted overflowChecks applied last names seen pending tail).exec d =
      (replaySegments applied last names seen pending tail).exec d := by
  induction names generalizing d seen pending tail with
  | nil => rfl
  | cons q rest ih =>
    obtain ⟨first, index⟩ := q
    obtain ⟨file, hfile, hend⟩ := h _ (List.mem_cons_self ..)
    refine exec_bind_congr rfl fun bytes d1 hread => ?_
    obtain ⟨rfl, hlater⟩ := Ends.of_ok (reads_readSegment hfile) hread
    rw [replayRecordsCounted_eq overflowChecks applied _ hend]
    cases replayRecords applied (index == last) file.data first 0 pending with
    | error e => rfl
    | ok r =>
      refine ih (fun q hq => ?_) _ _ _
      rw [Disk.Later.files hlater]
      exact h q (List.mem_cons_of_mem _ hq)

/-- Where every segment's records are numbered within a `u64`, both builds recover as `recover`.
SOURCE: crates/wal/src/wal.rs:197-257 -/
theorem exec_recoverCounted {h : Host} (hends : ∀ p ∈ h.disk.segments, segmentEnd p ≤ u64Max) :
    (recoverCounted overflowChecks).exec h = recover.exec h := by
  refine exec_bind_congr rfl fun h0 h1 hget => ?_
  obtain ⟨hvalue, rfl⟩ := Prod.mk.inj hget
  obtain rfl := Except.ok.inj hvalue
  refine exec_bind_congr rfl fun segments h2 hlist => ?_
  have hends2 : Ends (Host.onDisk list) h (fun segments h' =>
      segments = h.disk.files.toList.map (·.1) ∧ h.disk.Later h'.disk)
      (fun _ _ => True) fun _ => True :=
    ends_zoom.mpr (Ends.mono reads_list (fun _ _ h => h) (fun _ _ _ => trivial)
      fun _ _ => trivial)
  obtain ⟨rfl, hlater⟩ := hends2.of_ok hlist
  refine exec_bind_congr (exec_zoom_congr ?_) fun _ _ _ => rfl
  refine exec_replaySegmentsCounted _ _ (fun q hq => ?_) 0 [] none
  obtain ⟨p, hp, hname⟩ := List.mem_map.mp (List.fst_mem_of_mem_zipIdx hq)
  refine ⟨p.2, ?_, ?_⟩
  · rw [hlater.files, ← hname]
    exact ExtTreeMap.mem_toList_iff_getElem?_eq_some.mp hp
  · rw [← hname]
    exact hends _ (List.mem_map_of_mem hp)

/-! ### Past the end of the type -/

theorem replayRecordsCounted_le (applied : ℕ) (isLast : Bool) {bytes : Bytes} {seen valid : ℕ}
    {pending : List Mutation} {r : ℕ × ℕ × List Mutation} (hseen : seen ≤ u64Max)
    (h : replayRecordsCounted overflowChecks applied isLast bytes seen valid pending =
      some (.ok r)) : r.1 ≤ u64Max := by
  induction bytes using scanned.induct generalizing seen valid pending with
  | case1 bytes m width hd ih =>
    rw [replayRecordsCounted, isEmpty_of_decode hd, if_neg Bool.false_ne_true] at h
    split at h
    · rename_i m' width' h'
      rw [hd] at h'
      cases h'
      split at h
      · cases h
      · exact ih (increment_le ‹_›) h
    · rename_i h'
      rw [hd] at h'
      cases h'
  | case2 bytes e hd =>
    rw [replayRecordsCounted] at h
    split at h
    · obtain rfl := Except.ok.inj (Option.some.inj h)
      exact hseen
    · split at h
      · rename_i h'
        rw [hd] at h'
        cases h'
      · split at h
        · obtain rfl := Except.ok.inj (Option.some.inj h)
          exact hseen
        · split at h <;> cases h

/-- Whatever the segments hold, the segment loop ends at a `u64`. -/
theorem ends_replaySegmentsCounted (applied last : ℕ) {names : List (ℕ × ℕ)} {d : Disk}
    (h : ∀ q ∈ names, q.1 ≤ u64Max) {seen : ℕ} (hseen : seen ≤ u64Max) (pending : List Mutation)
    (tail : Option Tail) :
    Ends (replaySegmentsCounted overflowChecks applied last names seen pending tail) d
      (fun r _ => r.1 ≤ u64Max) (fun _ _ => True) fun _ => True := by
  induction names generalizing d seen pending tail with
  | nil => exact hseen
  | cons q rest ih =>
    obtain ⟨first, index⟩ := q
    refine ends_bind.mpr (Ends.mono (ends_exec _ _) (fun bytes d1 _ => ?_) (fun _ _ _ => trivial)
      fun _ _ => trivial)
    split
    · trivial
    · trivial
    · rename_i hreplayed
      exact ih (fun q hq => h q (List.mem_cons_of_mem _ hq))
        (replayRecordsCounted_le _ _ (h _ (List.mem_cons_self ..)) hreplayed) _ _

/-- So recovery that returns leaves the store at a `u64`. -/
theorem applied_of_recoverCounted {h h' : Host} {tail : Option Tail} (hsized : Sized h)
    (hok : (recoverCounted overflowChecks).exec h = (.ok tail, h')) :
    h'.store.state.applied ≤ u64Max := by
  have hends : Ends (recoverCounted overflowChecks) h
      (fun _ h' => h'.store.state.applied ≤ u64Max) (fun _ _ => True) fun _ => True := by
    refine ends_bind.mpr (ends_get.mpr (ends_bind.mpr (ends_zoom.mpr ?_)))
    refine Ends.mono reads_list (fun segments d1 h1 => ?_) (fun _ _ _ => trivial)
      fun _ _ => trivial
    obtain ⟨rfl, hlater⟩ := h1
    have hnames : ∀ q ∈ (h.disk.files.toList.map (·.1)).zipIdx, q.1 ≤ u64Max := by
      intro q hq
      obtain ⟨p, hp, hname⟩ := List.mem_map.mp (List.fst_mem_of_mem_zipIdx hq)
      rw [← hname]
      exact hsized.names _ (List.mem_map_of_mem hp)
    refine ends_bind.mpr (ends_zoom.mpr ?_)
    refine Ends.mono (ends_replaySegmentsCounted _ _ hnames (Nat.zero_le _) [] none)
      (fun r d2 hseen => ?_) (fun _ _ _ => trivial) fun _ _ => trivial
    obtain ⟨seen, pending, tail⟩ := r
    dsimp only
    split
    · trivial
    · split
      · exact hsized.applied
      · refine ends_bind.mpr (ends_zoom.mpr (Ends.mono (ends_exec _ _) (fun revisions s hexec => ?_)
          (fun _ _ _ => trivial) fun _ _ => trivial))
        have hposition := (counters_of_apply hexec).2
        exact ends_pure.mpr (Nat.le_trans (Nat.le_of_eq hposition) hseen)
  exact hends.of_ok hok

/-! ### Holes -/

theorem not_holed_iff {segments : List (ℕ × Bytes)} {applied : ℕ} :
    ¬ Holed segments applied ↔
      (∀ p ∈ segments.head?, p.1 ≤ applied) ∧ Contiguous segments := by
  rw [Holed, not_or, Contiguous, List.isChain_iff_forall_rel_of_append_cons_cons]
  push Not
  exact and_congr_right fun _ => ⟨fun h p q before after hsegments => h before p q after hsegments,
    fun h before p q after hsegments => h hsegments⟩

/-- Recovery that returns has replayed the log exactly, each record past the store's position once
and in order up to the end of the log, over a directory that has no hole, if and only if each
segment begins where the one before it ends, the oldest at or below the position, and the log ends
within a `u64`.
SOURCE: crates/wal/src/wal.rs:197-257 -/
theorem recoverCounted_exact_iff {h h' : Host} {tail : Option Tail} (hsized : Sized h)
    (hok : (recoverCounted overflowChecks).exec h = (.ok tail, h')) :
    (ReplaysExactly h h' ∧ ¬ Holed h.disk.segments h.store.state.applied) ↔
      Contiguous h.disk.segments ∧
        (∀ p ∈ h.disk.segments.head?, p.1 ≤ h.store.state.applied) ∧
        logEnd h.disk.segments ≤ u64Max := by
  rw [not_holed_iff]
  constructor
  · rintro ⟨hexact, hbegins, hcontiguous⟩
    exact ⟨hcontiguous, hbegins, hexact.position ▸ applied_of_recoverCounted hsized hok⟩
  · rintro ⟨hcontiguous, hbegins, hend⟩
    have hends : ∀ p ∈ h.disk.segments, segmentEnd p ≤ u64Max := fun p hp =>
      (hcontiguous.segmentEnd_le hp).trans hend
    rw [exec_recoverCounted hends] at hok
    exact ⟨replaysExactly_of_numbers hok (hcontiguous.numbers_past hbegins), hbegins, hcontiguous⟩

/-! ### Logs that were written -/

theorem contiguous_laidOut {start : ℕ} {older : List (List Mutation)} {active : List Mutation}
    {torn : Bytes} (h : Written older active torn) : Contiguous (laidOut start older active torn) := by
  induction older generalizing start with
  | nil => exact List.IsChain.singleton _
  | cons ms rest ih =>
    obtain ⟨hms, hrest⟩ := h.tail
    rw [laidOut_cons]
    refine List.isChain_cons.mpr ⟨fun next hnext => ?_, ih hrest⟩
    rw [segmentEnd, complete_records hms]
    obtain ⟨bytes, hhead⟩ := head?_laidOut (start + ms.length) rest active torn
    rw [Option.mem_def, hhead] at hnext
    exact congrArg Prod.fst (Option.some.inj hnext)

/-- Over the directory of a log that is within a `u64`, both builds recover as `recover`. -/
theorem Resting.exec_recoverCounted {h : Host} {engine : Engine} {log : List Mutation} {start : ℕ}
    {older : List (List Mutation)} {active : List Mutation} {torn : Bytes}
    (hrest : Resting h.disk engine log start older active torn) (hlog : log.length ≤ u64Max) :
    (recoverCounted overflowChecks).exec h = recover.exec h := by
  refine Wal.exec_recoverCounted fun p hp => ?_
  have hend := hrest.logEnd
  rw [hrest.segments] at hp hend
  have hle := (contiguous_laidOut hrest.written).segmentEnd_le hp
  omega

end Recovery

/-! ## Logs of two records -/

/-- Where the second segment begins at the end of the first one nothing is missed. -/
theorem recoverCounted_exact_iff_joined :
    ∃ tail h', (@recoverCounted crc32fast true).exec (twoSegments 1) = (.ok tail, h') ∧
      @ReplaysExactly crc32fast (twoSegments 1) h' ∧
      ¬ @Holed crc32fast (twoSegments 1).disk.segments (twoSegments 1).store.state.applied := by
  have hreturns : (@recoverCounted crc32fast true).returnsFrom (twoSegments 1) = true := by
    decide +kernel
  obtain ⟨tail, hexec⟩ := exec_of_returnsFrom hreturns
  have hsized : Sized (twoSegments 1) := ⟨by decide +kernel, by decide +kernel⟩
  have hjoined : @Contiguous crc32fast (twoSegments 1).disk.segments := by
    unfold Contiguous
    decide +kernel
  have hcounted := (@recoverCounted_exact_iff _ crc32fast _ _ _ hsized hexec).mpr
    ⟨hjoined, by decide +kernel, by decide +kernel⟩
  exact ⟨tail, _, hexec, hcounted⟩

/-- With the segment between them gone recovery returns, and record 2 is never replayed. -/
theorem recoverCounted_skips_hole :
    ¬ ∀ checks h tail h', Sized h → (@recoverCounted crc32fast checks).exec h = (.ok tail, h') →
      @ReplaysExactly crc32fast h h' ∧
        ¬ @Holed crc32fast h.disk.segments h.store.state.applied := by
  intro hall
  have hreturns : (@recoverCounted crc32fast true).returnsFrom (twoSegments 2) = true := by
    decide +kernel
  obtain ⟨tail, hexec⟩ := exec_of_returnsFrom hreturns
  have hsized : Sized (twoSegments 2) := ⟨by decide +kernel, by decide +kernel⟩
  have hnumbers := @ReplaysExactly.numbers crc32fast _ _ (hall _ _ _ _ hsized hexec).1
  have hreplayed : (@unapplied crc32fast (twoSegments 2).disk.segments
      (twoSegments 2).store.state.applied).map (·.1) = [1, 3] := by decide +kernel
  have hend : @logEnd crc32fast (twoSegments 2).disk.segments = 3 := by decide +kernel
  rw [hreplayed, hend] at hnumbers
  exact absurd hnumbers (by decide)

end Hadar.Wal
