import Hadar.Analysis.Lives
import Hadar.Interface.Backlog

/-!
# The bytes left to replay

A checkpoint that succeeds leaves the active segment alone, which is short of its limit or has
had one batch added to it since it was. Until the next one the directory grows by what the writer
counts, and the writer counts from nothing again after a restart. So the bound holds of every
life that begins with little enough in the directory.
-/

set_option autoImplicit false

namespace Hadar.Wal

open Hadar.Lib Hadar.Lib.Prog Hadar.Storage Hadar.Mvcc Std

section Backlog

variable [Crc32] {options : Options} {largest : ℕ} {w w' : Writer} {log : List Mutation}
  {start : ℕ} {older : List (List Mutation)} {active : List Mutation} {torn : Bytes}

/-! ## Sizes -/

theorem bytes_laidOut (start : ℕ) (older : List (List Mutation)) (active : List Mutation)
    (torn : Bytes) : ((laidOut start older active torn).map fun p => p.2.length).sum =
      (recordsOf (older.flatten ++ active)).length + torn.length := by
  induction older generalizing start with
  | nil => simp [laidOut, sealedFrom]
  | cons ms rest ih =>
    rw [laidOut_cons, List.map_cons, List.sum_cons, ih, List.flatten_cons, List.append_assoc,
      recordsOf_append ms, List.length_append, Nat.add_assoc]

/-- The files hold the records of the log from the oldest segment on. -/
theorem Follows.bytes (h : Follows w log start older active []) :
    w.host.disk.bytes = (recordsOf (log.drop start)).length := by
  rw [Disk.bytes, h.placed.segments, bytes_laidOut, h.holds]
  rfl

/-! ## What a turn leaves -/

/-- The active segment was short of its limit before its last batch, and the files hold no more
than one such segment and what was appended since the last checkpoint. -/
structure Light (options : Options) (largest : ℕ) (w : Writer) : Prop where
  steady : ∃ log, Steady w log
  limit : w.segment.limit = options.segmentLimit
  active : w.segment.written < options.segmentLimit + largest
  total : w.host.disk.bytes ≤ options.segmentLimit + largest + w.appended

theorem Light.given (h : Light options largest w) : Light options largest (w.given [] []) := by
  obtain ⟨log, hsteady⟩ := h.steady
  exact ⟨⟨log, hsteady.given [] []⟩, h.limit, h.active, h.total⟩

/-- A batch adds to the files what it adds to the count. -/
theorem Light.ends_retire (h : Light options largest w) (hcalm : w.Calm)
    (hpos : 1 ≤ options.segmentLimit) {batch : List Request} (hsmall : AtMost largest batch) :
    Ends (retire batch) w (fun _ w' => Light options largest w' ∧ w'.Calm)
      (fun _ w' => Light options largest w' ∧ w'.Calm) fun _ => True := by
  obtain ⟨log, hsteady⟩ := h.steady
  have hdisk := (Disk.calm hcalm.1).1
  have haccepting : Accepting w batch := by
    intro _ _ e applied hmem
    rw [hcalm.2, List.take_nil] at hmem
    cases hmem
  have hkept := hsteady.ends_retire hdisk haccepting
  obtain ⟨start, older, active, hfollows, hsound, hflushed⟩ := hsteady
  refine Ends.mono (hkept.and (hfollows.ends_retire batch)) (fun revisions w' hw' => ?_)
    (fun _ w' hw' => ?_) fun _ _ => trivial
  · obtain ⟨⟨-, hsteady'⟩, hretired⟩ := hw'
    obtain ⟨older', active', hfollows'⟩ := hretired.follows
    have hlength : (recordsOf (mutationsOf batch)).length ≤ largest :=
      hsmall _ (encodeBatch_eq hretired.encodable [])
    have hbytes : w'.host.disk.bytes = w.host.disk.bytes +
        (recordsOf (mutationsOf batch)).length := by
      rw [hfollows'.bytes, hfollows.bytes, List.drop_append_of_le_length hfollows.start_le,
        recordsOf_append, List.length_append]
    refine ⟨⟨⟨_, hsteady'⟩, hretired.limit.trans h.limit, ?_, ?_⟩,
      List.suffix_nil.mp (hcalm.1 ▸ hretired.replies),
      List.suffix_nil.mp (hcalm.2 ▸ hretired.calls)⟩
    · rw [hretired.written]
      cases hfull : w.segment.isFull with
      | true =>
        rw [if_pos rfl]
        omega
      | false =>
        have hroom := of_decide_eq_false hfull
        have hlimit := h.limit
        rw [if_neg Bool.false_ne_true]
        omega
    · have htotal := h.total
      rw [hbytes, hretired.appended]
      omega
  · obtain ⟨hsteady', hunretired⟩ := hw'
    cases hunretired with
    | unchanged d same later why =>
      subst same
      refine ⟨⟨⟨log, hsteady'⟩, h.limit, h.active, ?_⟩,
        List.suffix_nil.mp (hcalm.1 ▸ later.replies), hcalm.2⟩
      show Disk.bytes d ≤ _
      rw [Disk.bytes, Disk.segments, later.files]
      exact h.total
    | unappended appends refused follows => exact absurd refused hdisk
    | unapplied appends refused denied follows sound flushed =>
      exact absurd refused (Engine.calm hcalm.2).1

/-- A checkpoint leaves the active segment, and the count begins again. -/
theorem Light.ends_checkpoint (h : Light options largest w) (hcalm : w.Calm) :
    Ends (Writer.onHost compact) w (fun _ w' => Light options largest { w' with appended := 0 })
      (fun _ _ => False) fun _ => True := by
  obtain ⟨log, hsteady⟩ := h.steady
  have hkept := hsteady.ends_checkpoint
  obtain ⟨start, older, active, hfollows, hsound, hflushed⟩ := hsteady
  refine Ends.mono (hkept.and hfollows.ends_checkpoint) (fun _ w' hw' => ?_) (fun _ w' hw' => ?_)
    fun _ _ => trivial
  · obtain ⟨⟨hsteady', hsegment⟩, -, hsegments⟩ := hw'
    have hactive : w.segment.written < options.segmentLimit + largest := h.active
    refine ⟨⟨log, hsteady'.counting 0⟩, ?_, ?_, ?_⟩
    · rw [← h.limit, ← hsegment]
    · rw [hsegment]
      exact hactive
    · show Disk.bytes w'.host.disk ≤ _
      rw [hfollows.placed.count] at hactive
      rw [Disk.bytes, hsegments, List.map_singleton, List.sum_singleton, List.append_nil]
      exact Nat.le_of_lt hactive
  · exact hw'.2.2.elim (Disk.calm hcalm.1).1 (Engine.calm hcalm.2).1

/-! ## Restarts -/

/-- A restart opens the active segment with the limit it is given, and counts from nothing.
SOURCE: crates/wal/src/wal.rs:113-139 -/
theorem ends_boot_segment (m : Disk × Engine) :
    Ends (boot options) m
      (fun w _ => (∃ first written, w.segment = ⟨first, written, options.segmentLimit, false⟩) ∧
        w.appended = 0) (fun _ _ => True) fun _ => True := by
  have hany : ∀ {σ α ε : Type} {p : Prog σ ε α} {s : σ}, Ends p s (fun _ _ => True)
      (fun _ _ => True) fun _ => True := fun {_ _ _ p s} =>
    Ends.mono (ends_exec p s) (fun _ _ _ => trivial) (fun _ _ _ => trivial) fun _ _ => trivial
  refine ends_bind.mpr (Ends.mono hany (fun state m' _ => ?_) (fun _ _ h => h) fun _ h => h)
  have hopen : ∀ h : Host, Ends (openWith options) h
      (fun segment _ => ∃ first written, segment = ⟨first, written, options.segmentLimit, false⟩)
      (fun _ _ => True) fun _ => True := by
    intro h
    refine ends_bind.mpr (Ends.mono hany (fun _ h1 _ => ?_) (fun _ _ h => h) fun _ h => h)
    refine ends_bind.mpr (Ends.mono hany (fun tail h2 _ => ?_) (fun _ _ h => h) fun _ h => h)
    cases tail with
    | none =>
      refine ends_zoom.mpr (ends_bind.mpr (Ends.mono hany (fun _ _ _ => ?_) (fun _ _ h => h)
        fun _ h => h))
      exact ends_pure.mpr ⟨0, 0, rfl⟩
    | some tail =>
      refine ends_zoom.mpr (ends_bind.mpr (Ends.mono hany (fun _ _ _ => ?_) (fun _ _ h => h)
        fun _ h => h))
      refine ends_bind.mpr (Ends.mono hany (fun _ _ _ => ?_) (fun _ _ h => h) fun _ h => h)
      exact ends_pure.mpr ⟨tail.first, tail.valid, rfl⟩
  refine ends_zoom.mpr (ends_bind.mpr (Ends.mono (hopen _) (fun segment _ hsegment => ?_)
    (fun _ _ h => h) fun _ h => h))
  exact ends_bind.mpr (ends_get.mpr (ends_pure.mpr ⟨hsegment, rfl⟩))

theorem ends_boot_count (m : Disk × Engine) :
    Ends (boot options) m
      (fun w _ => w.segment.limit = options.segmentLimit ∧ w.appended = 0) (fun _ _ => True)
      fun _ => True :=
  Ends.mono (ends_boot_segment m)
    (fun _ _ ⟨⟨_, _, hsegment⟩, happended⟩ => ⟨by rw [hsegment], happended⟩)
    (fun _ _ h => h) fun _ h => h

/-- The first writer begins in an empty directory. -/
theorem light_opened {m : Disk × Engine} (hpos : 1 ≤ options.segmentLimit)
    (hran : (boot options).exec (Disk.empty, Engine.empty) = (.ok w, m)) :
    Light options largest w ∧ w.appended = 0 := by
  obtain ⟨hlimit, happended⟩ := (ends_boot_count _).of_ok hran
  obtain ⟨start, older, active, hfollows, hsound, hflushed⟩ :=
    (dormant_empty.ends_boot options).of_ok hran
  have hnil : older.flatten ++ active = [] := by rw [← hfollows.holds, List.drop_nil]
  have hactive := (List.append_eq_nil_iff.mp hnil).2
  refine ⟨⟨⟨_, start, older, active, hfollows, hsound, hflushed⟩, hlimit, ?_, ?_⟩, happended⟩
  · rw [hfollows.placed.count, hactive, recordsOf_nil, List.length_nil]
    omega
  · rw [hfollows.bytes, List.drop_nil, recordsOf_nil, List.length_nil]
    exact Nat.zero_le _

/-- A later one goes on where the directory ends. -/
theorem Light.restarted (h : Light options largest w) {engine : Engine} {m : Disk × Engine}
    (hsize : w.host.disk.bytes ≤ options.segmentLimit + largest)
    (hengine : EngineCrashed w.host.store.engine engine)
    (hran : (boot options).exec ({ w.host.disk with replies := [] },
      { engine with replies := [] }) = (.ok w', m)) :
    Light options largest w' ∧ w'.appended = 0 := by
  obtain ⟨hlimit, happended⟩ := (ends_boot_count _).of_ok hran
  obtain ⟨log, start, older, active, hfollows, hsound, hflushed⟩ := h.steady
  have hcrashed := hfollows.resting.crashed hengine
  have hrests : Resting { w.host.disk with replies := [] } { engine with replies := [] } log start
      older active [] :=
    ⟨hcrashed.segments, hcrashed.written, hcrashed.start_le, hcrashed.holds, hcrashed.encodable,
      hcrashed.backed, hcrashed.durable⟩
  obtain ⟨hfollows', hsound', hflushed'⟩ := (hrests.ends_boot options).of_ok hran
  refine ⟨⟨⟨log, start, older, active, hfollows', hsound', hflushed' hflushed⟩, hlimit, ?_, ?_⟩,
    happended⟩
  · rw [hfollows'.placed.count, ← hfollows.placed.count]
    exact h.active
  · rw [hfollows'.bytes, ← hfollows.bytes, happended]
    exact hsize

/-- Where every restart finds no more than a segment and a batch in the directory, an idle writer
has counted less than the interval. -/
theorem Service.light (hpos : 1 ≤ options.segmentLimit) (hinterval : 1 ≤ options.checkpointInterval)
    (h : Service options largest (fun d => d.bytes ≤ options.segmentLimit + largest) w) :
    Light options largest w ∧ w.appended < options.checkpointInterval := by
  induction h with
  | opened ran =>
    obtain ⟨hlight, happended⟩ := light_opened hpos ran
    exact ⟨hlight, by omega⟩
  | restarted before permitted inEngine ran ih =>
    obtain ⟨hlight, happended⟩ := ih.1.restarted permitted inEngine ran
    exact ⟨hlight, by omega⟩
  | @turned w w' batch requested answers before small ran ih =>
    let after (_ : List (Except Error (List Revision))) (w' : Writer) : Prop :=
      Light options largest w' ∧ w'.Calm
    let idle (_ : List (Except Error (List Revision))) (w' : Writer) : Prop :=
      Light options largest w' ∧ w'.appended < options.checkpointInterval
    have hgiven := ih.1.given
    have hends := @ends_turn (w.given [] []) batch _ options.checkpointInterval requested after idle
      (fun _ => True) (fun _ => ⟨hgiven, rfl, rfl⟩) (fun _ => ?_) (fun _ w'' hw'' => ?_)
      fun _ _ hw'' hlt => ⟨hw''.1, hlt⟩
    · exact hends.of_ok ran
    · exact Ends.mono (hgiven.ends_retire ⟨rfl, rfl⟩ hpos small) (fun _ _ h => h) (fun _ _ h => h)
        fun _ h => h
    · refine Ends.mono (hw''.1.ends_checkpoint hw''.2) (fun _ w3 hw3 => ⟨hw3, ?_⟩)
        (fun _ _ h => h.elim) fun _ h => h
      exact hinterval

/-- The log to replay stays bounded while restarts find little: wherever every restart finds no
more than one segment and one batch in the directory, an idle writer's segment files hold fewer
bytes than a checkpoint interval, a segment and a batch together.
SOURCE: crates/wal/src/writer.rs:126-172, crates/wal/src/wal.rs:265-285 -/
theorem service_bounded (hpos : 1 ≤ options.segmentLimit)
    (hinterval : 1 ≤ options.checkpointInterval)
    (h : Service options largest (fun d => d.bytes ≤ options.segmentLimit + largest) w) :
    w.host.disk.bytes < options.checkpointInterval + options.segmentLimit + largest := by
  obtain ⟨hlight, happended⟩ := h.light hpos hinterval
  have htotal := hlight.total
  omega

end Backlog

/-! ## A put between restarts -/

/-- Segments of one record, and a checkpoint after every second one. -/
def tightOptions : Options := ⟨1, 20⟩

def booted (m : Disk × Engine) : Writer :=
  (@boot crc32fast tightOptions).returned m ⟨⟨Disk.empty, KvStore.fresh⟩, ⟨0, 0, 0, false⟩, 0⟩

/-- One put more. -/
def served (w : Writer) : Writer :=
  ((@turn crc32fast 20 [⟨[.put [107] [118]]⟩] false).exec (w.given [] [])).2

/-- A restart over the store as it is. -/
def rebooted (w : Writer) : Writer :=
  booted ({ w.host.disk with replies := [] }, { w.host.store.engine with replies := [] })

theorem atMost_put : @AtMost crc32fast 16 [⟨[.put [107] [118]]⟩] := by
  intro bytes hbytes
  have hlength : ((@encodeBatch crc32fast (mutationsOf [⟨[.put [107] [118]]⟩]) []).toOption.map
      List.length) = some 16 := by decide +kernel
  rw [hbytes] at hlength
  exact Nat.le_of_eq (Option.some.inj hlength)

section Restarts

variable {allowed : Disk → Prop} {w : Writer}

theorem service_booted : @Service crc32fast tightOptions 16 allowed
    (booted (Disk.empty, Engine.empty)) :=
  @Service.opened crc32fast _ _ _ _ _ (exec_returned (by decide +kernel) _)

theorem service_served (h : @Service crc32fast tightOptions 16 allowed w)
    (hreturns : (@turn crc32fast 20 [⟨[.put [107] [118]]⟩] false).returnsFrom (w.given [] []) =
      true) : @Service crc32fast tightOptions 16 allowed (served w) := by
  obtain ⟨answers, hexec⟩ := exec_of_returnsFrom hreturns
  exact @Service.turned crc32fast _ _ _ _ _ _ _ _ h atMost_put hexec

theorem service_rebooted (h : @Service crc32fast tightOptions 16 allowed w)
    (hallowed : allowed w.host.disk)
    (hdurable : w.host.store.engine.durable ≤ w.host.store.engine.commits.length)
    (hreturns : (@boot crc32fast tightOptions).returnsFrom ({ w.host.disk with replies := [] },
      { w.host.store.engine with replies := [] }) = true) :
    @Service crc32fast tightOptions 16 allowed (rebooted w) :=
  @Service.restarted crc32fast _ _ _ _ _ w.host.store.engine _ h hallowed
    ⟨List.suffix_refl _, rfl, hdurable⟩ (exec_returned hreturns _)

end Restarts

/-- After one restart there are two records. -/
theorem service_bounded_once : (served (rebooted (served (booted (Disk.empty, Engine.empty)))
    )).host.disk.bytes < 20 + 1 + 16 :=
  @service_bounded crc32fast tightOptions 16 _ (by decide) (by decide)
    (service_served (service_rebooted (service_served service_booted (by decide +kernel))
      (by decide +kernel) (by decide +kernel) (by decide +kernel)) (by decide +kernel))

/-- After two there are three, which is past the bound. -/
theorem service_bounded_twice :
    ¬ ∀ w, @Service crc32fast tightOptions 16 (fun _ => True) w →
      w.host.disk.bytes < tightOptions.checkpointInterval + tightOptions.segmentLimit + 16 := by
  intro hall
  have hservice : @Service crc32fast tightOptions 16 (fun _ => True)
      (served (rebooted (served (rebooted (served (booted (Disk.empty, Engine.empty))))))) :=
    service_served (service_rebooted (service_served (service_rebooted (service_served
      service_booted (by decide +kernel)) trivial (by decide +kernel) (by decide +kernel))
      (by decide +kernel)) trivial (by decide +kernel) (by decide +kernel)) (by decide +kernel)
  have hpast : ¬ (served (rebooted (served (rebooted (served (booted
      (Disk.empty, Engine.empty))))))).host.disk.bytes < 20 + 1 + 16 := by decide +kernel
  exact hpast (hall _ hservice)

end Hadar.Wal
