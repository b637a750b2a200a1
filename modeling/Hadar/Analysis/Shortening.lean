import Hadar.Analysis.Holes
import Hadar.Analysis.Writing
import Hadar.Interface.Shortening
import Mathlib.Data.List.Chain

/-!
# Compaction of the log, wherever it stops

Compaction takes segments away from the oldest on, one call after another, and never the last
one. What is left after any number of them is still contiguous, so its records past a position
it reaches back to are numbered on from there.
-/

set_option autoImplicit false

namespace Hadar.Wal

open Hadar.Lib Hadar.Lib.Prog Hadar.Storage Hadar.Mvcc Std

variable [Crc32]

/-! ## Contiguous logs -/

section Contiguous

variable {segments : List (ℕ × Bytes)} {p : ℕ × Bytes} {rest : List (ℕ × Bytes)} {applied : ℕ}

theorem Contiguous.drop (h : Contiguous segments) (k : ℕ) : Contiguous (segments.drop k) :=
  List.IsChain.drop h k

/-- The last segment says where a log ends. -/
theorem logEnd_eq (segments : List (ℕ × Bytes)) :
    logEnd segments = (segments.getLast?.map segmentEnd).getD 0 := by
  unfold logEnd
  cases segments.getLast? <;> rfl

theorem logEnd_cons (q : ℕ × Bytes) : logEnd (p :: q :: rest) = logEnd (q :: rest) := by
  rw [logEnd_eq, logEnd_eq, List.getLast?_cons_cons]

/-- No segment of a contiguous log goes past its end. -/
theorem Contiguous.segmentEnd_le (h : Contiguous segments) {p : ℕ × Bytes}
    (hp : p ∈ segments) :
    segmentEnd p ≤ logEnd segments := by
  induction segments generalizing p with
  | nil => cases hp
  | cons q rest ih =>
    cases rest with
    | nil =>
      obtain rfl := List.mem_singleton.mp hp
      exact Nat.le_refl _
    | cons next rest =>
      obtain ⟨hjoin, hrest⟩ := List.isChain_cons_cons.mp h
      rw [logEnd_cons]
      rcases List.mem_cons.mp hp with rfl | hp
      · have hnext := ih hrest (List.mem_cons_self ..)
        have hle : next.1 ≤ segmentEnd next := Nat.le_add_right _ _
        omega
      · exact ih hrest hp

/-- The records of a contiguous log past a position are numbered on from where the log begins, or
from the position. -/
theorem Contiguous.numbers (h : Contiguous (p :: rest)) :
    (numberedPast (p :: rest) applied).map (·.1) =
      List.range' (max p.1 applied + 1) (logEnd (p :: rest) - max p.1 applied) := by
  rw [map_fst_numberedPast_flatMap]
  induction rest generalizing p with
  | nil =>
    rw [List.flatMap_cons, List.flatMap_nil, List.append_nil]
    rfl
  | cons q rest ih =>
    obtain ⟨hjoin, hrest⟩ := List.isChain_cons_cons.mp h
    have hstart : p.1 ≤ segmentEnd p := Nat.le_add_right _ _
    have hq : segmentEnd q ≤ logEnd (q :: rest) :=
      Contiguous.segmentEnd_le hrest (List.mem_cons_self ..)
    have hle : q.1 ≤ segmentEnd q := Nat.le_add_right _ _
    rw [List.flatMap_cons, ih hrest, logEnd_cons, numbersPast]
    have hnext : max q.1 applied + 1 =
        max p.1 applied + 1 + (segmentEnd p - max p.1 applied) := by omega
    rw [hnext, List.range'_append_1]
    congr 1
    omega

/-- They are numbered on from the position where the oldest segment begins at or below it. -/
theorem Contiguous.numbers_past (h : Contiguous segments)
    (hbegins : ∀ p ∈ segments.head?, p.1 ≤ applied) :
    (numberedPast segments applied).map (·.1) =
      List.range' (applied + 1) (logEnd segments - applied) := by
  cases segments with
  | nil => simp [numberedPast, numbered, logEnd]
  | cons p rest => rw [h.numbers, Nat.max_eq_right (hbegins p rfl)]

theorem Readable.drop (h : Readable segments) (k : ℕ) : Readable (segments.drop k) := by
  induction k generalizing segments with
  | zero => exact h
  | succ k ih =>
    match segments, h with
    | [], _ => trivial
    | [_], _ => rw [List.drop_succ_cons, List.drop_nil]; trivial
    | _ :: _ :: _, h => exact ih h.2

/-- A contiguous and readable log is replayed exactly over a store at one of its positions.
SOURCE: crates/wal/src/wal.rs:197-257 -/
theorem Contiguous.recoverable (h : Contiguous segments) (hreadable : Readable segments)
    {s : KvStore} (hbegins : ∀ p ∈ segments.head?, p.1 ≤ s.state.applied)
    (hends : s.state.applied ≤ logEnd segments) : Recoverable segments s := by
  intro d hd hdisk hengine
  subst hd
  have hnumbers := h.numbers_past hbegins
  have hpast : (past s.state.applied d.segments).length =
      logEnd d.segments - s.state.applied := by
    rw [← map_snd_numberedPast, List.length_map, ← List.length_map (f := (·.1)), hnumbers,
      List.length_range']
  have hstops : Ends recover ⟨d, s⟩ (fun _ _ => True) (fun _ _ => False)
      fun _ => i64Max < s.state.current.main + (logEnd d.segments - s.state.applied) := by
    refine ends_recover rfl rfl (fun _ _ _ hbad => ?_)
      (fun _ _ hcrash => absurd hcrash (Disk.calm hdisk).2) (fun _ _ _ _ _ => trivial)
      fun _ _ _ _ _ => ?_
    · exact (hbad.resolve_left (Disk.calm hdisk).1) ⟨hreadable, hends⟩
    · refine Ends.mono (ends_apply_any _ _) (fun _ _ _ => trivial)
        (fun _ _ hfails => absurd (hfails.2.resolve_right id) (Engine.calm hengine).1)
        fun _ hdead => ?_
      rw [hpast] at hdead
      exact hdead.2.resolve_left (Engine.calm hengine).2
  refine Ends.mono (Ends.and hstops (ends_exec recover ⟨d, s⟩)) (fun tail h' hok => ?_)
    (fun _ _ hfails => hfails.1) fun _ hdead => hdead.1
  exact replaysExactly_of_numbers hok.2 hnumbers

end Contiguous

/-! ## What compaction leaves -/

/-- Of the segments of a directory the oldest ones are gone, and not the last one. -/
structure Disk.Left (d d' : Disk) : Prop where
  dropped : ∃ k, d'.segments = d.segments.drop k
  active : d'.segments.getLast? = d.segments.getLast?

omit [Crc32] in
theorem Disk.left_of_files {d d' : Disk} (h : d'.files = d.files) : d.Left d' := by
  have hsegments : d'.segments = d.segments := by rw [Disk.segments, h, Disk.segments]
  exact ⟨⟨0, by rw [hsegments, List.drop_zero]⟩, by rw [hsegments]⟩

omit [Crc32] in
theorem Disk.left_of_drop {d d' : Disk} {files : List (ℕ × File)} {last : ℕ × File} {k : ℕ}
    (h : d.files.toList = files ++ [last]) (h' : d'.files.toList = files.drop k ++ [last]) :
    d.Left d' := by
  have hdrop : files.drop k ++ [last] = (files ++ [last]).drop (min k files.length) := by
    rw [List.drop_append_of_le_length (Nat.min_le_right _ _)]
    rcases Nat.le_total k files.length with hle | hle
    · rw [Nat.min_eq_left hle]
    · rw [Nat.min_eq_right hle, List.drop_of_length_le hle, List.drop_length]
  refine ⟨⟨min k files.length, ?_⟩, ?_⟩
  · rw [Disk.segments, Disk.segments, h', hdrop, h, List.map_drop]
  · rw [Disk.segments, Disk.segments, h, h', List.map_append, List.map_append,
      List.map_singleton, List.getLast?_concat, List.getLast?_concat]

omit [Crc32] in
/-- Wherever compaction stops, it left the last segment and took none out of the middle; where it
returns, it took every segment that the checkpoint covers.
SOURCE: crates/wal/src/wal.rs:265-285 -/
theorem ends_compact_left (h : Host) :
    Ends compact h
      (fun _ h' => h.disk.Left h'.disk ∧ ((∀ p ∈ h.disk.segments, p.1 ≤ h.store.state.applied) →
        h'.disk.segments = h.disk.segments.getLast?.toList))
      (fun _ h' => h.disk.Left h'.disk) fun h' => h.disk.Left h'.disk := by
  obtain hnil | ⟨files, last, hlist⟩ := List.eq_nil_or_concat h.disk.files.toList
  · have hsegments : h.disk.segments = [] := by rw [Disk.segments, hnil, List.map_nil]
    have hstay : h.disk.Left h.disk := Disk.left_of_files rfl
    refine ends_bind.mpr (ends_zoom.mpr (Ends.mono (ends_left checkpoint h.store)
      (fun _ s _ => ?_) (fun _ _ _ => hstay) fun _ _ => hstay))
    refine ends_bind.mpr (ends_zoom.mpr (Ends.mono reads_list (fun segments d hd => ?_)
      (fun _ _ hd => Disk.left_of_files hd.1.files) fun _ hd => Disk.left_of_files hd.1.files))
    obtain ⟨rfl, hlater⟩ := hd
    dsimp only
    rw [hnil]
    refine ends_zoom.mpr (ends_pure.mpr ⟨Disk.left_of_files hlater.files, fun _ => ?_⟩)
    rw [hsegments, Disk.segments, hlater.files, hnil]
    rfl
  · rw [List.concat_eq_append] at hlist
    have hleft : ∀ {h' : Host}, Compacted h h' files last → h.disk.Left h'.disk := by
      intro h' hcompacted
      cases hcompacted with
      | untouched disk => exact Disk.left_of_files disk.files
      | unsure disk => exact Disk.left_of_files disk.files
      | taken k hfiles => exact Disk.left_of_drop hlist hfiles
    refine Ends.mono (ends_compact hlist) (fun _ h' hok => ⟨hleft hok.1, fun hnames => ?_⟩)
      (fun _ _ herr => hleft herr.1) fun _ hdead => hleft hdead.1
    have hall : ∀ p ∈ h.disk.files.toList, p.1 ≤ h.store.state.applied := fun p hp =>
      hnames (p.1, p.2.data) (List.mem_map_of_mem (f := fun q : ℕ × File => (q.1, q.2.data)) hp)
    rw [Disk.segments, hok.2 hall, Disk.segments, hlist, List.map_append, List.map_singleton,
      List.getLast?_concat]
    rfl

omit [Crc32] in
/-- Nothing is taken where the checkpoint fails. -/
theorem disk_of_checkpoint_error {h : Host} {stop : Stop Mvcc.Error} {s : KvStore}
    (hfailed : checkpoint.exec h.store = (.error stop, s)) : (compact.exec h).2.disk = h.disk := by
  have hcall : (Host.onStore checkpoint).exec h =
      (.error (stop.map fun e => .apply e.display), { h with store := s }) := by
    rw [Host.onStore, exec_zoom, hfailed]
  rw [compact, exec_bind_error hcall]

/-- Compaction of a contiguous log that ends at the store's position is safe wherever it stops.
Once the checkpoint returned, the log has lost some of its oldest segments, whose records are
numbered up to what the checkpoint returned, and not the active one; the rest is contiguous and
begins there or before, so that recovery accepts it over any store no older than the checkpoint.
Nothing is taken where the checkpoint failed, and where compaction returns, the active segment
alone is left.
SOURCE: crates/wal/src/wal.rs:259-285, crates/mvcc/src/store.rs:148-160 -/
theorem compact_safe {h h' : Host} {outcome : Except (Stop Error) ℕ}
    (hcontiguous : Contiguous h.disk.segments)
    (hend : logEnd h.disk.segments = h.store.state.applied)
    (hran : compact.exec h = (outcome, h')) :
    (∀ position s, checkpoint.exec h.store = (.ok position, s) →
      Shortened h.disk.segments h'.disk.segments position) ∧
    (∀ stop s, checkpoint.exec h.store = (.error stop, s) →
      h'.disk.segments = h.disk.segments) ∧
    ∀ removed, outcome = .ok removed →
      h'.disk.segments = h.disk.segments.getLast?.toList := by
  have hnames : ∀ p ∈ h.disk.segments, p.1 ≤ h.store.state.applied := by
    intro p hp
    have hle := hcontiguous.segmentEnd_le hp
    have hfirst : p.1 ≤ segmentEnd p := Nat.le_add_right _ _
    omega
  have hends := ends_compact_left h
  refine ⟨fun position s hcheckpoint => ?_, fun stop s hcheckpoint => ?_, fun removed hok => ?_⟩
  · obtain rfl : position = h.store.state.applied := (ends_checkpoint.of_ok hcheckpoint).1
    have hleft : h.disk.Left h'.disk := by
      have hany := Ends.left (Ends.mono hends (fun _ _ hok => hok.1) (fun _ _ herr => herr)
        fun _ hdead => hdead)
      rwa [hran] at hany
    obtain ⟨k, hdrop⟩ := hleft.dropped
    have hjoined : Contiguous h'.disk.segments := hdrop ▸ hcontiguous.drop k
    have hsub : ∀ p ∈ h'.disk.segments, p ∈ h.disk.segments := fun p hp =>
      List.mem_of_mem_drop (hdrop ▸ hp)
    have hbegins : ∀ p ∈ h'.disk.segments.head?, p.1 ≤ h.store.state.applied := fun p hp =>
      hnames p (hsub p (List.mem_of_mem_head? hp))
    refine ⟨⟨k, hdrop, fun p hp => ?_⟩, hleft.active, hjoined, hbegins,
      fun hreadable s hle hge => ?_⟩
    · obtain ⟨segment, hsegment, hp⟩ := List.mem_flatMap.mp hp
      have hle := hcontiguous.segmentEnd_le (List.mem_of_mem_take hsegment)
      have hnumber : p.1 ∈ List.range' (segment.1 + 1) (complete segment.2).length := by
        rw [← map_fst_numberedFrom]
        exact List.mem_map_of_mem hp
      have hlast := (List.mem_range'_1.mp hnumber).2
      unfold segmentEnd at hle
      omega
    · refine hjoined.recoverable (hdrop ▸ hreadable.drop k)
        (fun p hp => Nat.le_trans (hbegins p hp) hle) ?_
      rwa [logEnd_eq, hleft.active, ← logEnd_eq]
  · have hdisk := disk_of_checkpoint_error hcheckpoint
    rw [hran] at hdisk
    rw [hdisk]
  · rw [hok] at hran
    exact (hends.of_ok hran).2 hnames

/-- Two segments of one record each under a store that has applied both. -/
def twoCovered : Host :=
  ⟨(twoSegments 1).disk, { KvStore.fresh with state := { KvStore.fresh.state with applied := 2 } }⟩

omit [Crc32] in
/-- Compaction of them takes the older one. -/
theorem compact_safe_two :
    (∀ position s, checkpoint.exec twoCovered.store = (.ok position, s) →
      @Shortened crc32fast twoCovered.disk.segments
        (compact.exec twoCovered).2.disk.segments position) ∧
      (compact.exec twoCovered).2.disk.segments = [(1, lonely)] := by
  have hcontiguous : @Contiguous crc32fast twoCovered.disk.segments := by
    unfold Contiguous
    decide +kernel
  have hreturns : compact.returnsFrom twoCovered = true := by decide +kernel
  obtain ⟨removed, hran⟩ := exec_of_returnsFrom hreturns
  obtain ⟨hshortened, -, hleft⟩ :=
    @compact_safe crc32fast _ _ _ hcontiguous (by decide +kernel) hran
  exact ⟨hshortened, hleft removed rfl⟩

end Hadar.Wal
