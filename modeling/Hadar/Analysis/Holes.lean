import Hadar.Analysis.Scanning
import Hadar.Interface.Crc32

/-!
# Holes in the log

`recover` restarts its count at every segment's name, so it never compares where one segment
ends with where the next one begins. It replays the records past the store's position exactly
when the segments that hold them happen to follow one another.
-/

set_option autoImplicit false

namespace Hadar.Wal

open Hadar.Lib Hadar.Lib.Prog Hadar.Storage Hadar.Mvcc Std

/-- One application moves the revision by as many as there are mutations. -/
theorem main_of_appliedTo {mutations : List Mutation} {upto : ℕ} {s s' : KvStore}
    (h : AppliedTo mutations upto s s') :
    s'.state.current.main = s.state.current.main + mutations.length := by
  unfold AppliedTo at h
  split at h
  · rename_i hnil
    rw [h, hnil]
    rfl
  · obtain ⟨revisions, hexec⟩ := h
    exact (counters_of_apply hexec).1

/-! ## Numbers -/

theorem numberedFrom_cons (first : ℕ) (m : Mutation) (rest : List Mutation) :
    numberedFrom first (m :: rest) = (first + 1, m) :: numberedFrom (first + 1) rest := by
  rw [numberedFrom, numberedFrom, List.zipIdx_cons, List.map_cons, List.zipIdx_succ, List.map_map]
  congr 1
  refine List.map_congr_left fun q _ => ?_
  simp only [Function.comp_apply, Prod.mk.injEq, and_true]
  omega

theorem numberedFrom_append (first : ℕ) (a b : List Mutation) :
    numberedFrom first (a ++ b) = numberedFrom first a ++ numberedFrom (first + a.length) b := by
  induction a generalizing first with
  | nil => rfl
  | cons m rest ih =>
    rw [List.cons_append, numberedFrom_cons, numberedFrom_cons, ih, List.length_cons,
      List.cons_append, Nat.add_assoc, Nat.add_comm 1]

theorem map_fst_numberedFrom (first : ℕ) (mutations : List Mutation) :
    (numberedFrom first mutations).map (·.1) = List.range' (first + 1) mutations.length := by
  induction mutations generalizing first with
  | nil => rfl
  | cons m rest ih => rw [numberedFrom_cons, List.map_cons, ih, List.length_cons, List.range'_succ]

theorem map_snd_numberedFrom (first : ℕ) (mutations : List Mutation) :
    (numberedFrom first mutations).map (·.2) = mutations := by
  induction mutations generalizing first with
  | nil => rfl
  | cons m rest ih => rw [numberedFrom_cons, List.map_cons, ih]

/-- The records past a position are numbered from there, or from their segment's name. -/
theorem filter_numberedFrom (applied first : ℕ) (mutations : List Mutation) :
    (numberedFrom first mutations).filter (fun p => applied < p.1) =
      numberedFrom (max first applied) (mutations.drop (applied - first)) := by
  induction mutations generalizing first with
  | nil => rw [List.drop_nil]; rfl
  | cons m rest ih =>
    rw [numberedFrom_cons]
    by_cases h : applied < first + 1
    · rw [List.filter_cons_of_pos (by simpa using h), ih, show applied - first = 0 by omega,
        show applied - (first + 1) = 0 by omega, show max first applied = first by omega,
        show max (first + 1) applied = first + 1 by omega, List.drop_zero, List.drop_zero,
        numberedFrom_cons]
    · rw [List.filter_cons_of_neg (by simpa using h), ih,
        show max (first + 1) applied = max first applied by omega,
        show applied - first = applied - (first + 1) + 1 by omega, List.drop_succ_cons]

section Numbers

variable [Crc32] {segments : List (ℕ × Bytes)} {applied : ℕ}

/-- The numbers of a segment's records past a position. -/
def numbersPast (applied : ℕ) (p : ℕ × Bytes) : List ℕ :=
  List.range' (max p.1 applied + 1) (segmentEnd p - max p.1 applied)

/-- The records of the log past a position. -/
def numberedPast (segments : List (ℕ × Bytes)) (applied : ℕ) : List (ℕ × Mutation) :=
  (numbered segments).filter fun p => applied < p.1

theorem map_snd_numberedPast : (numberedPast segments applied).map (·.2) = past applied segments := by
  rw [numberedPast, numbered, List.filter_flatMap, List.map_flatMap]
  refine List.flatMap_congr fun p _ => ?_
  rw [filter_numberedFrom, map_snd_numberedFrom]

theorem numbersPast_eq_nil {p : ℕ × Bytes} (h : ¬ (complete p.2 ≠ [] ∧ applied < segmentEnd p)) :
    numbersPast applied p = [] := by
  have hend : segmentEnd p - max p.1 applied = 0 := by
    unfold segmentEnd at *
    by_cases hnil : complete p.2 = []
    · rw [hnil, List.length_nil]
      omega
    · have hlow : ¬ applied < p.1 + (complete p.2).length := fun hlt => h ⟨hnil, hlt⟩
      omega
  rw [numbersPast, hend]
  rfl

/-- The records past the position are those of one segment after another. -/
theorem map_fst_numberedPast_flatMap : (numberedPast segments applied).map (·.1) =
    segments.flatMap (numbersPast applied) := by
  rw [numberedPast, numbered, List.filter_flatMap, List.map_flatMap]
  refine List.flatMap_congr fun p _ => ?_
  rw [filter_numberedFrom, map_fst_numberedFrom, List.length_drop, numbersPast, segmentEnd]
  congr 1
  omega

/-- Only the segments that are needed hold records past the position. -/
theorem map_fst_numberedPast : (numberedPast segments applied).map (·.1) =
    (needed segments applied).flatMap (numbersPast applied) := by
  rw [map_fst_numberedPast_flatMap]
  induction segments with
  | nil => rfl
  | cons p rest ih =>
    by_cases hp : complete p.2 ≠ [] ∧ applied < segmentEnd p
    · rw [needed, List.filter_cons_of_pos (by simpa using hp), List.flatMap_cons, List.flatMap_cons,
        ih, needed]
    · rw [needed, List.filter_cons_of_neg (by simpa using hp), List.flatMap_cons,
        numbersPast_eq_nil hp, List.nil_append, ih, needed]

/-- Segments with records past the position lead from `start` to `stop` without a gap. -/
def Follow (applied : ℕ) : ℕ → List (ℕ × Bytes) → ℕ → Prop
  | start, [], stop => stop = start
  | start, p :: rest, stop =>
    max p.1 applied = start ∧ Follow applied (segmentEnd p) rest stop

/-- Every segment holds a record, and one past the position. -/
def Holding (applied : ℕ) (l : List (ℕ × Bytes)) : Prop :=
  ∀ p ∈ l, max p.1 applied < segmentEnd p

theorem holding_needed : Holding applied (needed segments applied) := by
  intro p hp
  obtain ⟨-, hp⟩ := List.mem_filter.mp hp
  obtain ⟨hne, hlt⟩ := of_decide_eq_true hp
  have := List.length_pos_iff.mpr hne
  unfold segmentEnd at *
  omega

theorem Follow.le {l : List (ℕ × Bytes)} {start stop : ℕ} (h : Follow applied start l stop)
    (hl : Holding applied l) : start ≤ stop := by
  induction l generalizing start with
  | nil => exact Nat.le_of_eq h.symm
  | cons p rest ih =>
    have := hl p (List.mem_cons_self ..)
    have := ih h.2 fun q hq => hl q (List.mem_cons_of_mem _ hq)
    have := h.1
    omega

/-- The numbers run on from `start` to `stop` exactly when the segments do. -/
theorem numbers_eq_range_iff {l : List (ℕ × Bytes)} (hl : Holding applied l) {start stop : ℕ}
    (hle : start ≤ stop) :
    l.flatMap (numbersPast applied) = List.range' (start + 1) (stop - start) ↔
      Follow applied start l stop := by
  induction l generalizing start with
  | nil =>
    rw [List.flatMap_nil, eq_comm, List.range'_eq_nil_iff]
    show stop - start = 0 ↔ stop = start
    omega
  | cons p rest ih =>
    have hp := hl p (List.mem_cons_self ..)
    have hrest : Holding applied rest := fun q hq => hl q (List.mem_cons_of_mem _ hq)
    -- a range is the part up to where the segment ends, and the part past it
    have hsplit : segmentEnd p ≤ stop → max p.1 applied = start →
        List.range' (start + 1) (stop - start) = numbersPast applied p ++
          List.range' (segmentEnd p + 1) (stop - segmentEnd p) := by
      intro hend hstart
      rw [numbersPast, hstart, show segmentEnd p + 1 = start + 1 + (segmentEnd p - start) by omega,
        List.range'_append_1]
      congr 1
      omega
    rw [List.flatMap_cons]
    constructor
    · intro h
      have hhead := congrArg List.head? h
      have hlength := congrArg List.length h
      rw [List.head?_append, numbersPast, List.head?_range', if_neg (by omega), List.head?_range',
        Option.some_or] at hhead
      rw [List.length_append, numbersPast, List.length_range', List.length_range'] at hlength
      rw [if_neg (by omega)] at hhead
      have hstart : max p.1 applied = start := by
        have := Option.some.inj hhead
        omega
      rw [hsplit (by omega) hstart] at h
      exact ⟨hstart, (ih hrest (by omega)).mp (List.append_cancel_left h)⟩
    · rintro ⟨hstart, hfollow⟩
      have hend := hfollow.le hrest
      rw [hsplit hend hstart, (ih hrest hend).mpr hfollow]

/-- Following one another is a chain from the first segment to the last one. -/
theorem follow_cons_iff {p : ℕ × Bytes} {rest : List (ℕ × Bytes)}
    (hl : Holding applied (p :: rest)) {start stop : ℕ} :
    Follow applied start (p :: rest) stop ↔ max p.1 applied = start ∧
      (p :: rest).IsChain (fun p q => segmentEnd p = q.1) ∧
      stop = ((p :: rest).getLast?.map segmentEnd).getD applied := by
  induction rest generalizing p start with
  | nil =>
    simp only [Follow, List.getLast?_singleton, Option.map_some, Option.getD_some,
      List.IsChain.singleton, true_and]
  | cons q rest ih =>
    have hp := hl p (List.mem_cons_self ..)
    have hrest : Holding applied (q :: rest) := fun x hx => hl x (List.mem_cons_of_mem _ hx)
    have hjoin : max q.1 applied = segmentEnd p ↔ segmentEnd p = q.1 := by omega
    rw [Follow, ih hrest, List.isChain_cons_cons, List.getLast?_cons_cons, hjoin, and_assoc]

/-- The numbers of the records past the position run on to the end of the log exactly when
the segments that hold them leave no gap. -/
theorem gapFree_iff (hle : applied ≤ logEnd segments) :
    (numberedPast segments applied).map (·.1) =
      List.range' (applied + 1) (logEnd segments - applied) ↔ GapFree segments applied := by
  rw [map_fst_numberedPast, numbers_eq_range_iff holding_needed hle]
  have hholding : Holding applied (needed segments applied) := holding_needed
  cases hneeded : needed segments applied with
  | nil =>
    have hends : Follow applied applied [] (logEnd segments) ↔ logEnd segments = applied := Iff.rfl
    rw [hends]
    constructor
    · exact fun h => ⟨by simp [hneeded], by simp [hneeded], by simpa [hneeded] using h⟩
    · exact fun h => by simpa [hneeded] using h.ends
  | cons p rest =>
    rw [hneeded] at hholding
    rw [follow_cons_iff hholding]
    constructor
    · rintro ⟨hfirst, hchain, hends⟩
      refine ⟨fun q hq => ?_, by rwa [hneeded], by rwa [hneeded]⟩
      rw [hneeded, List.head?_cons, Option.mem_some_iff] at hq
      subst hq
      omega
    · intro h
      have hbegins := h.begins p (by rw [hneeded]; rfl)
      exact ⟨by omega, hneeded ▸ h.joined, hneeded ▸ h.ends⟩

end Numbers

/-! ## Recovery -/

section Recovery

variable [Crc32]

/-- Where recovery returns it has applied the records past the store's position, as the
segments list them.
SOURCE: crates/wal/src/wal.rs:197-257 -/
theorem appliedTo_of_recover {h h' : Host} {tail : Option Tail}
    (hok : recover.exec h = (.ok tail, h')) :
    h.store.state.applied ≤ logEnd h.disk.segments ∧
      AppliedTo (past h.store.state.applied h.disk.segments) (logEnd h.disk.segments)
        h.store h'.store := by
  have hends : Ends recover h
      (fun _ h' => h.store.state.applied ≤ logEnd h.disk.segments ∧
        AppliedTo (past h.store.state.applied h.disk.segments) (logEnd h.disk.segments)
          h.store h'.store) (fun _ _ => True) fun _ => True := by
    refine ends_recover rfl rfl (fun _ _ _ _ => trivial) (fun _ _ _ => trivial)
      (fun d' _ _ hle hnone => ⟨hle, ?_⟩) fun d' _ _ hle hsome => ?_
    · rw [AppliedTo, if_pos hnone]
    · refine Ends.mono (ends_exec _ _) (fun revisions s hexec => ⟨hle, ?_⟩)
        (fun _ _ _ => trivial) fun _ _ => trivial
      rw [AppliedTo, if_neg hsome]
      exact ⟨revisions, hexec⟩
  exact hends.of_ok hok

theorem unapplied_eq (segments : List (ℕ × Bytes)) (applied : ℕ) :
    unapplied segments applied =
      (numberedPast segments applied).filter fun p => p.1 ≤ logEnd segments := by
  rw [unapplied, numberedPast, List.filter_filter]
  refine List.filter_congr fun p _ => ?_
  rw [Bool.decide_and, Bool.and_comm]

/-- Where the records past the store's position are numbered on from there without a gap,
recovery that returns has replayed them exactly. -/
theorem replaysExactly_of_numbers {h h' : Host} {tail : Option Tail}
    (hok : recover.exec h = (.ok tail, h'))
    (hnumbers : (numberedPast h.disk.segments h.store.state.applied).map (·.1) =
      List.range' (h.store.state.applied + 1)
        (logEnd h.disk.segments - h.store.state.applied)) : ReplaysExactly h h' := by
  obtain ⟨hle, happlied⟩ := appliedTo_of_recover hok
  have hpast : (numberedPast h.disk.segments h.store.state.applied).map (·.2) =
      past h.store.state.applied h.disk.segments := map_snd_numberedPast
  have hall : unapplied h.disk.segments h.store.state.applied =
      numberedPast h.disk.segments h.store.state.applied := by
    rw [unapplied_eq, List.filter_eq_self]
    intro p hp
    have hmem : p.1 ∈ List.range' (h.store.state.applied + 1)
        (logEnd h.disk.segments - h.store.state.applied) := by
      rw [← hnumbers]
      exact List.mem_map_of_mem hp
    obtain ⟨hlow, hhigh⟩ := List.mem_range'_1.mp hmem
    exact decide_eq_true (by omega)
  refine ⟨by rw [hall, hnumbers], by rw [hall, hpast]; exact happlied, ?_⟩
  unfold AppliedTo at happlied
  split at happlied
  · rename_i hnone
    have hcount := congrArg List.length hnumbers
    rw [List.length_map, List.length_range', ← List.length_map (f := (·.2)), hpast, hnone,
      List.length_nil] at hcount
    rw [happlied]
    omega
  · obtain ⟨revisions, hexec⟩ := happlied
    exact (counters_of_apply hexec).2

/-- Recovery that returns has replayed the records past the store's position exactly, each
once and in order up to the end of the log, if and only if the segments that hold them leave
no gap.
SOURCE: crates/wal/src/wal.rs:197-257 -/
theorem recover_replaysExactly {h h' : Host} {tail : Option Tail}
    (hok : recover.exec h = (.ok tail, h')) :
    ReplaysExactly h h' ↔ GapFree h.disk.segments h.store.state.applied := by
  obtain ⟨hle, happlied⟩ := appliedTo_of_recover hok
  have hpast : (numberedPast h.disk.segments h.store.state.applied).map (·.2) =
      past h.store.state.applied h.disk.segments := map_snd_numberedPast
  constructor
  · intro hexact
    -- as many records were applied as there are past the position, so none was left out
    have hlength := (main_of_appliedTo happlied).symm.trans (main_of_appliedTo hexact.applied)
    rw [← hpast, List.length_map, List.length_map, unapplied_eq] at hlength
    have hall : unapplied h.disk.segments h.store.state.applied =
        numberedPast h.disk.segments h.store.state.applied := by
      rw [unapplied_eq]
      exact List.filter_sublist.eq_of_length (by omega)
    have hnumbers := hexact.numbers
    rw [hall] at hnumbers
    exact (gapFree_iff hle).mp hnumbers
  · exact fun hfree => replaysExactly_of_numbers hok ((gapFree_iff hle).mpr hfree)

end Recovery

/-! ## Logs of two records -/

/-- The record of a one-byte put. -/
def lonely : Bytes := @recordOf crc32fast (.put [107] [118])

/-- Two segments of one record each, the second one named `second`, under an empty store. -/
def twoSegments (second : ℕ) : Host :=
  ⟨⟨(∅ : ExtTreeMap ℕ File).insert 0 ⟨lonely, lonely⟩ |>.insert second ⟨lonely, lonely⟩, []⟩,
    KvStore.fresh⟩

end Hadar.Wal
