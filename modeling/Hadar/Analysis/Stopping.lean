import Hadar.Analysis.Paging
import Hadar.Analysis.Spending
import Hadar.Analysis.Stores

/-!
# Why a run stops

A run stops for one of two reasons. It crashes where a call or an operation that is to come is a
crash, and it panics where the revisions run out: every other program of the store, of the
directory and of the writer returns a value or an error. So the rounds that opening a store is given
are never used up, and nothing but `apply` ever panics in the writer.
-/

set_option autoImplicit false

namespace Hadar.Mvcc

open Hadar.Lib Hadar.Lib.Prog Hadar.Storage Std

variable {s s' : KvStore} {α : Type} {doomed : Prop}

/-! ## The engine -/

theorem noPanic_nextReply : PanicsOnly doomed Storage.nextReply := by
  refine panicsOnly_get.bind fun e => ?_
  split
  · exact panicsOnly_pure _
  · exact (panicsOnly_set _).bind fun _ => panicsOnly_pure _

theorem panicsOnly_call {p : Prog Engine Storage.Error α} (hp : PanicsOnly doomed p) :
    PanicsOnly doomed (call p) := by
  refine noPanic_nextReply.bind fun r => ?_
  cases r with
  | done => exact hp
  | refused e applied => exact panicsOnly_fail _
  | crash => exact panicsOnly_crashing

theorem noPanic_beginRead : PanicsOnly doomed beginRead :=
  panicsOnly_call (panicsOnly_get.bind fun _ => panicsOnly_pure _)

theorem noPanic_beginWrite : PanicsOnly doomed beginWrite :=
  panicsOnly_call (panicsOnly_get.bind fun _ => panicsOnly_pure _)

theorem noPanic_commit (txn : WriteTxn) : PanicsOnly doomed txn.commit :=
  panicsOnly_call (panicsOnly_modify _)

theorem noPanic_commitDurable (txn : WriteTxn) : PanicsOnly doomed txn.commitDurable := by
  refine noPanic_nextReply.bind fun r => ?_
  cases r with
  | done => exact panicsOnly_modify _
  | refused e applied =>
    cases applied with
    | false => exact panicsOnly_fail e
    | true => exact (panicsOnly_modify _).bind fun _ => panicsOnly_fail e
  | crash => exact panicsOnly_crashing

theorem panicsOnly_onEngine {p : Prog Engine Storage.Error α} (hp : PanicsOnly doomed p) :
    PanicsOnly doomed (onEngine p) := hp.zoom _ _ _

/-! ## Opening a store -/

/-- One round more than there are entries within the bounds is never used up.
SOURCE: crates/mvcc/src/store.rs:82-106 -/
theorem noPanic_scanPages {contents : Keyspace} {rounds : ℕ} {bounds : Bounds}
    (hrounds : (entriesIn contents bounds).length < rounds) (hpanics : bounds.panics = false)
    (index : Index) (current : Revision) :
    NoPanic (scanPages ⟨contents⟩ rounds bounds index current) := by
  induction rounds generalizing bounds index current with
  | zero => omega
  | succ rounds ih =>
    have hscan : NoPanic (scan contents bounds (some scanPage)) := by
      unfold scan
      rw [hpanics, Bool.and_false]
      exact panicsOnly_call (panicsOnly_pure _)
    refine PanicsOnly.bind_of (hscan.zoom _ _ _) fun e page e' hexec => ?_
    obtain ⟨rfl, -⟩ := (ends_opening (reads_scan _ _ hpanics)).of_ok hexec
    cases hlast : (capped (some scanPage) (entriesIn contents bounds)).getLast? with
    | none => exact panicsOnly_pure _
    | some last =>
      have hmem : last ∈ entriesIn contents bounds :=
        List.mem_of_mem_take (List.mem_of_getLast? hlast)
      have hrest := length_past_lt hlast
      dsimp only
      split
      · exact panicsOnly_fail _
      · exact ih (by omega) (Bounds.panics_advancePast (contains_of_mem_entriesIn hmem)) _ _

/-- Opening a store never panics, and so never runs out of rounds.
SOURCE: crates/mvcc/src/store.rs:66-117 -/
theorem noPanic_openState : NoPanic openState := by
  refine PanicsOnly.bind (noPanic_beginRead.zoom _ _ _) fun txn => ?_
  refine PanicsOnly.bind ((panicsOnly_call (panicsOnly_pure _)).zoom _ _ _) fun raw => ?_
  have hrounds : (entriesIn txn.snapshot allRecords).length < txn.snapshot.toList.length + 1 :=
    Nat.lt_succ_of_le (List.length_filter_le _ _)
  have hscan : ∀ applied : ℕ, NoPanic (scanPages txn (txn.snapshot.toList.length + 1) allRecords
      Index.empty Revision.zero >>= fun r => pure (⟨r.1, r.2, 0, applied⟩ : State)) :=
    fun applied => PanicsOnly.bind (noPanic_scanPages hrounds (by decide) _ _) fun _ =>
      panicsOnly_pure _
  cases raw with
  | none => exact hscan 0
  | some raw =>
    dsimp only
    cases decodePosition raw with
    | none => exact panicsOnly_fail _
    | some applied => exact hscan applied

/-! ## The store -/

/-- The newest revision given out. -/
def KvStore.newest (s : KvStore) : ℕ := s.state.current.main

theorem draws_onEngine {p : Prog Engine Storage.Error α} (hp : NoPanic p) {limit : ℕ} :
    Draws KvStore.newest limit 0 (onEngine p) := draws_zoom_of_noPanic hp _ fun _ _ => rfl

theorem draws_checkpoint {limit : ℕ} : Draws KvStore.newest limit 0 checkpoint :=
  draws_get.before fun _ => (draws_onEngine noPanic_beginWrite).before fun _ =>
    (draws_onEngine (panicsOnly_call (panicsOnly_pure _))).before fun txn =>
      (draws_onEngine (noPanic_commitDurable txn)).before fun _ => draws_pure _

/-- Each mutation takes a revision.
SOURCE: crates/mvcc/src/store.rs:178-192 -/
theorem panicsOnly_writeBatch (batch : List Mutation) (txn : WriteTxn) (revision : Revision)
    (revisions : List Revision) :
    PanicsOnly (i64Max < revision.main + batch.length) (writeBatch batch txn revision revisions) := by
  induction batch generalizing txn revision revisions with
  | nil => exact panicsOnly_pure _
  | cons m rest ih =>
    rw [writeBatch, nextMain_eq, List.length_cons]
    by_cases hlt : revision.main < i64Max
    · rw [if_pos hlt]
      refine (panicsOnly_onEngine (panicsOnly_call (panicsOnly_pure _))).bind fun txn => ?_
      refine (ih txn _ _).mono fun hlimit => ?_
      rw [main_revisionOf hlt] at hlimit
      omega
    · rw [if_neg hlt]
      exact panicsOnly_panicking (by omega)

/-- SOURCE: crates/mvcc/src/store.rs:171-213 -/
theorem draws_apply (batch : List Mutation) (upto : ℕ) :
    Draws KvStore.newest i64Max batch.length (Mvcc.apply batch upto) := by
  constructor
  · intro s
    refine (Ends.mono (ends_apply_any batch upto) (fun _ s' h => ?_) (fun _ s' h => ?_)
      fun s' h => ?_ : Ends _ s (fun _ s' => s'.newest ≤ s.newest + batch.length)
        (fun _ s' => s'.newest ≤ s.newest + batch.length)
        fun s' => s'.newest ≤ s.newest + batch.length).left
    · obtain ⟨hfits, -, hstate, -⟩ := h
      rw [KvStore.newest, hstate]
      exact Nat.le_of_eq (Revision.main_after hfits)
    · rw [KvStore.newest, KvStore.Later.state h.1]
      exact Nat.le_add_right _ _
    · rw [KvStore.newest, KvStore.Later.state h.1]
      exact Nat.le_add_right _ _
  · intro s s' hexec
    rw [Mvcc.apply, exec_bind_ok (exec_get s)] at hexec
    refine PanicsOnly.bind (panicsOnly_onEngine noPanic_beginWrite) (fun txn => ?_) _ _ hexec
    refine (panicsOnly_writeBatch batch txn s.state.current []).bind fun r => ?_
    refine (panicsOnly_onEngine (panicsOnly_call (panicsOnly_pure _))).bind fun txn => ?_
    exact (panicsOnly_onEngine (noPanic_commit txn)).bind fun _ =>
      (panicsOnly_modify _).bind fun _ => panicsOnly_pure _

end Hadar.Mvcc

namespace Hadar.Wal

open Hadar.Lib Hadar.Lib.Prog Hadar.Storage Hadar.Mvcc Std

variable {α : Type} {doomed : Prop}

/-! ## The directory -/

theorem noPanic_nextReply : PanicsOnly doomed nextReply := by
  refine panicsOnly_get.bind fun d => ?_
  split
  · exact panicsOnly_pure _
  · exact (panicsOnly_set _).bind fun _ => panicsOnly_pure _

theorem panicsOnly_operation (context : String) {effect : Prog Disk Error α}
    (hp : PanicsOnly doomed effect) : PanicsOnly doomed (operation context effect) := by
  refine noPanic_nextReply.bind fun r => ?_
  cases r with
  | done => exact hp
  | refused cut => exact panicsOnly_fail _
  | crash cut => exact panicsOnly_crashing

theorem noPanic_writeAll (sink : ℕ) (bytes : Bytes) : PanicsOnly doomed (writeAll sink bytes) := by
  refine noPanic_nextReply.bind fun r => ?_
  cases r with
  | done => exact panicsOnly_modify _
  | refused cut => exact (panicsOnly_modify _).bind fun _ => panicsOnly_fail _
  | crash cut => exact (panicsOnly_modify _).bind fun _ => panicsOnly_crashing

theorem noPanic_truncate (sink len : ℕ) : PanicsOnly doomed (truncate sink len) :=
  (panicsOnly_operation _ (panicsOnly_modify _)).bind fun _ =>
    panicsOnly_operation _ (panicsOnly_modify _)

theorem noPanic_create (first limit : ℕ) : PanicsOnly doomed (Segment.create first limit) := by
  refine (panicsOnly_operation _ (panicsOnly_get.bind fun d => ?_)).bind fun _ => panicsOnly_pure _
  split
  · exact panicsOnly_fail _
  · exact panicsOnly_set _

theorem panicsOnly_onDisk {p : Prog Disk Error α} (hp : PanicsOnly doomed p) :
    PanicsOnly doomed (onDisk p) := hp.zoom _ _ _

theorem noPanic_append (bytes : Bytes) : PanicsOnly doomed (Segment.append bytes) := by
  refine panicsOnly_get.bind fun t => ?_
  split
  · exact panicsOnly_fail _
  · refine (panicsOnly_onDisk (noPanic_writeAll _ _)).attempt.bind fun written => ?_
    cases written with
    | error error =>
      refine (panicsOnly_onDisk (noPanic_truncate _ _)).attempt.bind fun rewound => ?_
      cases rewound with
      | error rewind => exact (panicsOnly_modify _).bind fun _ => panicsOnly_fail _
      | ok _ => exact panicsOnly_fail _
    | ok _ =>
      exact (panicsOnly_modify _).bind fun _ =>
        panicsOnly_onDisk (panicsOnly_operation _ (panicsOnly_modify _))

theorem noPanic_removeCovered (durable : ℕ) (segments : List ℕ) (removed : ℕ) :
    PanicsOnly doomed (removeCovered durable segments removed) := by
  fun_induction removeCovered durable segments removed with
  | case1 removed first next rest hpast => exact panicsOnly_pure _
  | case2 removed first next rest hcovered ih =>
    exact (panicsOnly_operation _ (panicsOnly_modify _)).bind fun _ => ih
  | case3 => exact panicsOnly_pure _

/-! ## The writer -/

def Host.newest (h : Host) : ℕ := h.store.newest

def Writer.newest (w : Writer) : ℕ := w.host.newest

section Writer

variable {limit n : ℕ}

theorem draws_onStore {p : Prog KvStore Mvcc.Error α} (hp : Draws KvStore.newest limit n p) :
    Draws Host.newest limit n (Host.onStore p) := hp.zoom _ (fun _ => rfl) fun _ _ => rfl

theorem draws_onDisk {p : Prog Disk Error α} (hp : NoPanic p) :
    Draws Host.newest limit 0 (Host.onDisk p) := draws_zoom_of_noPanic hp _ fun _ _ => rfl

theorem draws_onHost {p : Prog Host Error α} (hp : Draws Host.newest limit n p) :
    Draws Writer.newest limit n (Writer.onHost p) := hp.zoom _ (fun _ => rfl) fun _ _ => rfl

/-- A checkpoint takes no revision.
SOURCE: crates/wal/src/wal.rs:265-285 -/
theorem draws_compact : Draws Writer.newest limit 0 (Writer.onHost compact) :=
  draws_onHost ((draws_onStore draws_checkpoint).before fun _ =>
    (draws_onDisk (panicsOnly_operation _ (panicsOnly_get.bind fun _ => panicsOnly_pure _))).before
      fun _ => draws_onDisk (noPanic_removeCovered _ _ _))

/-- A batch takes a revision for each of its mutations, and panics only where these run out.
SOURCE: crates/wal/src/writer.rs:175-208 -/
theorem draws_retire [Crc32] (batch : List Request) :
    Draws Writer.newest i64Max (mutationsOf batch).length (retire batch) := by
  unfold retire
  split
  · exact (draws_fail _).mono (Nat.zero_le _)
  · have hroll : Draws Writer.newest i64Max 0 rollIfFull := by
      refine draws_get.before fun w => ?_
      split
      · exact (draws_onHost (draws_onDisk (noPanic_create _ _))).before fun _ =>
          draws_modify fun _ => rfl
      · exact draws_pure _
    have happend : ∀ bytes, Draws Writer.newest i64Max 0 (Writer.onSegment (Segment.append bytes)) :=
      fun bytes => draws_zoom_of_noPanic (noPanic_append bytes) _ fun _ _ => rfl
    exact hroll.before fun _ => (happend _).before fun _ =>
      Draws.before (draws_modify fun _ => rfl) fun _ => draws_get.before fun _ =>
        draws_onHost (draws_onStore (draws_apply _ _))

end Writer

end Hadar.Wal
