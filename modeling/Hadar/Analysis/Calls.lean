import Hadar.Analysis.Answering
import Hadar.Analysis.Atomicity
import Hadar.Analysis.Mailbox
import Hadar.Interface.Calls

/-!
# Calls made at once are as good as made one after another

Everything a caller is told is decided in one step of the system: a batch is retired and its
callers are told in one, and a read looks at the store in one. So the steps themselves are the
order, and the log is linearizable, whatever is refused, whoever is cancelled and whenever the
thread dies.
-/

set_option autoImplicit false

namespace Hadar.Mvcc

open Hadar.Lib Hadar.Lib.Prog Hadar.Storage Std

variable {s s' : KvStore} {log : List Mutation} {α : Type}

/-! ## Reads of a store that has applied a log -/

theorem noPanic_fetch (txn : WriteTxn) (limit : Option ℕ) (visible : List (Bytes × Found))
    (records : List Record) : NoPanic (fetch txn limit visible records) := by
  induction visible generalizing records with
  | nil => exact panicsOnly_pure _
  | cons p rest ih =>
    rw [fetch]
    split
    · exact panicsOnly_pure _
    · refine (panicsOnly_onEngine (panicsOnly_call (panicsOnly_pure _))).bind fun found => ?_
      split
      · exact panicsOnly_fail _
      · split
        · exact panicsOnly_fail _
        · exact ih _

/-- A range panics on bounds that the index's map does not accept, and on no others. -/
theorem not_panic_range {bounds : Bounds} {at_ limit : Option ℕ}
    (hb : s.state.index.refuses bounds = false) :
    (range bounds at_ limit).exec s ≠ (.error .panic, s') := by
  rw [range, exec_bind_ok (exec_get _)]
  cases resolve s.state at_ with
  | error e => exact panicsOnly_fail e _ _
  | ok at_ =>
    dsimp only
    rw [if_neg (by rw [hb]; exact Bool.false_ne_true)]
    exact PanicsOnly.bind (panicsOnly_onEngine noPanic_beginWrite)
      (fun _ => noPanic_fetch _ _ _ _) _ _

/-- What a call of the engine fails with is the engine's own error. -/
theorem ends_onEngine_storage (p : Prog Engine Storage.Error α) :
    Ends (onEngine p) s (fun _ _ => True) (fun e _ => ∃ e', e = .storage e') fun _ => True :=
  ends_zoom.mpr (Ends.mono (ends_exec _ _) (fun _ _ _ => trivial) (fun e _ _ => ⟨e, rfl⟩)
    fun _ _ => trivial)

/-- Where every record is there to be fetched, fetching fails only with the engine.
SOURCE: crates/mvcc/src/store.rs:237-258 -/
theorem ends_fetch_storage {txn : WriteTxn} {limit : Option ℕ} {visible : List (Bytes × Found)}
    {records : List Record} (h : ∀ p ∈ visible, ∃ raw key value,
      txn.working[backendKey p.2.modified false]? = some raw ∧
        decodeRecord raw = some (key, value)) :
    Ends (fetch txn limit visible records) s (fun _ _ => True) (fun e _ => ∃ e', e = .storage e')
      fun _ => True := by
  induction visible generalizing records s with
  | nil => exact ends_pure.mpr trivial
  | cons p rest ih =>
    obtain ⟨raw, key, value, hraw, hdecode⟩ := h p (List.mem_cons_self ..)
    rw [fetch]
    split
    · exact ends_pure.mpr trivial
    · refine ends_bind.mpr (Ends.mono ((reads_onEngine (reads_lookup _ _)).and
        (ends_onEngine_storage _)) (fun found s₁ hfound => ?_) (fun _ _ h => h.2)
        fun _ _ => trivial)
      obtain ⟨⟨rfl, -⟩, -⟩ := hfound
      rw [hraw]
      dsimp only
      rw [hdecode]
      exact ih fun q hq => h q (List.mem_cons_of_mem _ hq)

/-- What the index finds is there to be fetched. -/
theorem Serves.fetchable {events : List Event} {w at_ : ℕ} (h : Serves events w s) (hw : w ≤ at_)
    {bounds : Bounds} : ∀ p ∈ s.state.index.range bounds at_, ∃ raw key value,
      s.engine.committed[backendKey p.2.modified false]? = some raw ∧
        decodeRecord raw = some (key, value) := by
  rintro ⟨key, found⟩ hp
  obtain ⟨-, hfound⟩ := (Index.mem_range _ _ _ (h.index.chain h.dated) _ _).mp hp
  rw [h.index.readIn_newest h.dated hw] at hfound
  obtain ⟨e, hforce, hin, -, halive, hrev⟩ := inForce_of_foundIn hfound
  obtain ⟨marker, records, hholds, hkept⟩ := h.contents
  have hraw := hholds.lookup (hkept e (kept_of_inForce h.dated hw hforce))
  rw [halive, hrev] at hraw
  exact ⟨_, e.2.key, e.2.value, hraw, decodeRecord_encodeRecord _ (h.keys e hin)⟩

/-- A range past both watermarks fails only with the engine and panics only on bounds that a
`BTreeMap` does not accept.
SOURCE: crates/mvcc/src/store.rs:225-261 -/
theorem Tracks.range_result (h : Tracks s log) (hkeys : ∀ m ∈ log, m.key.length ≤ u32Max)
    (bounds : Bounds) (at_ limit : Option ℕ) {result : Except (Stop Error) (List Record)}
    (hexec : (range bounds at_ limit).exec s = (result, s')) :
    s.Later s' ∧ (result = .error .crash ∨
      Wal.LogStep log (.range bounds at_ limit) (.range result) log) := by
  have hcurrent : s.state.current.main = log.length := by
    rw [h.current]
    exact Nat.min_eq_left h.count
  have hcompacted : s.state.compacted = 0 := by
    rw [h.state]
    rfl
  by_cases hpast : at_.getD log.length ≤ log.length
  case neg =>
    -- a revision that was not asked for is never ahead
    cases at_ with
    | none => exact absurd (Nat.le_refl _) hpast
    | some n =>
      have hahead : log.length < n := Nat.lt_of_not_le hpast
      have hresolve : resolve s.state (some n) = .error (.futureRevision n log.length) := by
        rw [resolve, Option.getD_some, hcurrent, if_pos hahead]
      unfold range at hexec
      rw [exec_bind_ok (exec_get _), hresolve] at hexec
      obtain ⟨rfl, rfl⟩ := Prod.mk.inj hexec
      exact ⟨KvStore.Later.refl _, .inr (.future _ _ hahead)⟩
  have hresolve : resolve s.state at_ = .ok (at_.getD log.length) := by
    rw [resolve, hcurrent, hcompacted, if_neg (Nat.not_lt.mpr hpast), if_neg (Nat.not_lt_zero _)]
  cases hpanics : s.state.index.refuses bounds with
  | true =>
    unfold range at hexec
    rw [exec_bind_ok (exec_get _), hresolve] at hexec
    dsimp only at hexec
    rw [if_pos hpanics] at hexec
    obtain ⟨rfl, rfl⟩ := Prod.mk.inj hexec
    obtain ⟨hrooted, hcrossed⟩ := Bool.and_eq_true_iff.mp hpanics
    exact ⟨KvStore.Later.refl _, .inr (.panicked _ hpast hcrossed (h.filled hrooted))⟩
  | false =>
    have hserves := (h.shows hkeys).serves
    have hreads := reads_range hserves hpanics limit at_ (by rw [hcurrent]) (Nat.zero_le _)
      (by rw [hcompacted]; exact Nat.zero_le _) (by rw [hcurrent]; exact hpast)
    have hstorage : Ends (range bounds at_ limit) s (fun _ _ => True)
        (fun e _ => ∃ e', e = .storage e') fun _ => True := by
      refine ends_bind.mpr (ends_get.mpr ?_)
      dsimp only
      rw [hresolve]
      dsimp only
      rw [if_neg (by rw [hpanics]; exact Bool.false_ne_true)]
      refine ends_bind.mpr (Ends.mono ((reads_onEngine reads_beginWrite).and
        (ends_onEngine_storage _)) (fun txn s₁ htxn => ?_) (fun _ _ h => h.2) fun _ _ => trivial)
      obtain ⟨⟨rfl, -⟩, -⟩ := htxn
      exact ends_fetch_storage (hserves.fetchable (Nat.zero_le _))
    rcases result with (e | _ | _) | records
    · obtain ⟨e', rfl⟩ := hstorage.of_error hexec
      exact ⟨(hreads.of_error hexec).1, .inr (.notRead _ _ _ _ _)⟩
    · exact absurd hexec (not_panic_range hpanics)
    · exact ⟨(hreads.of_dead hexec (.inr rfl)).1, .inl rfl⟩
    · obtain ⟨rfl, hlater⟩ := hreads.of_ok hexec
      exact ⟨hlater, .inr (.found _ hpast (lists_tell bounds hserves (Nat.zero_le _)))⟩

end Hadar.Mvcc

namespace Hadar.Wal

open Hadar.Lib Hadar.Lib.Prog Hadar.Storage Hadar.Mvcc Std

/-! ## Errors of the thread -/

section Errors

variable {α : Type}

/-- An error that does not say that the log is shut down. -/
def Error.Open (e : Error) : Prop := e ≠ .shutdown

theorem open_apply (detail : String) : (Error.apply detail).Open := nofun

theorem open_nextReply : FailsOnly Error.Open nextReply := by
  refine FailsOnly.bind failsOnly_get fun d => ?_
  split
  · exact failsOnly_pure _
  · exact FailsOnly.bind (failsOnly_modify _) fun _ => failsOnly_pure _

theorem open_operation (context : String) {effect : Prog Disk Error α}
    (h : FailsOnly Error.Open effect) : FailsOnly Error.Open (operation context effect) := by
  refine FailsOnly.bind open_nextReply fun r => ?_
  split
  · exact h
  · exact failsOnly_fail nofun
  · exact failsOnly_crashing

theorem open_create (first limit : ℕ) : FailsOnly Error.Open (Segment.create first limit) := by
  refine FailsOnly.bind (open_operation _ (FailsOnly.bind failsOnly_get fun d => ?_))
    fun _ => failsOnly_pure _
  split
  · exact failsOnly_fail nofun
  · exact failsOnly_modify _

theorem open_append (bytes : Bytes) : FailsOnly Error.Open (Segment.append bytes) := by
  have hwrite : ∀ sink, FailsOnly Error.Open (writeAll sink bytes) := fun sink => by
    refine FailsOnly.bind open_nextReply fun r => ?_
    split
    · exact failsOnly_modify _
    · exact FailsOnly.bind (failsOnly_modify _) fun _ => failsOnly_fail nofun
    · exact FailsOnly.bind (failsOnly_modify _) fun _ => failsOnly_crashing
  have hcut : ∀ sink len, FailsOnly Error.Open (truncate sink len) := fun sink len =>
    FailsOnly.bind (open_operation _ (failsOnly_modify _)) fun _ =>
      open_operation _ (failsOnly_modify _)
  refine FailsOnly.bind failsOnly_get fun t => ?_
  split
  · exact failsOnly_fail nofun
  · refine ((hwrite _).zoom _ _ fun _ h => h).attempt_bind (fun _ => ?_) fun error herror => ?_
    · exact FailsOnly.bind (failsOnly_modify _) fun _ =>
        (open_operation _ (failsOnly_modify _)).zoom _ _ fun _ h => h
    · refine ((hcut _ _).zoom _ _ fun _ h => h).attempt_bind (fun _ => failsOnly_fail herror)
        fun rewind hrewind => FailsOnly.bind (failsOnly_modify _) fun _ => failsOnly_fail hrewind

/-- Taking segments away fails only with the directory. -/
theorem open_removeCovered (durable : ℕ) (segments : List ℕ) (removed : ℕ) :
    FailsOnly Error.Open (removeCovered durable segments removed) := by
  induction segments generalizing removed with
  | nil => exact failsOnly_pure _
  | cons first rest ih =>
    cases rest with
    | nil => exact failsOnly_pure _
    | cons next rest =>
      rw [removeCovered]
      split
      · exact failsOnly_pure _
      · exact FailsOnly.bind (open_operation _ (failsOnly_modify _)) fun _ => ih _

theorem open_compact : FailsOnly Error.Open (Writer.onHost compact) := by
  have hstore : ∀ (p : Prog KvStore Mvcc.Error ℕ), FailsOnly Error.Open (Host.onStore p) :=
    fun p => (failsOnly_any p).zoom _ _ fun _ _ => open_apply _
  refine FailsOnly.zoom (FailsOnly.bind (hstore _) fun durable => FailsOnly.bind
    ((open_operation _ (FailsOnly.bind failsOnly_get fun _ => failsOnly_pure _)).zoom _ _
      fun _ h => h) fun segments => (open_removeCovered _ _ _).zoom _ _ fun _ h => h) _ _
    fun _ h => h

variable [Crc32]

theorem open_encodeBatch {mutations : List Mutation} {bytes : Bytes} {e : Error}
    (h : encodeBatch mutations bytes = .error e) : e.Open := by
  induction mutations generalizing bytes with
  | nil => cases h
  | cons m rest ih =>
    rw [encodeBatch] at h
    split at h
    · rename_i e' hencode
      cases h
      unfold encode encodeFrame at hencode
      split at hencode
      · cases hencode
        intro heq
        cases heq
      · split at hencode
        · cases hencode
          intro heq
          cases heq
        · split at hencode <;> cases hencode
          intro heq
          cases heq
    · exact ih h

/-- A batch fails with an error of its own, never by saying that the log is shut down.
SOURCE: crates/wal/src/writer.rs:175-208 -/
theorem open_retire (batch : List Request) : FailsOnly Error.Open (retire batch) := by
  unfold retire
  split
  · rename_i hencode
    exact failsOnly_fail (open_encodeBatch hencode)
  · refine FailsOnly.bind (FailsOnly.bind failsOnly_get fun w => ?_) fun _ =>
      FailsOnly.bind ((open_append _).zoom _ _ fun _ h => h) fun _ =>
        FailsOnly.bind (failsOnly_modify _) fun _ => FailsOnly.bind failsOnly_get fun w => ?_
    · split
      · exact FailsOnly.bind (((open_create _ _).zoom _ _ fun _ h => h).zoom _ _ fun _ h => h)
          fun _ => failsOnly_modify _
      · exact failsOnly_pure _
    · exact ((failsOnly_any _).zoom _ _ fun _ _ => open_apply _).zoom _ _ fun _ h => h

end Errors

/-! ## What the thread does to the store -/

section Thread

variable [Crc32] {w : Writer} {t : Thread} {log : List Mutation} {interval : ℕ}

/-- Retiring a batch applies it as a whole or leaves the store where it was.
SOURCE: crates/wal/src/writer.rs:175-208 -/
theorem ends_retire_tracks (h : Tracks w.host.store log) (batch : List Request) :
    Ends (retire batch) w
      (fun revisions w' => revisions = (stampedFrom log.length (mutationsOf batch)).map (·.1) ∧
        Tracks w'.host.store (log ++ mutationsOf batch) ∧
        ∀ m ∈ mutationsOf batch, m.key.length ≤ u32Max)
      (fun _ w' => Tracks w'.host.store log) fun w' => Tracks w'.host.store log := by
  have hsame : ∀ {w' : Writer}, w'.host.store = w.host.store → Tracks w'.host.store log :=
    fun hstore => hstore ▸ h
  unfold retire
  split
  · exact ends_fail.mpr h
  · rename_i bytes hencode
    refine ends_bind.mpr (Ends.mono ends_rollIfFull_store (fun (_ : Unit) w₁ h₁ => ?_)
      (fun _ _ h => hsame h) fun _ h => hsame h)
    refine ends_bind.mpr (Ends.mono (ends_onSegment_store _) (fun (_ : Unit) w₂ h₂ => ?_)
      (fun _ _ h => hsame (h.trans h₁)) fun _ h => hsame (h.trans h₁))
    refine ends_bind.mpr (ends_modify.mpr (ends_bind.mpr (ends_get.mpr (ends_zoom.mpr
      (ends_zoom.mpr ?_)))))
    dsimp only
    rw [h₂, h₁, h.applied, ← List.length_append]
    refine Ends.mono (h.ends_apply (mutationsOf batch)) (fun revisions s hs => ?_)
      (fun _ _ hs => h.later hs.1) fun _ hs => h.later hs.1
    exact ⟨hs.1, hs.2.1, fun m hm => ((encodable_of_encodeBatch hencode).1 m hm).key_le⟩

omit [Crc32] in
/-- A checkpoint leaves the store where it was.
SOURCE: crates/wal/src/wal.rs:265-285 -/
theorem ends_compact_tracks (h : Tracks w.host.store log) :
    Ends (Writer.onHost compact) w (fun _ w' => Tracks w'.host.store log)
      (fun _ w' => Tracks w'.host.store log) fun w' => Tracks w'.host.store log := by
  have hmark : ∀ s : KvStore, s.state = w.host.store.state → s.engine.commits =
      w.host.store.engine.committed.insert appliedKey
        (encodePosition w.host.store.state.applied) :: w.host.store.engine.commits →
      Tracks s log := fun s hstate hcommits =>
    ⟨h.count, hstate.trans h.state, by
      rw [Engine.committed, hcommits, h.applied]
      exact h.newest.mark⟩
  refine ends_zoom.mpr (ends_bind.mpr (ends_zoom.mpr (Ends.mono Mvcc.ends_checkpoint
    (fun position s hs => ?_) (fun _ s hs => ?_) fun s hs => h.later hs.1)))
  · obtain ⟨-, hstate, hcommits, -, -⟩ := hs
    have htracks := hmark s hstate hcommits
    refine ends_bind.mpr (ends_zoom.mpr (Ends.mono (ends_exec _ _) (fun segments d _ => ?_)
      (fun _ _ _ => htracks) fun _ _ => htracks))
    exact ends_zoom.mpr (Ends.mono (ends_exec _ _) (fun _ _ _ => htracks) (fun _ _ _ => htracks)
      fun _ _ => htracks)
  · rcases hs.1 with hlater | ⟨hstate, hcommits, -, -⟩
    · exact h.later hlater
    · exact hmark s hstate hcommits

/-- What a batch that was retired noted, and what it made of the log. -/
inductive Disposed (t : Thread) (log : List Mutation) (batch : List (ℕ × Request)) :
    Thread → List Mutation → Prop where
  | nothing (empty : batch = []) : Disposed t log batch t log
  | applied {t' : Thread} (outcome : List Revision)
    (revisions : outcome = (stampedFrom log.length (mutationsOf (batch.map (·.2)))).map (·.1))
    (deeds : t'.deeds = t.deeds ++ .retired batch (.ok outcome) ::
      (answersOf batch (.ok outcome)).map fun p => .answered p.1 p.2)
    (keys : ∀ m ∈ mutationsOf (batch.map (·.2)), m.key.length ≤ u32Max) :
    Disposed t log batch t' (log ++ mutationsOf (batch.map (·.2)))
  | failed {t' : Thread} (e : Error) (kind : e.Open)
    (deeds : t'.deeds = t.deeds ++ .retired batch (.error e) ::
      (answersOf batch (.error e)).map fun p => .answered p.1 p.2) :
    Disposed t log batch t' log

/-- SOURCE: crates/wal/src/writer.rs:154-157 -/
theorem ends_retireBatch_tracks (h : Tracks t.writer.host.store log) (batch : List (ℕ × Request)) :
    Ends (retireBatch batch) t
      (fun _ t' => ∃ log', Tracks t'.writer.host.store log' ∧ Disposed t log batch t' log')
      (fun _ _ => False)
      (fun t' => Tracks t'.writer.host.store log ∧ t'.deeds = t.deeds) := by
  unfold retireBatch
  split
  · rename_i hempty
    exact ends_pure.mpr ⟨log, h, .nothing (by simpa using hempty)⟩
  · refine ends_bind.mpr (ends_attempt.mpr (ends_zoom.mpr (Ends.mono
      ((ends_retire_tracks h (batch.map (·.2))).kinded (open_retire _))
      (fun revisions w' hw' => ?_) (fun e w' hw' => ?_)
      fun w' hw' => ⟨hw', rfl⟩)))
    · obtain ⟨hrevisions, htracks, hkeys⟩ := hw'
      exact ends_bind.mpr (ends_modify.mpr (ends_modify.mpr ⟨_, htracks,
        .applied revisions hrevisions (by simp [answersOf]) hkeys⟩))
    · exact ends_bind.mpr (ends_modify.mpr (ends_modify.mpr ⟨_, hw'.1,
        .failed e hw'.2 (by simp [answersOf])⟩))

/-- What a checkpoint noted. -/
def Noted (t : Thread) (requested : Option ℕ) (t' : Thread) : Prop :=
  match requested with
  | some respond => ∃ outcome, (∀ e, outcome = .error e → e.Open) ∧
    t'.deeds = t.deeds ++ [.compacted outcome, .checkpointed respond outcome]
  | none => t'.deeds = t.deeds ∨ ∃ outcome, t'.deeds = t.deeds ++ [.compacted outcome]

omit [Crc32] in
/-- SOURCE: crates/wal/src/writer.rs:159-170 -/
theorem ends_checkpointIfDue_tracks (interval : ℕ) (h : Tracks t.writer.host.store log) (requested : Option ℕ) :
    Ends (checkpointIfDue interval requested) t
      (fun _ t' => Tracks t'.writer.host.store log ∧ Noted t requested t')
      (fun _ _ => False)
      (fun t' => Tracks t'.writer.host.store log ∧ t'.deeds = t.deeds) := by
  unfold checkpointIfDue
  extract_lets reset
  -- what follows the compaction and is noted of it only resets the count of bytes
  have hreset : ∀ (t₁ : Thread) (outcome : Except Error ℕ) (p : Prog Thread Error Unit)
      (ok : Unit → Thread → Prop) (dead : Thread → Prop), Tracks t₁.writer.host.store log →
      (∀ t₂ : Thread, Tracks t₂.writer.host.store log → t₂.deeds = t₁.deeds →
        Ends p t₂ ok (fun _ _ => False) dead) →
      Ends (do
        if outcome.isOk then Thread.onWriter (modify reset)
        p) t₁ ok (fun _ _ => False) dead := by
    intro t₁ outcome p ok dead ht₁ hp
    split
    · exact ends_bind.mpr (ends_zoom.mpr (ends_modify.mpr (hp _ ht₁ rfl)))
    · exact hp _ ht₁ rfl
  -- a compaction returns or fails, and either is noted
  have hcompact : ∀ (f : Except Error ℕ → Prog Thread Error Unit) (ok : Unit → Thread → Prop),
      (∀ outcome (t₁ : Thread), (∀ e, outcome = .error e → e.Open) →
        Tracks t₁.writer.host.store log → t₁.deeds = t.deeds →
        Ends (f outcome) t₁ ok (fun _ _ => False)
          (fun t' => Tracks t'.writer.host.store log ∧ t'.deeds = t.deeds)) →
      Ends ((Thread.onWriter (Writer.onHost compact)).attempt >>= f) t ok (fun _ _ => False)
        (fun t' => Tracks t'.writer.host.store log ∧ t'.deeds = t.deeds) := by
    intro f ok hf
    exact ends_bind.mpr (ends_attempt.mpr (ends_zoom.mpr (Ends.mono
      ((ends_compact_tracks h).kinded open_compact) (fun _ _ hw' => hf _ _ nofun hw' rfl)
      (fun e _ hw' => hf _ _ (fun _ heq => by cases heq; exact hw'.2) hw'.1 rfl)
      fun _ hw' => ⟨hw', rfl⟩)))
  cases requested with
  | some respond =>
    refine hcompact _ _ fun outcome t₁ hopen ht₁ hdeeds => ends_bind.mpr (ends_modify.mpr ?_)
    refine hreset _ outcome _ _ _ ht₁ fun t₂ ht₂ hdeeds₂ =>
      ends_modify.mpr ⟨ht₂, outcome, hopen, ?_⟩
    rw [hdeeds₂, hdeeds, List.append_assoc]
    rfl
  | none =>
    refine ends_bind.mpr (ends_get.mpr ?_)
    split
    · refine hcompact _ _ fun outcome t₁ _ ht₁ hdeeds => ends_bind.mpr (ends_modify.mpr ?_)
      have hnoted : t₁.deeds ++ [.compacted outcome] = t.deeds ++ [.compacted outcome] := by
        rw [hdeeds]
      split
      · exact ends_zoom.mpr (ends_modify.mpr ⟨ht₁, .inr ⟨outcome, hnoted⟩⟩)
      · exact ends_pure.mpr ⟨ht₁, .inr ⟨outcome, hnoted⟩⟩
    · exact ends_pure.mpr ⟨h, .inl rfl⟩

end Thread

/-! ## Messages on their way -/

/-- The channel a deed answers on. -/
def Deed.channel : Deed → Option ℕ
  | .answered respond _ | .checkpointed respond _ => some respond
  | _ => none

/-- The messages the thread holds, to answer them later. -/
def Pending.messages (pending : Pending) : List Message :=
  pending.requested.toList.map .checkpoint ++ pending.batch.map fun b => .write b.1 b.2

def Stage.messages : Stage → List Message
  | .draining pending | .collected pending => pending.messages
  | .retired requested => requested.toList.map .checkpoint
  | _ => []

/-- The messages that were sent and not answered yet. -/
def System.inFlight (s : System) : List Message := s.stage.messages ++ s.queue

/-- The mutations of the batches that were applied. -/
def appliedIn (deeds : List Deed) : List Mutation :=
  deeds.flatMap fun
    | .retired batch (.ok _) => mutationsOf (batch.map (·.2))
    | _ => []

/-- No deed is an answer on the channel. -/
def Silent (id : ℕ) (deeds : List Deed) : Prop := ∀ d ∈ deeds, d.channel ≠ some id

section Messages

variable {deeds more : List Deed} {id : ℕ} {message : Message}

theorem silent_nil (id : ℕ) : Silent id [] := fun _ hd => absurd hd List.not_mem_nil

theorem silent_append : Silent id (deeds ++ more) ↔ Silent id deeds ∧ Silent id more :=
  List.forall_mem_append

theorem appliedIn_append (deeds more : List Deed) :
    appliedIn (deeds ++ more) = appliedIn deeds ++ appliedIn more := List.flatMap_append

theorem tells_eq_none {d : Deed} (h : d.channel ≠ some message.respond) :
    d.tells message = none := by
  cases d <;> cases message <;> simp_all [Deed.channel, Deed.tells, Message.respond]

theorem Silent.answer (h : Silent message.respond deeds) : message.answer deeds = none :=
  List.findSome?_eq_none_iff.mpr fun d hd => tells_eq_none (h d hd)

theorem answer_append : message.answer (deeds ++ more) =
    (message.answer deeds).or (message.answer more) := List.findSome?_append

/-- What the thread takes in it holds, but for a checkpoint that another one takes the place of. -/
theorem subperm_receive (pending : Pending) (message : Message) :
    List.Subperm (pending.receive message).messages (pending.messages ++ [message]) := by
  cases message with
  | write respond request =>
    simp only [Pending.receive, Pending.messages, List.map_append, List.map_singleton,
      List.append_assoc]
    exact List.Subperm.refl _
  | checkpoint respond =>
    refine ⟨(pending.batch.map fun b => .write b.1 b.2) ++ [.checkpoint respond],
      List.perm_append_comm, ?_⟩
    rw [Pending.messages, List.append_assoc]
    exact List.sublist_append_right _ _

/-- Whether somebody holds a channel is whether its message is on its way. -/
theorem System.held_iff {s : System} {id : ℕ} :
    s.held id = true ↔ ∃ m ∈ s.inFlight, m.respond = id := by
  have hpending : ∀ pending : Pending, (pending.batch.any (fun p => p.1 == id) ||
      pending.requested == some id) = true ↔ ∃ m ∈ pending.messages, m.respond = id := by
    intro pending
    rw [Pending.messages]
    simp only [Bool.or_eq_true, List.any_eq_true, beq_iff_eq, List.mem_append, List.mem_map,
      Option.mem_toList]
    constructor
    · rintro (⟨b, hb, rfl⟩ | hrequested)
      · exact ⟨_, .inr ⟨b, hb, rfl⟩, rfl⟩
      · exact ⟨_, .inl ⟨id, hrequested, rfl⟩, rfl⟩
    · rintro ⟨m, ⟨r, hr, rfl⟩ | ⟨b, hb, rfl⟩, rfl⟩
      · exact .inr hr
      · exact .inl ⟨b, hb, rfl⟩
  have hstage : s.stage.holds id = true ↔ ∃ m ∈ s.stage.messages, m.respond = id := by
    cases s.stage with
    | draining pending => exact hpending pending
    | collected pending => exact hpending pending
    | retired requested => cases requested <;> simp [Stage.holds, Stage.messages, Message.respond]
    | receiving => simp [Stage.holds, Stage.messages]
    | finished => simp [Stage.holds, Stage.messages]
    | dead => simp [Stage.holds, Stage.messages]
    | crashed => simp [Stage.holds, Stage.messages]
  rw [System.held, Bool.or_eq_true, hstage, System.inFlight]
  simp only [List.any_eq_true, beq_iff_eq, List.mem_append]
  constructor
  · rintro (⟨m, hm, rfl⟩ | ⟨m, hm, rfl⟩)
    · exact ⟨m, .inr hm, rfl⟩
    · exact ⟨m, .inl hm, rfl⟩
  · rintro ⟨m, hm | hm, rfl⟩
    · exact .inr ⟨m, hm, rfl⟩
    · exact .inl ⟨m, hm, rfl⟩

end Messages

/-! ## The invariant -/

section Invariant

/-- How far a call is, and how far it is with the atomic object. -/
def Progress (deeds : List Deed) (phase : Phase Ask Outcome) (id : ℕ) : Option Place → Prop
  | none => Silent id deeds ∧ phase = .absent
  | some (.sending message) =>
    message.respond = id ∧ Silent id deeds ∧ phase = .pending message.ask
  | some (.awaiting message) =>
    message.respond = id ∧ (Silent id deeds ∧ phase = .pending message.ask ∨
      ∃ outcome, message.answer deeds = some outcome ∧ phase = .done outcome)
  | some (.reading bounds at_ limit) => phase = .pending (.range bounds at_ limit)
  | some (.told outcome) => phase = .done outcome
  | some .returned => phase = .finished
  | some .dropped => True

/-- A write of something that took effect was answered by the thread. -/
def Acknowledged (deeds : List Deed) (order : List (Effect Ask Outcome)) : Prop :=
  ∀ e ∈ order, ∀ revisions, e.result = .write (.ok revisions) →
    e.op = .write [] ∨ ¬ Silent e.id deeds

/-- The system is where the atomic object is: it has applied the same mutations, the messages on
their way are calls that wait, and every call is as far as it is there. -/
structure Consistent (base : List Mutation) (s : System) (history : List (Mark Ask Outcome))
    (order : List (Effect Ask Outcome)) (phase : ℕ → Phase Ask Outcome) (log : List Mutation) :
    Prop where
  atomic : Atomic (logObject base) history order phase log
  tracks : Tracks s.thread.writer.host.store log
  keys : ∀ m ∈ log, m.key.length ≤ u32Max
  logged : log = base ++ appliedIn s.thread.deeds
  distinct : (s.inFlight.map Message.respond).Nodup
  flying : ∀ m ∈ s.inFlight, phase m.respond = .pending m.ask ∧
    Silent m.respond s.thread.deeds ∧
      (s.places m.respond = some (.awaiting m) ∨ s.places m.respond = some .dropped)
  progress : ∀ id, Progress s.thread.deeds (phase id) id (s.places id)
  acknowledged : Acknowledged s.thread.deeds order

variable {base log log' : List Mutation} {s s' : System} {history : List (Mark Ask Outcome)}
  {order : List (Effect Ask Outcome)} {phase : ℕ → Phase Ask Outcome}

/-- More deeds, none of which is an answer to the call. -/
theorem Progress.more {deeds more : List Deed} {p : Phase Ask Outcome} {id : ℕ}
    {place : Option Place} (h : Progress deeds p id place) (hsilent : Silent id more) :
    Progress (deeds ++ more) p id place := by
  rcases place with _ | (message | message | ⟨bounds, at_, limit⟩ | outcome | _ | _)
  · exact ⟨silent_append.mpr ⟨h.1, hsilent⟩, h.2⟩
  · exact ⟨h.1, silent_append.mpr ⟨h.2.1, hsilent⟩, h.2.2⟩
  · refine ⟨h.1, h.2.imp (fun hs => ⟨silent_append.mpr ⟨hs.1, hsilent⟩, hs.2⟩) ?_⟩
    rintro ⟨outcome, hanswer, hdone⟩
    exact ⟨outcome, by rw [answer_append, hanswer, Option.some_or], hdone⟩
  · exact h
  · exact h
  · exact h
  · exact h

theorem Acknowledged.more {deeds : List Deed} (h : Acknowledged deeds order) (more : List Deed) :
    Acknowledged (deeds ++ more) order := fun e he revisions hresult =>
  (h e he revisions hresult).imp_right fun hnot hsilent => hnot (silent_append.mp hsilent).1

/-- One effect more, which is no such write. -/
theorem Acknowledged.concat {deeds : List Deed} (h : Acknowledged deeds order)
    {e : Effect Ask Outcome}
    (hresult : ∀ revisions, e.result = .write (.ok revisions) → e.op = .write []) :
    Acknowledged deeds (order ++ [e]) := by
  refine List.forall_mem_append.mpr ⟨h, fun x hx revisions hx' => ?_⟩
  obtain rfl := List.mem_singleton.mp hx
  exact .inl (hresult revisions hx')

/-- The thread tells some of those that wait how their calls went. -/
theorem Consistent.settle (h : Consistent base s history order phase log)
    (taken : List (Effect Ask Outcome)) (more : List Deed)
    (hruns : (logObject base).Runs log taken log') (honce : (taken.map (·.id)).Nodup)
    (htaken : ∀ e ∈ taken, ∃ m ∈ s.inFlight, m.respond = e.id ∧ m.ask = e.op ∧
      m.answer more = some e.result)
    (hsilent : ∀ id, id ∉ taken.map (·.id) → Silent id more)
    (hplaces : s'.places = s.places) (hdeeds : s'.thread.deeds = s.thread.deeds ++ more)
    (htracks : Tracks s'.thread.writer.host.store log') (hkeys : ∀ m ∈ log', m.key.length ≤ u32Max)
    (hlogged : log' = log ++ appliedIn more)
    (hdistinct : (s'.inFlight.map Message.respond).Nodup)
    (hrest : ∀ m ∈ s'.inFlight, m ∈ s.inFlight ∧ m.respond ∉ taken.map (·.id)) :
    ∃ order' phase', Consistent base s' history order' phase' log' := by
  have hpending : ∀ e ∈ taken, phase e.id = .pending e.op := fun e he => by
    obtain ⟨m, hm, hid, hop, -⟩ := htaken e he
    rw [← hid, ← hop]
    exact (h.flying m hm).1
  obtain ⟨phase', hatomic, hdone, hsame⟩ := h.atomic.effects hpending honce hruns
  refine ⟨order ++ taken, phase', hatomic, htracks, hkeys, ?_, hdistinct, fun m hm => ?_,
    fun id => ?_, ?_⟩
  · rw [hlogged, h.logged, hdeeds, appliedIn_append, List.append_assoc]
  · obtain ⟨hin, hout⟩ := hrest m hm
    obtain ⟨hphase, hquiet, hplace⟩ := h.flying m hin
    rw [hsame _ hout, hplaces, hdeeds]
    exact ⟨hphase, silent_append.mpr ⟨hquiet, hsilent _ hout⟩, hplace⟩
  · rw [hdeeds, hplaces]
    by_cases hid : id ∈ taken.map (·.id)
    · obtain ⟨e, he, rfl⟩ := List.mem_map.mp hid
      obtain ⟨m, hm, hrespond, hop, hanswer⟩ := htaken e he
      obtain ⟨-, hquiet, hplace⟩ := h.flying m hm
      rw [hrespond] at hplace
      rw [hdone e he]
      rcases hplace with hplace | hplace <;> rw [hplace]
      · refine ⟨hrespond, .inr ⟨e.result, ?_, rfl⟩⟩
        rw [answer_append, hquiet.answer, Option.none_or, hanswer]
      · trivial
    · rw [hsame id hid]
      exact (h.progress id).more (hsilent id hid)
  · rw [hdeeds]
    refine List.forall_mem_append.mpr ⟨h.acknowledged.more more, fun e he _ _ => .inr fun hs => ?_⟩
    obtain ⟨m, -, hid, -, hanswer⟩ := htaken e he
    rw [Silent.answer (hid ▸ (silent_append.mp hs).2)] at hanswer
    cases hanswer

/-- The thread moves on without telling anybody anything. -/
theorem Consistent.quiet (h : Consistent base s history order phase log) (more : List Deed)
    (hmore : ∀ d ∈ more, d.channel = none) (hnone : appliedIn more = [])
    (hplaces : s'.places = s.places)
    (hdeeds : s'.thread.deeds = s.thread.deeds ++ more)
    (htracks : Tracks s'.thread.writer.host.store log)
    (hrest : List.Subperm s'.inFlight s.inFlight) :
    Consistent base s' history order phase log := by
  have hsilent : ∀ id, Silent id more := fun id d hd => by
    rw [hmore d hd]
    exact nofun
  refine ⟨h.atomic, htracks, h.keys, ?_, ?_, fun m hm => ?_, fun id => ?_, ?_⟩
  · rw [hdeeds, appliedIn_append, hnone, List.append_nil]
    exact h.logged
  · obtain ⟨l, hperm, hsublist⟩ := hrest
    exact (hperm.map _).nodup_iff.mp (h.distinct.sublist (hsublist.map _))
  · obtain ⟨hphase, hquiet, hplace⟩ := h.flying m (hrest.subset hm)
    rw [hplaces, hdeeds]
    exact ⟨hphase, silent_append.mpr ⟨hquiet, hsilent _⟩, hplace⟩
  · rw [hdeeds, hplaces]
    exact (h.progress id).more (hsilent id)
  · rw [hdeeds]
    exact h.acknowledged.more more

/-- The thread moves on without doing anything. -/
theorem Consistent.still (h : Consistent base s history order phase log)
    (hplaces : s'.places = s.places) (hdeeds : s'.thread.deeds = s.thread.deeds)
    (htracks : Tracks s'.thread.writer.host.store log)
    (hrest : List.Subperm s'.inFlight s.inFlight) :
    Consistent base s' history order phase log :=
  h.quiet [] (fun _ hd => absurd hd List.not_mem_nil) rfl hplaces
    (hdeeds.trans (List.append_nil _).symm) htracks hrest

end Invariant

/-! ## A batch as calls one after another -/

section Effects

variable {base log : List Mutation} {batch : List (ℕ × Request)}

/-- What the callers of a batch are told, as effects in the order of the batch. -/
def effectsOf (batch : List (ℕ × Request)) (results : List (Except Error (List Revision))) :
    List (Effect Ask Outcome) :=
  (batch.zip results).map fun p => ⟨p.1.1, .write p.1.2.mutations, .write p.2⟩

/-- A batch that was applied is its writes applied one after another.
SOURCE: crates/wal/src/writer.rs:211-219 -/
theorem runs_effectsOf_ok (batch : List (ℕ × Request)) (log : List Mutation) :
    (logObject base).Runs log
      (effectsOf batch (answer (batch.map (·.2))
        (.ok ((stampedFrom log.length (mutationsOf (batch.map (·.2)))).map (·.1)))))
      (log ++ mutationsOf (batch.map (·.2))) := by
  induction batch generalizing log with
  | nil => exact (List.append_nil log).symm
  | cons b rest ih =>
    have hsplit : mutationsOf ((b :: rest).map (·.2)) =
        b.2.mutations ++ mutationsOf (rest.map (·.2)) := rfl
    have hlength : ((stampedFrom log.length b.2.mutations).map (·.1)).length =
        b.2.mutations.length := by rw [List.length_map, length_stampedFrom]
    have hlater := ih (log ++ b.2.mutations)
    rw [List.append_assoc, List.length_append] at hlater
    rw [hsplit, stampedFrom_append, List.map_append, List.map_cons, answer,
      List.take_left' hlength, List.drop_left' hlength]
    exact ⟨_, .wrote log b.2.mutations, hlater⟩

/-- A batch that failed does nothing.
SOURCE: crates/wal/src/writer.rs:220-225 -/
theorem runs_effectsOf_error (batch : List (ℕ × Request)) (e : Error) :
    (logObject base).Runs log (effectsOf batch (answer (batch.map (·.2)) (.error e))) log := by
  induction batch with
  | nil => exact rfl
  | cons b rest ih => exact ⟨_, .notWritten log b.2.mutations e, ih⟩

theorem map_id_effectsOf (outcome : Except Error (List Revision)) :
    (effectsOf batch (answer (batch.map (·.2)) outcome)).map (·.id) = batch.map (·.1) := by
  have hlength : batch.length ≤ (answer (batch.map (·.2)) outcome).length := by
    rw [length_answer, List.length_map]
  rw [effectsOf, List.map_map]
  exact (List.map_map (f := Prod.fst) (g := Prod.fst)).symm.trans
    (congrArg _ (List.map_fst_zip hlength))

/-- Each caller of a batch finds its own result, where no two wait on one channel. -/
theorem answer_of_mem_effectsOf {results : List (Except Error (List Revision))}
    (honce : (batch.map (·.1)).Nodup) {e : Effect Ask Outcome} (he : e ∈ effectsOf batch results) :
    ∃ b ∈ batch, b.1 = e.id ∧ .write b.2.mutations = e.op ∧
      (Message.write b.1 b.2).answer (((batch.map (·.1)).zip results).map fun p =>
        .answered p.1 p.2) = some e.result := by
  induction batch generalizing results with
  | nil => exact absurd he List.not_mem_nil
  | cons b rest ih =>
    cases results with
    | nil => exact absurd he List.not_mem_nil
    | cons result results =>
      rw [List.map_cons, List.nodup_cons] at honce
      rw [effectsOf, List.zip_cons_cons, List.map_cons, List.mem_cons] at he
      rcases he with rfl | he
      · refine ⟨b, List.mem_cons_self .., rfl, rfl, ?_⟩
        simp [Message.answer, Deed.tells]
      · obtain ⟨b', hb', hid, hop, hanswer⟩ := ih honce.2 he
        have hne : b.1 ≠ b'.1 := fun heq => honce.1 (heq ▸ List.mem_map_of_mem hb')
        refine ⟨b', List.mem_cons_of_mem _ hb', hid, hop, ?_⟩
        rw [List.map_cons, List.zip_cons_cons, List.map_cons, Message.answer,
          List.findSome?_cons_of_isNone (by simp [Deed.tells, hne])]
        exact hanswer

/-- Nobody else is answered. -/
theorem silent_answersOf {outcome : Except Error (List Revision)} {id : ℕ}
    (h : id ∉ batch.map (·.1)) :
    Silent id ((answersOf batch outcome).map fun p => .answered p.1 p.2) := by
  intro d hd
  obtain ⟨p, hp, rfl⟩ := List.mem_map.mp hd
  intro heq
  cases heq
  exact h (List.of_mem_zip hp).1

end Effects

/-! ## The thread's steps -/

section Advance

variable [Crc32] {base log : List Mutation} {s s' : System} {history : List (Mark Ask Outcome)}
  {order : List (Effect Ask Outcome)} {phase : ℕ → Phase Ask Outcome} {interval : ℕ}

omit [Crc32] in
/-- The answers to a batch apply nothing more. -/
theorem appliedIn_retired (batch : List (ℕ × Request)) (outcome : Except Error (List Revision))
    (answers : List (ℕ × Except Error (List Revision))) :
    appliedIn (.retired batch outcome :: answers.map fun p => .answered p.1 p.2) =
      appliedIn [.retired batch outcome] := by
  have hnone : appliedIn (answers.map fun p => .answered p.1 p.2) = [] :=
    List.flatMap_eq_nil_iff.mpr fun d hd => by
      obtain ⟨p, -, rfl⟩ := List.mem_map.mp hd
      rfl
  rw [← List.singleton_append, appliedIn_append, hnone, List.append_nil]

omit [Crc32] in
theorem appliedIn_retired_ok (batch : List (ℕ × Request)) (revisions : List Revision) :
    appliedIn [.retired batch (.ok revisions)] = mutationsOf (batch.map (·.2)) :=
  List.flatMap_singleton ..

omit [Crc32] in
/-- Taking a message in. -/
theorem Consistent.taking (h : Consistent base s history order phase log) {pending : Pending}
    {message : Message} {rest : List Message} (hstage : s.stage.messages = pending.messages)
    (hqueue : s.queue = message :: rest) :
    Consistent base (s.taking pending message rest) history order phase log := by
  refine h.quiet [.received message] (by simp [Deed.channel]) rfl rfl rfl h.tracks ?_
  have hflying : s.inFlight = (pending.messages ++ [message]) ++ rest := by
    rw [System.inFlight, hstage, hqueue, List.append_assoc]
    rfl
  rw [hflying]
  exact (List.subperm_append_right rest).mpr (subperm_receive pending message)

/-- Retiring a batch.
SOURCE: crates/wal/src/writer.rs:154-157 -/
theorem Consistent.retiring (h : Consistent base s history order phase log) {pending : Pending}
    (hstage : s.stage = .collected pending) :
    ∃ order' phase' log', Consistent base
      (s.after (.retired pending.requested) (retireBatch pending.batch)) history order' phase'
        log' := by
  have hflying : s.inFlight = pending.requested.toList.map .checkpoint ++
      (pending.batch.map fun b => .write b.1 b.2) ++ s.queue := by
    rw [System.inFlight, hstage]
    rfl
  have hends := ends_retireBatch_tracks h.tracks pending.batch
  unfold System.after
  rcases hexec : (retireBatch pending.batch).exec s.thread with ⟨(e | _ | _) | ⟨⟩, t'⟩
  · exact (hends.of_error hexec).elim
  · obtain ⟨htracks, hdeeds⟩ := hends.of_dead hexec (.inl rfl)
    exact ⟨_, _, _, h.still rfl hdeeds htracks List.nil_subperm⟩
  · obtain ⟨htracks, hdeeds⟩ := hends.of_dead hexec (.inr rfl)
    exact ⟨_, _, _, h.still rfl hdeeds htracks (List.sublist_append_right _ _).subperm⟩
  · obtain ⟨log', htracks, hdisposed⟩ := hends.of_ok hexec
    -- what is on its way afterwards is what was before, less the batch
    have hless : List.Sublist (pending.requested.toList.map .checkpoint ++ s.queue) s.inFlight := by
      rw [hflying, List.append_assoc]
      exact List.Sublist.append (List.Sublist.refl _) (List.sublist_append_right _ _)
    have hids : (pending.batch.map fun b => Message.write b.1 b.2).map Message.respond =
        pending.batch.map (·.1) := by
      rw [List.map_map]
      rfl
    have hdistinct := h.distinct
    rw [hflying, List.map_append, List.map_append, hids] at hdistinct
    have honce : (pending.batch.map (·.1)).Nodup :=
      (List.nodup_append.mp (List.nodup_append.mp hdistinct).1).2.1
    have hout : ∀ m ∈ pending.requested.toList.map .checkpoint ++ s.queue,
        m.respond ∉ pending.batch.map (·.1) := by
      intro m hm hin
      rcases List.mem_append.mp hm with hm | hm
      · exact (List.nodup_append.mp (List.nodup_append.mp hdistinct).1).2.2 _
          (List.mem_map_of_mem hm) _ hin rfl
      · exact (List.nodup_append.mp hdistinct).2.2 _ (List.mem_append_right _ hin) _
          (List.mem_map_of_mem hm) rfl
    have hsettle : ∀ (outcome : Except Error (List Revision)) (log' : List Mutation),
        (logObject base).Runs log (effectsOf pending.batch
          (answer (pending.batch.map (·.2)) outcome)) log' →
        log' = log ++ appliedIn [.retired pending.batch outcome] →
        t'.deeds = s.thread.deeds ++ .retired pending.batch outcome ::
          (answersOf pending.batch outcome).map (fun p => .answered p.1 p.2) →
        Tracks t'.writer.host.store log' → (∀ m ∈ log', m.key.length ≤ u32Max) →
        ∃ order' phase' log', Consistent base
          { s with stage := .retired pending.requested, thread := t' } history order' phase'
            log' := by
      intro outcome log' hruns hlog hdeeds htracks hkeys
      suffices hafter : ∃ order' phase', Consistent base
          { s with stage := .retired pending.requested, thread := t' } history order' phase' log' by
        obtain ⟨order', phase', hafter⟩ := hafter
        exact ⟨order', phase', log', hafter⟩
      refine h.settle _ _ hruns (by rwa [map_id_effectsOf]) (fun e he => ?_) (fun id hid => ?_) rfl
        hdeeds htracks hkeys ?_ ?_ fun m hm => ?_
      · obtain ⟨b, hb, hid, hop, hanswer⟩ := answer_of_mem_effectsOf honce he
        refine ⟨.write b.1 b.2, ?_, hid, hop, hanswer⟩
        rw [hflying]
        exact List.mem_append_left _ (List.mem_append_right _ (List.mem_map_of_mem hb))
      · rw [map_id_effectsOf] at hid
        exact List.forall_mem_cons.mpr ⟨nofun, silent_answersOf hid⟩
      · rw [hlog, appliedIn_retired]
      · exact h.distinct.sublist (hless.map _)
      · rw [map_id_effectsOf]
        exact ⟨hless.subset hm, hout m hm⟩
    cases hdisposed with
    | nothing hempty =>
      exact ⟨_, _, _, h.still rfl rfl h.tracks hless.subperm⟩
    | applied outcome hrevisions hdeeds hkeys =>
      subst hrevisions
      refine hsettle _ _ (runs_effectsOf_ok _ _) ?_ hdeeds htracks fun m hm => ?_
      · rw [appliedIn_retired_ok]
      · exact (List.mem_append.mp hm).elim (h.keys m) (hkeys m)
    | failed e _ hdeeds =>
      exact hsettle _ _ (runs_effectsOf_error _ _) (List.append_nil _).symm hdeeds htracks h.keys

omit [Crc32] in
/-- Taking a checkpoint.
SOURCE: crates/wal/src/writer.rs:159-170 -/
theorem Consistent.checkpointing (h : Consistent base s history order phase log)
    {requested : Option ℕ} (hstage : s.stage = .retired requested) :
    ∃ order' phase' log', Consistent base
      (s.after .receiving (checkpointIfDue interval requested)) history order' phase' log' := by
  have hflying : s.inFlight = requested.toList.map .checkpoint ++ s.queue := by
    rw [System.inFlight, hstage]
    rfl
  have hless : List.Sublist s.queue s.inFlight := by
    rw [hflying]
    exact List.sublist_append_right _ _
  have hends := ends_checkpointIfDue_tracks interval h.tracks requested
  unfold System.after
  rcases hexec : (checkpointIfDue interval requested).exec s.thread with ⟨(e | _ | _) | ⟨⟩, t'⟩
  · exact (hends.of_error hexec).elim
  · obtain ⟨htracks, hdeeds⟩ := hends.of_dead hexec (.inl rfl)
    exact ⟨_, _, _, h.still rfl hdeeds htracks List.nil_subperm⟩
  · obtain ⟨htracks, hdeeds⟩ := hends.of_dead hexec (.inr rfl)
    exact ⟨_, _, _, h.still rfl hdeeds htracks hless.subperm⟩
  · obtain ⟨htracks, hnoted⟩ := hends.of_ok hexec
    cases requested with
    | none =>
      obtain ⟨more, hmore, hnone, hdeeds⟩ : ∃ more : List Deed, (∀ d ∈ more, d.channel = none) ∧
          appliedIn more = [] ∧ t'.deeds = s.thread.deeds ++ more := by
        rcases hnoted with hdeeds | ⟨outcome, hdeeds⟩
        · exact ⟨[], fun _ hd => absurd hd List.not_mem_nil, rfl,
            hdeeds.trans (List.append_nil _).symm⟩
        · exact ⟨[.compacted outcome], by simp [Deed.channel], rfl, hdeeds⟩
      exact ⟨_, _, _, h.quiet more hmore hnone rfl hdeeds htracks hless.subperm⟩
    | some respond =>
      obtain ⟨outcome, -, hdeeds⟩ := hnoted
      have hdistinct := h.distinct
      rw [hflying] at hdistinct
      obtain ⟨hout, hdistinct⟩ := List.nodup_cons.mp hdistinct
      suffices hafter : ∃ order' phase', Consistent base
          { s with stage := .receiving, thread := t' } history order' phase' log by
        obtain ⟨order', phase', hafter⟩ := hafter
        exact ⟨order', phase', log, hafter⟩
      refine h.settle [⟨respond, .checkpoint, .checkpoint outcome⟩]
        [.compacted outcome, .checkpointed respond outcome]
        (Sequential.runs_singleton (.checkpointed log outcome)) (List.nodup_singleton _)
        (fun e he => ?_) (fun id hid d hd heq => ?_) rfl hdeeds htracks h.keys
        (List.append_nil _).symm hdistinct fun m hm => ⟨hless.subset hm, fun hid => ?_⟩
      · obtain rfl := List.mem_singleton.mp he
        refine ⟨.checkpoint respond, by rw [hflying]; exact List.mem_cons_self .., rfl, rfl, ?_⟩
        simp [Message.answer, List.findSome?, Deed.tells]
      · rcases List.mem_cons.mp hd with rfl | hd
        · cases heq
        · obtain rfl := List.mem_singleton.mp hd
          cases heq
          exact hid (List.mem_singleton_self _)
      · exact hout (List.mem_map.mpr ⟨m, hm, List.mem_singleton.mp hid⟩)

/-- A step of the thread.
SOURCE: crates/wal/src/writer.rs:126-172 -/
theorem Consistent.advance (h : Consistent base s history order phase log)
    (hadvance : s.advance interval = some s') :
    ∃ order' phase' log', Consistent base s' history order' phase' log' := by
  have hidle : ∀ stage : Stage, s.stage.messages = stage.messages →
      Consistent base { s with stage := stage } history order phase log := fun stage hstage =>
    h.still rfl rfl h.tracks (by rw [System.inFlight, System.inFlight, hstage])
  unfold System.advance at hadvance
  split at hadvance
  · rename_i hstage
    split at hadvance
    · rename_i message rest hqueue
      cases hadvance
      exact ⟨_, _, _, h.taking (by rw [hstage]; rfl) hqueue⟩
    · split at hadvance
      · cases hadvance
        exact ⟨_, _, _, hidle .finished (by rw [hstage]; rfl)⟩
      · cases hadvance
  · rename_i pending hstage
    split at hadvance
    · split at hadvance
      · rename_i message rest hqueue
        cases hadvance
        exact ⟨_, _, _, h.taking (by rw [hstage]; rfl) hqueue⟩
      · cases hadvance
        exact ⟨_, _, _, hidle (.collected pending) (by rw [hstage]; rfl)⟩
    · cases hadvance
      exact ⟨_, _, _, hidle (.collected pending) (by rw [hstage]; rfl)⟩
  · rename_i pending hstage
    cases hadvance
    exact h.retiring hstage
  · rename_i requested hstage
    cases hadvance
    exact h.checkpointing hstage
  · cases hadvance
  · cases hadvance
  · cases hadvance

end Advance

/-! ## The callers' steps -/

section Callers

variable {base log : List Mutation} {s s' : System} {history history' : List (Mark Ask Outcome)}
  {order order' : List (Effect Ask Outcome)} {phase : ℕ → Phase Ask Outcome} {id : ℕ}

@[simp] theorem System.places_setPlace_self (s : System) (id : ℕ) (place : Place) :
    (s.setPlace id place).places id = some place := Function.update_self ..

theorem System.places_setPlace_of_ne {j : ℕ} (h : j ≠ id) (s : System) (place : Place) :
    (s.setPlace id place).places j = s.places j := Function.update_of_ne h ..

/-- Only a call that awaits its answer, or was dropped then, has a message on its way. -/
theorem Consistent.free (h : Consistent base s history order phase log) (id : ℕ)
    (hawaiting : ∀ message, s.places id ≠ some (.awaiting message))
    (hdropped : s.places id ≠ some .dropped) : ∀ m ∈ s.inFlight, m.respond ≠ id := by
  rintro m hm rfl
  exact (h.flying m hm).2.2.elim (hawaiting m) hdropped

/-- A call that has no message on its way moves on. -/
theorem Consistent.move (h : Consistent base s history order phase log) {place : Place}
    {p : Phase Ask Outcome}
    (hatomic : Atomic (logObject base) history' order' (Function.update phase id p) log)
    (hthread : s'.thread = s.thread) (hflying : s'.inFlight = s.inFlight)
    (hplaces : s'.places = Function.update s.places id (some place))
    (hfree : ∀ m ∈ s.inFlight, m.respond ≠ id)
    (hprogress : Progress s.thread.deeds p id (some place))
    (hacknowledged : Acknowledged s.thread.deeds order') :
    Consistent base s' history' order' (Function.update phase id p) log := by
  refine ⟨hatomic, ?_, h.keys, ?_, ?_, fun m hm => ?_, fun j => ?_, ?_⟩
  · rw [hthread]
    exact h.tracks
  · rw [hthread]
    exact h.logged
  · rw [hflying]
    exact h.distinct
  · rw [hflying] at hm
    rw [hplaces, Function.update_of_ne (hfree m hm), Function.update_of_ne (hfree m hm), hthread]
    exact h.flying m hm
  · rw [hthread, hplaces]
    by_cases hj : j = id
    · subst hj
      rw [Function.update_self, Function.update_self]
      exact hprogress
    · rw [Function.update_of_ne hj, Function.update_of_ne hj]
      exact h.progress j
  · rw [hthread]
    exact hacknowledged

/-- A call is made.
SOURCE: crates/wal/src/wal.rs:149-155, 174-176 -/
theorem Consistent.call (h : Consistent base s history order phase log) (ask : Ask) (loan : Loan)
    (hplace : s.places id = none) :
    ∃ order' phase', Consistent base ({ s with loan := loan }.setPlace id (ask.first id))
      (history ++ [.called id ask]) order' phase' log := by
  have hbefore := h.progress id
  rw [hplace] at hbefore
  obtain ⟨hsilent, habsent⟩ := hbefore
  have hfree := h.free id (by rw [hplace]; exact nofun) (by rw [hplace]; exact nofun)
  have hcalled := h.atomic.call ask habsent
  rcases ask with (_ | ⟨m, rest⟩) | _ | ⟨bounds, at_, limit⟩
  · -- a write of nothing is told at once
    have hwaiting : Function.update phase id (.pending (.write [])) id = .pending (.write []) :=
      Function.update_self ..
    have htold := hcalled.effect hwaiting (.wrote log [])
    rw [Function.update_idem, List.append_nil] at htold
    exact ⟨_, _, h.move htold rfl rfl rfl hfree rfl (h.acknowledged.concat fun _ _ => rfl)⟩
  · exact ⟨_, _, h.move hcalled rfl rfl rfl hfree ⟨rfl, hsilent, rfl⟩ h.acknowledged⟩
  · exact ⟨_, _, h.move hcalled rfl rfl rfl hfree ⟨rfl, hsilent, rfl⟩ h.acknowledged⟩
  · exact ⟨_, _, h.move hcalled rfl rfl rfl hfree rfl h.acknowledged⟩

/-- A message is refused by any log. -/
theorem logStep_refused (log : List Mutation) (message : Message) :
    LogStep log message.ask message.refused log := by
  cases message with
  | write respond request => exact .notWritten log _ _
  | checkpoint respond => exact .checkpointed log _

theorem refused_ne_ok (message : Message) (revisions : List Revision) :
    message.refused ≠ .write (.ok revisions) := by
  cases message <;> exact nofun

/-- A message is sent, or its sender is told that nobody listens.
SOURCE: crates/wal/src/writer.rs:83-86, 98-101 -/
theorem Consistent.refuse (h : Consistent base s history order phase log) {message : Message}
    (hplace : s.places id = some (.sending message)) :
    ∃ order' phase', Consistent base (s.setPlace id (.told message.refused)) history order' phase'
      log := by
  have hbefore := h.progress id
  rw [hplace] at hbefore
  obtain ⟨-, -, hpending⟩ := hbefore
  have hfree := h.free id (by rw [hplace]; exact nofun) (by rw [hplace]; exact nofun)
  exact ⟨_, _, h.move (h.atomic.effect hpending (logStep_refused log message)) rfl rfl rfl hfree rfl
    (h.acknowledged.concat fun revisions hok => absurd hok (refused_ne_ok message revisions))⟩

theorem Consistent.send (h : Consistent base s history order phase log) {message : Message}
    (hplace : s.places id = some (.sending message)) :
    Consistent base ({ s with queue := s.queue ++ [message] }.setPlace id (.awaiting message))
      history order phase log := by
  have hbefore := h.progress id
  rw [hplace] at hbefore
  obtain ⟨rfl, hsilent, hpending⟩ := hbefore
  have hfree := h.free message.respond (by rw [hplace]; exact nofun)
    (by rw [hplace]; exact nofun)
  have hflying : ({ s with queue := s.queue ++ [message] }.setPlace message.respond
      (.awaiting message)).inFlight = s.inFlight ++ [message] := (List.append_assoc ..).symm
  refine ⟨h.atomic, h.tracks, h.keys, h.logged, ?_, fun m hm => ?_, fun j => ?_, h.acknowledged⟩
  · rw [hflying, List.map_append, List.nodup_append]
    refine ⟨h.distinct, List.nodup_singleton _, fun a ha b hb heq => ?_⟩
    obtain ⟨m, hm, rfl⟩ := List.mem_map.mp ha
    obtain rfl := List.mem_singleton.mp hb
    exact hfree m hm heq
  · rw [hflying] at hm
    rcases List.mem_append.mp hm with hm | hm
    · rw [System.places_setPlace_of_ne (hfree m hm)]
      exact h.flying m hm
    · obtain rfl := List.mem_singleton.mp hm
      exact ⟨hpending, hsilent, .inl (System.places_setPlace_self ..)⟩
  · by_cases hj : j = message.respond
    · subst hj
      rw [System.places_setPlace_self]
      exact ⟨rfl, .inl ⟨hsilent, hpending⟩⟩
    · rw [System.places_setPlace_of_ne hj]
      exact h.progress j

/-- A future is dropped where it waits; what it sent stays on its way. -/
theorem Consistent.drop (h : Consistent base s history order phase log) (loan : Loan) :
    Consistent base ({ s with loan := loan }.setPlace id .dropped) history order phase log := by
  refine ⟨h.atomic, h.tracks, h.keys, h.logged, h.distinct, fun m hm => ?_, fun j => ?_,
    h.acknowledged⟩
  · by_cases hj : m.respond = id
    · obtain ⟨hphase, hquiet, -⟩ := h.flying m hm
      exact ⟨hphase, hquiet, .inr (by rw [hj, System.places_setPlace_self])⟩
    · rw [System.places_setPlace_of_ne hj]
      exact h.flying m hm
  · by_cases hj : j = id
    · subst hj
      rw [System.places_setPlace_self]
      trivial
    · rw [System.places_setPlace_of_ne hj]
      exact h.progress j

/-- A read leaves the store alone. -/
theorem System.withStore_eq {calls : List Storage.Reply} {store : KvStore}
    (h : (s.storeFor calls).Later store) : s.withStore store = s := by
  obtain ⟨⟨commits, durable, replies⟩, state⟩ := store
  obtain ⟨hstate, hcommits, hdurable, -⟩ := h
  obtain rfl : state = s.thread.writer.host.store.state := hstate
  obtain rfl : commits = s.thread.writer.host.store.engine.commits := hcommits
  obtain rfl : durable = s.thread.writer.host.store.engine.durable := hdurable
  rfl

/-- A read of the store.
SOURCE: crates/mvcc/src/store.rs:225-261 -/
theorem Consistent.read (h : Consistent base s history order phase log) {bounds : Bounds}
    {at_ limit : Option ℕ} (calls : List Storage.Reply)
    (hplace : s.places id = some (.reading bounds at_ limit)) :
    ∃ order' phase', Consistent base (s.read id bounds at_ limit calls) history order' phase'
      log := by
  have hpending := h.progress id
  rw [hplace] at hpending
  have hfree := h.free id (by rw [hplace]; exact nofun) (by rw [hplace]; exact nofun)
  have htracks : Tracks (s.storeFor calls) log := ⟨h.tracks.count, h.tracks.state, h.tracks.newest⟩
  rcases hexec : (range bounds at_ limit).exec (s.storeFor calls) with ⟨result, store⟩
  obtain ⟨hlater, hresult⟩ := htracks.range_result h.keys bounds at_ limit hexec
  have hsame := System.withStore_eq hlater
  unfold System.read
  rw [hexec]
  have htold : result ≠ .error .crash → ∃ order' phase', Consistent base
      ((s.withStore store).setPlace id (.told (.range result))) history order' phase' log := by
    intro hne
    have hdone := h.atomic.effect hpending (hresult.resolve_left hne)
    rw [hsame]
    exact ⟨_, _, h.move hdone rfl rfl rfl hfree rfl (h.acknowledged.concat nofun)⟩
  rcases result with (e | _ | _) | records
  · exact htold nofun
  · exact htold nofun
  · dsimp only
    rw [hsame]
    exact ⟨_, _, h.still rfl rfl h.tracks (List.sublist_append_right _ _).subperm⟩
  · exact htold nofun

/-- A call returns what it was told, or what its channel holds. -/
theorem Consistent.give (h : Consistent base s history order phase log) {outcome : Outcome}
    (hdone : phase id = .done outcome) :
    Consistent base (s.giving id outcome).1 (history ++ [.returned id outcome]) order
      (Function.update phase id .finished) log := by
  have hfree : ∀ m ∈ s.inFlight, m.respond ≠ id := by
    rintro m hm rfl
    rw [(h.flying m hm).1] at hdone
    cases hdone
  exact h.move (h.atomic.ret hdone) rfl rfl rfl hfree rfl h.acknowledged

/-- A call returns because nobody is left to answer it.
SOURCE: crates/wal/src/writer.rs:88, 103 -/
theorem Consistent.abandon (h : Consistent base s history order phase log) {message : Message}
    (hplace : s.places id = some (.awaiting message))
    (hanswer : message.answer s.thread.deeds = none) (hheld : s.held id = false) :
    ∃ order' phase', Consistent base (s.giving id message.refused).1
      (history ++ [.returned id message.refused]) order' phase' log := by
  have hbefore := h.progress id
  rw [hplace] at hbefore
  obtain ⟨-, ⟨-, hpending⟩ | ⟨outcome, hsome, -⟩⟩ := hbefore
  · have hfree : ∀ m ∈ s.inFlight, m.respond ≠ id := fun m hm hid =>
      Bool.false_ne_true (hheld.symm.trans (System.held_iff.mpr ⟨m, hm, hid⟩))
    exact ⟨_, _, h.move (h.atomic.complete hpending (logStep_refused log message)) rfl rfl rfl
      hfree rfl (h.acknowledged.concat fun revisions hok =>
        absurd hok (refused_ne_ok message revisions))⟩
  · rw [hanswer] at hsome
    cases hsome

end Callers

/-! ## Every run -/

section Runs

variable [Crc32] {base log : List Mutation} {s₀ s s' : System} {history : List (Mark Ask Outcome)}
  {order : List (Effect Ask Outcome)} {phase : ℕ → Phase Ask Outcome} {interval : ℕ}

/-- A step of any party. -/
theorem Consistent.perform (h : Consistent base s history order phase log) {action : Action}
    {mark : Option (Mark Ask Outcome)} (ran : s.perform interval action = some (s', mark)) :
    ∃ order' phase' log', Consistent base s' (history ++ mark.toList) order' phase' log' := by
  unfold System.perform at ran
  split at ran
  · cases ran
  cases action with
  | call id ask =>
    dsimp only at ran
    split at ran
    · rename_i loan hplace hloan
      cases ran
      obtain ⟨order', phase', hafter⟩ := h.call ask loan hplace
      exact ⟨order', phase', log, hafter⟩
    · cases ran
  | send id =>
    dsimp only at ran
    split at ran
    · rename_i message hplace
      split at ran
      · cases ran
        obtain ⟨order', phase', hafter⟩ := h.refuse hplace
        exact ⟨order', phase', log, by rwa [Option.toList_none, List.append_nil]⟩
      · split at ran
        · cases ran
          exact ⟨order, phase, log, by
            rw [Option.toList_none, List.append_nil]
            exact h.send hplace⟩
        · cases ran
    · cases ran
  | read id calls =>
    dsimp only at ran
    split at ran
    · rename_i bounds at_ limit hplace
      cases ran
      obtain ⟨order', phase', hafter⟩ := h.read calls hplace
      exact ⟨order', phase', log, by rwa [Option.toList_none, List.append_nil]⟩
    · cases ran
  | ret id =>
    dsimp only at ran
    have hbefore := h.progress id
    split at ran
    · rename_i outcome hplace
      cases ran
      rw [hplace] at hbefore
      exact ⟨_, _, _, h.give hbefore⟩
    · rename_i message hplace
      rw [hplace] at hbefore
      split at ran
      · rename_i outcome hanswer
        cases ran
        obtain ⟨rfl, ⟨hsilent, -⟩ | ⟨outcome', hsome, hdone⟩⟩ := hbefore
        · rw [hsilent.answer] at hanswer
          cases hanswer
        · rw [hanswer] at hsome
          cases hsome
          exact ⟨_, _, _, h.give hdone⟩
      · rename_i hanswer
        split at ran
        · cases ran
        · rename_i hheld
          cases ran
          obtain ⟨order', phase', hafter⟩ := h.abandon hplace hanswer (Bool.eq_false_iff.mpr hheld)
          exact ⟨order', phase', log, hafter⟩
    · cases ran
  | drop id =>
    dsimp only at ran
    split at ran
    · cases ran
      exact ⟨order, phase, log, by
        rw [Option.toList_none, List.append_nil]
        exact h.drop _⟩
    · cases ran
      exact ⟨order, phase, log, by
        rw [Option.toList_none, List.append_nil]
        exact h.drop _⟩
    · cases ran
  | shutdown =>
    dsimp only at ran
    split at ran
    · cases ran
      exact ⟨order, phase, log, by
        rw [Option.toList_none, List.append_nil]
        exact ⟨h.atomic, h.tracks, h.keys, h.logged, h.distinct, h.flying, h.progress,
          h.acknowledged⟩⟩
    · cases ran
  | join =>
    dsimp only at ran
    split at ran
    · split at ran
      · cases ran
        exact ⟨order, phase, log, by
          rw [Option.toList_none, List.append_nil]
          exact ⟨h.atomic, h.tracks, h.keys, h.logged, h.distinct, h.flying, h.progress,
          h.acknowledged⟩⟩
      · cases ran
    · cases ran
  | advance =>
    obtain ⟨s₁, hadvance, heq⟩ := Option.map_eq_some_iff.mp ran
    cases heq
    obtain ⟨order', phase', log', hafter⟩ := h.advance hadvance
    exact ⟨order', phase', log', by rwa [Option.toList_none, List.append_nil]⟩

omit [Crc32] in
/-- A log with no call made of it yet. -/
theorem consistent_start {w : Writer} (h : Tracks w.host.store base)
    (hkeys : ∀ m ∈ base, m.key.length ≤ u32Max) (spawned : Bool) :
    Consistent base (System.start w spawned) [] [] (fun _ => .absent) base := by
  have hflying : (System.start w spawned).inFlight = [] := by
    cases spawned <;> rfl
  refine ⟨.start, h, hkeys, (List.append_nil _).symm, ?_, ?_, fun id => ⟨silent_nil id, rfl⟩,
    fun _ he => absurd he List.not_mem_nil⟩
  · rw [hflying]
    exact List.nodup_nil
  · rw [hflying]
    exact fun m hm => absurd hm List.not_mem_nil

/-- The system stays where the atomic object is. -/
theorem Interleaving.consistent (h : Interleaving interval s₀ history s)
    (hstart : Consistent base s₀ [] [] (fun _ => .absent) base) :
    ∃ order phase log, Consistent base s history order phase log := by
  induction h with
  | start => exact ⟨_, _, _, hstart⟩
  | performed action before ran ih =>
    obtain ⟨order, phase, log, hconsistent⟩ := ih
    exact hconsistent.perform ran

/-- A log that is opened over a writer in step has what that writer has. -/
theorem Steady.consistent {w : Writer} (h : Steady w log) (replies : List Reply)
    (calls : List Storage.Reply) (spawned : Bool) :
    Consistent log (System.opened w replies calls spawned) [] [] (fun _ => .absent) log := by
  obtain ⟨start, older, active, hfollows, -, -⟩ := h.given replies calls
  exact consistent_start hfollows.tracks (fun m hm => (hfollows.encodable m hm).key_le) spawned

theorem Life.consistent {options : Options} {w : Writer} {settled : ℕ}
    (h : Life options (.up w) log settled) (replies : List Reply) (calls : List Storage.Reply)
    (spawned : Bool) :
    Consistent log (System.opened w replies calls spawned) [] [] (fun _ => .absent) log :=
  h.sound.of_up.2.consistent replies calls spawned

/-- The log is linearizable. However the steps of callers and thread fall between each other,
whatever is refused or cut short, whoever is cancelled and whether or not the log is shut down or
its thread dies, there is one order in which every write that returned and every read that
returned takes effect at once, in keeping with when they were called and returned, and in which
each is told what it was told.
SOURCE: crates/wal/src/wal.rs:149-182, crates/wal/src/writer.rs:74-226,
crates/mvcc/src/store.rs:225-261 -/
theorem log_linearizable {options : Options} {w : Writer} {settled : ℕ} {replies : List Reply}
    {calls : List Storage.Reply} {spawned : Bool} (hlife : Life options (.up w) log settled)
    (h : Interleaving interval (System.opened w replies calls spawned) history s) :
    ∃ order, Linearization (logObject log) history order := by
  obtain ⟨order, phase, log', hconsistent⟩ :=
    h.consistent (hlife.consistent replies calls spawned)
  exact ⟨order, hconsistent.atomic.linearization⟩

/-- The steps taken one after another are an interleaving. -/
theorem Interleaving.performs (h : Interleaving interval s₀ history s) {actions : List Action}
    {marks : List (Mark Ask Outcome)} (ran : s.performs interval actions = some (s', marks)) :
    Interleaving interval s₀ (history ++ marks) s' := by
  induction actions generalizing s history marks with
  | nil =>
    cases ran
    rwa [List.append_nil]
  | cons action rest ih =>
    rw [System.performs] at ran
    split at ran
    · cases ran
    · rename_i s₁ mark hfirst
      split at ran
      · cases ran
      · rename_i s₂ marks' hrest
        cases ran
        have hboth := ih (h.performed action hfirst) hrest
        rwa [List.append_assoc] at hboth

omit [Crc32] in
theorem LogStep.added {log log' : List Mutation} {id : ℕ} {ask : Ask} {outcome : Outcome}
    (h : LogStep log ask outcome log') : log' = log ++ addedBy ⟨id, ask, outcome⟩ := by
  cases h with
  | wrote mutations => rfl
  | notWritten | checkpointed | found | future | panicked | notRead => exact (List.append_nil _).symm

omit [Crc32] in
/-- Along an order the writes that succeed add their mutations, and nothing else changes. -/
theorem added_of_runs {start log log' : List Mutation} {effects : List (Effect Ask Outcome)}
    (h : (logObject start).Runs log effects log') : log' = log ++ added effects := by
  induction effects generalizing log with
  | nil => exact (Eq.symm h).trans (List.append_nil log).symm
  | cons e rest ih =>
    obtain ⟨t, hstep, hrest⟩ := h
    have hadded : added (e :: rest) = addedBy e ++ added rest := rfl
    rw [ih hrest, LogStep.added hstep, List.append_assoc, hadded]

omit [Crc32] in
/-- What a write was answered with stands for its mutations from then on. -/
theorem LogStep.stamped {log log' : List Mutation} {mutations : List Mutation}
    {revisions : List Revision}
    (h : LogStep log (.write mutations) (.write (.ok revisions)) log') (more : List Mutation) :
    revisions.length = mutations.length ∧
      ∀ e ∈ revisions.zip mutations, e ∈ stamped (log' ++ more) := by
  cases h with
  | wrote =>
    refine ⟨by rw [List.length_map, length_stampedFrom], fun e he => ?_⟩
    rw [zip_stampedFrom] at he
    rw [List.append_assoc, stamped_append, stampedFrom_append]
    exact List.mem_append_right _ (List.mem_append_left _ he)

omit [Crc32] in
/-- A write in the order stands for its mutations wherever more came after it. -/
theorem stamped_of_runs {start log log' : List Mutation}
    {earlier between : List (Effect Ask Outcome)} {i : ℕ} {mutations : List Mutation}
    {revisions : List Revision}
    (h : (logObject start).Runs log
      (earlier ++ ⟨i, .write mutations, .write (.ok revisions)⟩ :: between) log')
    (more : List Mutation) :
    revisions.length = mutations.length ∧
      ∀ e ∈ revisions.zip mutations, e ∈ stamped (log' ++ more) := by
  obtain ⟨t, -, t', hwrote, hbetween⟩ := h.split
  rw [added_of_runs hbetween, List.append_assoc]
  exact LogStep.stamped hwrote _

/-- A read that is made after a write was acknowledged finds what that write wrote. There is an
order that explains the history, in which the write comes before the read; so the read looks at the
mutations of the writes that come before it, that write's among them under the revisions it was
answered with, and finds what these say of the revision asked for, or of the newest one, which is
no older.
SOURCE: crates/wal/src/wal.rs:149-155 -/
theorem read_after_write {options : Options} {w : Writer} {settled : ℕ} {replies : List Reply}
    {calls : List Storage.Reply} {spawned : Bool} {before after : List (Mark Ask Outcome)} {i j : ℕ}
    {mutations : List Mutation} {revisions : List Revision} {bounds : Bounds}
    {at_ limit : Option ℕ} {records : List Record} (hlife : Life options (.up w) log settled)
    (h : Interleaving interval (System.opened w replies calls spawned) (before ++ after) s)
    (hwrite : .called i (.write mutations) ∈ before)
    (hacknowledged : .returned i (.write (.ok revisions)) ∈ before)
    (hread : .called j (.range bounds at_ limit) ∈ after)
    (hfound : .returned j (.range (.ok records)) ∈ after) :
    revisions.length = mutations.length ∧ ∃ earlier later,
      Linearization (logObject log) (before ++ after)
        (earlier ++ ⟨j, .range bounds at_ limit, .range (.ok records)⟩ :: later) ∧
      ⟨i, .write mutations, .write (.ok revisions)⟩ ∈ earlier ∧
      (∀ e ∈ revisions.zip mutations, e ∈ stamped (log ++ added earlier)) ∧
      at_.getD (log ++ added earlier).length ≤ (log ++ added earlier).length ∧
      ∃ listed, Lists (stamped (log ++ added earlier)) bounds
          (at_.getD (log ++ added earlier).length) listed ∧
        records = capped limit listed := by
  obtain ⟨order, hlinear⟩ := log_linearizable hlife h
  obtain ⟨earlier, between, later, rfl⟩ := hlinear.ordered rfl (List.mem_append_left _ hwrite)
    hacknowledged hread (List.mem_append_right _ hfound)
  obtain ⟨last, hruns⟩ := hlinear.legal
  obtain ⟨seen, hseen, _, hfinds, -⟩ := hruns.split
  obtain ⟨hlength, hstands⟩ := stamped_of_runs hseen []
  rw [List.append_nil] at hstands
  obtain rfl := added_of_runs hseen
  cases hfinds with
  | @found _ _ listed _ past lists =>
    exact ⟨hlength, _, later, hlinear, List.mem_append_right _ (List.mem_cons_self ..), hstands,
      past, listed, lists, rfl⟩

end Runs

/-! ## Three callers -/

/-- Two writes that share a batch, the second of which is taken in first, up to where the first
was acknowledged. -/
def sharedWrites : List Action :=
  [.call 0 (.write [.put [107] [1]]), .call 1 (.write [.put [107] [2], .delete [108]]), .send 1,
    .advance, .send 0, .advance, .advance, .advance, .advance, .ret 0]

/-- A read made then. -/
def laterRead : List Action :=
  [.call 2 (.range Bounds.all none none), .read 2 [], .ret 2, .ret 1]

theorem log_linearizable_shared : ∃ history s, @Interleaving crc32fast 1
      (System.opened freshWriter [] [] true) history s ∧ history.length = 6 ∧
    ∃ order, Linearization (logObject []) history order := by
  have hruns : ((@System.performs crc32fast 1 (System.opened freshWriter [] [] true)
      (sharedWrites ++ laterRead)).map (·.2.length)) = some 6 := by decide +kernel
  obtain ⟨⟨s, history⟩, hperforms, hlength⟩ := Option.map_eq_some_iff.mp hruns
  have hran := @Interleaving.performs crc32fast _ _ _ [] _ (@Interleaving.start crc32fast 1 _) _ _
    hperforms
  exact ⟨history, s, hran, hlength, @log_linearizable crc32fast _ _ _ _ _ _ _ _ _ _
    life_freshWriter hran⟩

/-- What the first writer and the reader were told. -/
def writeTold : List (Mark Ask Outcome) → Option (List Revision)
  | [.called 0 (.write [.put [107] [1]]), .called 1 _, .returned 0 (.write (.ok revisions))] =>
    some revisions
  | _ => none

def readTold : List (Mark Ask Outcome) → Option (List Record)
  | [.called 2 (.range ⟨.unbounded, .unbounded⟩ none none), .returned 2 (.range (.ok records)),
      .returned 1 _] => some records
  | _ => none

theorem read_after_write_shared : ∃ (revisions : List Revision) (records : List Record)
    (before after : List (Mark Ask Outcome)) (s : System),
    @Interleaving crc32fast 1 (System.opened freshWriter [] [] true) (before ++ after) s ∧
      writeTold before = some revisions ∧ readTold after = some records ∧
      revisions.length = [Mutation.put [107] [1]].length ∧ ∃ earlier later,
        Linearization (logObject []) (before ++ after)
          (earlier ++ ⟨2, .range Bounds.all none none, .range (.ok records)⟩ :: later) ∧
        ⟨0, .write [.put [107] [1]], .write (.ok revisions)⟩ ∈ earlier ∧
        (∀ e ∈ revisions.zip [.put [107] [1]], e ∈ stamped ([] ++ added earlier)) ∧
        none.getD ([] ++ added earlier).length ≤ ([] ++ added earlier).length ∧
        ∃ listed, Lists (stamped ([] ++ added earlier)) Bounds.all
            (none.getD ([] ++ added earlier).length) listed ∧
          records = capped none listed := by
  have hruns : ((@System.performs crc32fast 1 (System.opened freshWriter [] [] true)
      sharedWrites).bind fun first => (writeTold first.2).bind fun revisions =>
        (@System.performs crc32fast 1 first.1 laterRead).bind fun second =>
          (readTold second.2).map fun records => (revisions.length, records.length)) =
      some (1, 1) := by decide +kernel
  obtain ⟨⟨s, before⟩, hfirst, hruns⟩ := Option.bind_eq_some_iff.mp hruns
  obtain ⟨revisions, hwrite, hruns⟩ := Option.bind_eq_some_iff.mp hruns
  obtain ⟨⟨s', after⟩, hsecond, hruns⟩ := Option.bind_eq_some_iff.mp hruns
  obtain ⟨records, hread, -⟩ := Option.map_eq_some_iff.mp hruns
  have hran := @Interleaving.performs crc32fast _ _ _ [] _ (@Interleaving.start crc32fast 1 _) _ _
    hfirst
  have hran' := @Interleaving.performs crc32fast _ _ _ _ _ hran _ _ hsecond
  have hbefore : .called 0 (.write [.put [107] [1]]) ∈ before ∧
      .returned 0 (.write (.ok revisions)) ∈ before := by
    dsimp only at hwrite
    unfold writeTold at hwrite
    split at hwrite
    · cases hwrite
      exact ⟨by simp, by simp⟩
    · cases hwrite
  have hafter : .called 2 (.range Bounds.all none none) ∈ after ∧
      .returned 2 (.range (.ok records)) ∈ after := by
    dsimp only at hread
    unfold readTold at hread
    split at hread
    · cases hread
      exact ⟨by simp [Bounds.all], by simp⟩
    · cases hread
  exact ⟨revisions, records, before, after, s', hran', hwrite, hread,
    @read_after_write crc32fast _ _ _ _ _ _ _ _ _ _ _ _ _ _ _ _ _ _ _ life_freshWriter hran'
      hbefore.1 hbefore.2 hafter.1 hafter.2⟩

end Hadar.Wal
