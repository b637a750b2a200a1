import Hadar.Interface.Mailbox
import Hadar.Analysis.Lives
import Hadar.Analysis.Stopping
import Mathlib.Data.List.Nodup

/-!
# The writer's loop serves everyone once, in order

A turn of the loop receives some messages, retires the writes among them as one batch, and takes
a checkpoint for the last one who asked. What the thread did is the deeds of its turns end to
end, and the messages its turns received make up the queue. The contract follows turn by turn.
-/

set_option autoImplicit false

namespace Hadar.Wal

open Hadar.Lib Hadar.Lib.Prog Hadar.Storage Hadar.Mvcc

/-! ## One turn -/

/-- What the thread tells the callers of a batch. -/
def answersOf (batch : List (ℕ × Request)) (outcome : Except Error (List Revision)) :
    List (ℕ × Except Error (List Revision)) :=
  (batch.map (·.1)).zip (answer (batch.map (·.2)) outcome)

/-- What one turn of the loop received, and what its calls returned. -/
structure Round where
  received : List Message
  outcome : Except Error (List Revision)
  compaction : Option (Except Error ℕ)

namespace Round

def batch (r : Round) : List (ℕ × Request) := writesOf r.received

/-- The checkpoint left in the slot. -/
def requested (r : Round) : Option ℕ := (checkpointsOf r.received).getLast?

def retiring (r : Round) : List Deed :=
  if r.batch = [] then [] else
    .retired r.batch r.outcome :: (answersOf r.batch r.outcome).map fun p => .answered p.1 p.2

def compacting (r : Round) : List Deed :=
  match r.compaction with
  | none => []
  | some outcome =>
    .compacted outcome :: (r.requested.map fun respond => Deed.checkpointed respond outcome).toList

def deeds (r : Round) : List Deed := r.received.map .received ++ r.retiring ++ r.compacting

/-- The batch is no larger than it may be, it was given a revision for each of its mutations or
none, and a checkpoint that was requested was taken. -/
structure Fits (r : Round) : Prop where
  sized : r.batch.length ≤ maxBatch
  complete : ∀ revisions, r.outcome = .ok revisions →
    revisions.length = (mutationsOf (r.batch.map (·.2))).length
  taken : r.requested.isSome → r.compaction.isSome

end Round

/-! ## Receiving -/

section Receiving

theorem writesOf_append (a b : List Message) : writesOf (a ++ b) = writesOf a ++ writesOf b :=
  List.filterMap_append

theorem checkpointsOf_append (a b : List Message) :
    checkpointsOf (a ++ b) = checkpointsOf a ++ checkpointsOf b := List.filterMap_append

theorem mem_checkpointsOf {messages : List Message} {respond : ℕ} :
    respond ∈ checkpointsOf messages ↔ .checkpoint respond ∈ messages := by
  rw [checkpointsOf, List.mem_filterMap]
  constructor
  · rintro ⟨_ | _, hmem, heq⟩
    · cases heq
    · cases heq
      exact hmem
  · exact fun hmem => ⟨_, hmem, rfl⟩

theorem foldl_receive (messages : List Message) (pending : Pending) :
    messages.foldl Pending.receive pending =
      ⟨pending.batch ++ writesOf messages, (checkpointsOf messages).getLast?.or pending.requested⟩ := by
  induction messages generalizing pending with
  | nil => simp [writesOf, checkpointsOf]
  | cons message rest ih =>
    rw [List.foldl_cons, ih]
    cases message with
    | write respond request => simp [Pending.receive, writesOf, checkpointsOf]
    | checkpoint respond =>
      cases hlast : (checkpointsOf rest).getLast? <;>
        simp_all [Pending.receive, writesOf, checkpointsOf, List.getLast?_cons]

/-- The inner loop takes the next messages of the queue, and never overfills the batch.
SOURCE: crates/wal/src/writer.rs:146-152 -/
theorem drain_spec (queue : List Message) (polls : List Bool) (pending : Pending) :
    (drain queue polls pending).received ++ (drain queue polls pending).queue = queue ∧
      (drain queue polls pending).pending =
        (drain queue polls pending).received.foldl Pending.receive pending ∧
      (pending.batch.length ≤ maxBatch →
        (drain queue polls pending).pending.batch.length ≤ maxBatch) := by
  fun_induction drain queue polls pending with
  | case1 => exact ⟨rfl, rfl, id⟩
  | case2 message rest pending hroom polls drained ih =>
    obtain ⟨hqueue, hpending, hsized⟩ := ih
    refine ⟨congrArg (message :: ·) hqueue, hpending, fun _ => hsized ?_⟩
    cases message with
    | write respond request =>
      simp only [Pending.receive, List.length_append, List.length_singleton]
      omega
    | checkpoint respond => exact Nat.le_of_lt hroom
  | case3 => exact ⟨rfl, rfl, id⟩
  | case4 => exact ⟨rfl, rfl, id⟩
  | case5 => exact ⟨rfl, rfl, id⟩

/-- A turn of the loop takes the next messages of the queue, and is left with the writes among them
and the checkpoint requested last.
SOURCE: crates/wal/src/writer.rs:140-152 -/
theorem drain_first {message : Message} {rest : List Message} {polls : List Bool} {drained : Drained}
    (h : drain rest polls (Pending.start.receive message) = drained) :
    message :: rest = message :: drained.received ++ drained.queue ∧
      drained.pending = ⟨writesOf (message :: drained.received),
        (checkpointsOf (message :: drained.received)).getLast?⟩ ∧
      (writesOf (message :: drained.received)).length ≤ maxBatch := by
  subst h
  obtain ⟨hqueue, hpending, hsized⟩ := drain_spec rest polls (Pending.start.receive message)
  rw [← List.foldl_cons, foldl_receive] at hpending
  have hfirst : (Pending.start.receive message).batch.length ≤ maxBatch := by
    cases message <;> simp [Pending.receive, Pending.start, maxBatch]
  refine ⟨by rw [List.cons_append, hqueue], ?_, ?_⟩
  · rw [hpending]
    exact congrArg (Pending.mk _) Option.or_none
  · have hsized := hsized hfirst
    rw [hpending] at hsized
    exact hsized

end Receiving

/-! ## The loop -/

section Loop

variable [Crc32] {interval : ℕ} {t : Thread}

omit [Crc32] in
theorem ends_note (deeds : List Deed) : Ends (Thread.note deeds) t
    (fun _ t' => t' = { t with deeds := t.deeds ++ deeds }) (fun _ _ => False) fun _ => False :=
  ends_modify.mpr rfl

omit [Crc32] in
/-- The writer's own code notes nothing. -/
theorem ends_onWriter {α : Type} (p : Prog Writer Error α) : Ends (Thread.onWriter p) t
    (fun _ t' => t'.deeds = t.deeds) (fun _ t' => t'.deeds = t.deeds)
    fun t' => t'.deeds = t.deeds :=
  ends_zoom.mpr (Ends.mono (ends_exec _ _) (fun _ _ _ => rfl) (fun _ _ _ => rfl) fun _ _ => rfl)

omit [Crc32] in
/-- What it returns besides. -/
theorem ends_onWriter_of {α : Type} {post : α → Prop} {p : Prog Writer Error α}
    (hp : Ends p t.writer (fun a _ => post a) (fun _ _ => True) fun _ => True) :
    Ends (Thread.onWriter p) t (fun a t' => post a ∧ t'.deeds = t.deeds)
      (fun _ t' => t'.deeds = t.deeds) fun t' => t'.deeds = t.deeds :=
  ends_zoom.mpr (Ends.mono hp (fun _ _ h => ⟨h, rfl⟩) (fun _ _ _ => rfl) fun _ _ => rfl)

/-- A batch that was retired took a revision for each of its mutations.
SOURCE: crates/wal/src/writer.rs:175-208 -/
theorem ends_retire_length (batch : List Request) (w : Writer) : Ends (retire batch) w
    (fun revisions _ => revisions.length = (mutationsOf batch).length) (fun _ _ => True)
    fun _ => True := by
  unfold retire
  split
  · exact ends_fail.mpr trivial
  · refine ends_bind.mpr (Ends.mono (ends_exec _ _) (fun _ w₁ _ => ?_) (fun _ _ _ => trivial)
      fun _ _ => trivial)
    refine ends_bind.mpr (Ends.mono (ends_exec _ _) (fun _ w₂ _ => ?_) (fun _ _ _ => trivial)
      fun _ _ => trivial)
    refine ends_bind.mpr (ends_modify.mpr (ends_bind.mpr (ends_get.mpr ?_)))
    refine ends_zoom.mpr (ends_zoom.mpr (Ends.mono (ends_apply_any _ _) (fun revisions _ h => ?_)
      (fun _ _ _ => trivial) fun _ _ => trivial))
    rw [h.2.1, List.length_map, length_stampedFrom]

theorem ends_retireBatch (r : Round) : Ends (retireBatch r.batch) t
    (fun _ t' => ∃ outcome, t'.deeds = t.deeds ++ { r with outcome := outcome }.retiring ∧
      ∀ revisions, outcome = .ok revisions →
        revisions.length = (mutationsOf (r.batch.map (·.2))).length)
    (fun _ _ => False) fun t' => t'.deeds = t.deeds := by
  unfold retireBatch
  cases hbatch : r.batch with
  | nil =>
    refine ends_pure.mpr ⟨.ok [], ?_, fun revisions h => by cases h; rfl⟩
    have hempty : { r with outcome := .ok [] }.retiring = [] := if_pos hbatch
    rw [hempty, List.append_nil]
  | cons first rest =>
    rw [← hbatch]
    have hne : r.batch ≠ [] := by rw [hbatch]; exact List.cons_ne_nil _ _
    rw [if_neg (by simpa using hne)]
    have hretire := ends_onWriter_of (ends_retire_length (r.batch.map (·.2)) t.writer)
    have hafter : ∀ (outcome : Except Error (List Revision)) (t₁ : Thread),
        (∀ revisions, outcome = .ok revisions →
          revisions.length = (mutationsOf (r.batch.map (·.2))).length) → t₁.deeds = t.deeds →
        Ends (do
          Thread.note [.retired r.batch outcome]
          Thread.note (((r.batch.map (·.1)).zip (answer (r.batch.map (·.2)) outcome)).map fun p =>
            .answered p.1 p.2)) t₁
          (fun _ t' => ∃ outcome, t'.deeds = t.deeds ++ { r with outcome := outcome }.retiring ∧
            ∀ revisions, outcome = .ok revisions →
              revisions.length = (mutationsOf (r.batch.map (·.2))).length)
          (fun _ _ => False) fun t' => t'.deeds = t.deeds := by
      intro outcome t₁ hcomplete ht₁
      refine ends_bind.mpr (ends_modify.mpr (ends_modify.mpr ⟨outcome, ?_, hcomplete⟩))
      have hretiring : { r with outcome := outcome }.retiring = .retired r.batch outcome ::
          (answersOf r.batch outcome).map fun p => .answered p.1 p.2 := if_neg hne
      rw [hretiring, ← ht₁]
      simp [answersOf]
    refine ends_bind.mpr (ends_attempt.mpr (Ends.mono hretire (fun revisions t₁ h => ?_)
      (fun e t₁ h => hafter _ t₁ (fun _ hok => by cases hok) h) fun _ h => h))
    refine hafter _ t₁ (fun revisions' hok => ?_) h.2
    cases hok
    exact h.1

omit [Crc32] in
/-- The compaction of a turn, whether it was requested or is due. -/
theorem ends_checkpointIfDue (r : Round) : Ends (checkpointIfDue interval r.requested) t
    (fun _ t' => ∃ compaction, t'.deeds = t.deeds ++ { r with compaction := compaction }.compacting ∧
      (r.requested.isSome → compaction.isSome))
    (fun _ _ => False) fun t' => t'.deeds = t.deeds := by
  unfold checkpointIfDue
  extract_lets reset
  -- a compaction, what is noted of it, and the count that it resets where it succeeded
  have hcompact := ends_onWriter (t := t) (Writer.onHost compact)
  have hreset : ∀ (t₁ : Thread) (outcome : Except Error ℕ) (p : Prog Thread Error Unit)
      (ok : Unit → Thread → Prop), (∀ t₂ : Thread, t₂.deeds = t₁.deeds → Ends p t₂ ok
        (fun _ _ => False) fun t' => t'.deeds = t.deeds) →
      Ends (do
        if outcome.isOk then Thread.onWriter (modify reset)
        p) t₁ ok (fun _ _ => False) fun t' => t'.deeds = t.deeds := by
    intro t₁ outcome p ok hp
    split
    · exact ends_bind.mpr (ends_zoom.mpr (ends_modify.mpr (hp _ rfl)))
    · exact hp _ rfl
  cases hrequested : r.requested with
  | some respond =>
    have hafter : ∀ (outcome : Except Error ℕ) (t₁ : Thread), t₁.deeds = t.deeds →
        Ends (do
          Thread.note [.compacted outcome]
          if outcome.isOk then Thread.onWriter (modify reset)
          Thread.note [.checkpointed respond outcome]) t₁
          (fun _ t' => ∃ compaction, t'.deeds = t.deeds ++
            { r with compaction := compaction }.compacting ∧
              ((some respond).isSome → compaction.isSome))
          (fun _ _ => False) fun t' => t'.deeds = t.deeds := by
      intro outcome t₁ ht₁
      refine ends_bind.mpr (ends_modify.mpr (hreset _ outcome _ _ fun t₂ ht₂ => ?_))
      refine ends_modify.mpr ⟨some outcome, ?_, fun _ => rfl⟩
      have hcompacting : { r with compaction := some outcome }.compacting =
          [.compacted outcome, .checkpointed respond outcome] := by
        simp only [Round.compacting, Round.requested] at hrequested ⊢
        rw [hrequested]
        rfl
      rw [hcompacting, ht₂, ← ht₁]
      simp
    exact ends_bind.mpr (ends_attempt.mpr (Ends.mono hcompact (fun removed t₁ => hafter _ t₁)
      (fun e t₁ => hafter _ t₁) fun _ h => h))
  | none =>
    refine ends_bind.mpr (ends_get.mpr ?_)
    split
    · have hafter : ∀ (outcome : Except Error ℕ) (t₁ : Thread), t₁.deeds = t.deeds →
          Ends (do
            Thread.note [.compacted outcome]
            if outcome.isOk then Thread.onWriter (modify reset)) t₁
            (fun _ t' => ∃ compaction, t'.deeds = t.deeds ++
              { r with compaction := compaction }.compacting ∧
                ((none : Option ℕ).isSome → compaction.isSome))
            (fun _ _ => False) fun t' => t'.deeds = t.deeds := by
        intro outcome t₁ ht₁
        have hcompacting : { r with compaction := some outcome }.compacting =
            [.compacted outcome] := by
          simp only [Round.compacting, Round.requested] at hrequested ⊢
          rw [hrequested]
          rfl
        have hdeeds : t₁.deeds ++ [.compacted outcome] = t.deeds ++
            { r with compaction := some outcome }.compacting := by rw [hcompacting, ht₁]
        refine ends_bind.mpr (ends_modify.mpr ?_)
        split
        · exact ends_zoom.mpr (ends_modify.mpr ⟨_, hdeeds, fun h => by cases h⟩)
        · exact ends_pure.mpr ⟨_, hdeeds, fun h => by cases h⟩
      exact ends_bind.mpr (ends_attempt.mpr (Ends.mono hcompact (fun removed t₁ => hafter _ t₁)
        (fun e t₁ => hafter _ t₁) fun _ h => h))
    · exact ends_pure.mpr ⟨none, by simp [Round.compacting], fun h => by cases h⟩

/-- What the turns of the loop did, and what they left of the queue. A turn that is cut short did
the first of its deeds.
SOURCE: crates/wal/src/writer.rs:126-172 -/
theorem ends_run (queue : List Message) (polls : List Bool) (t : Thread) :
    Ends (run interval queue polls .start) t
      (fun _ t' => ∃ rounds : List Round, (∀ r ∈ rounds, r.Fits) ∧
        (rounds.map Round.received).flatten = queue ∧
        t'.deeds = t.deeds ++ (rounds.map Round.deeds).flatten)
      (fun _ _ => False)
      (fun t' => ∃ (rounds : List Round) (part : List Deed), (∀ r ∈ rounds, r.Fits) ∧
        (rounds.map Round.received).flatten <+: queue ∧
        t'.deeds = t.deeds ++ part ∧ part <+: (rounds.map Round.deeds).flatten) := by
  induction hlength : queue.length using Nat.strong_induction_on generalizing queue polls t with
  | h n ih =>
  subst hlength
  cases queue with
  | nil =>
    rw [run]
    exact ends_pure.mpr ⟨[], by simp, rfl, by simp⟩
  | cons message rest =>
    rw [run]
    obtain ⟨hmessages, hpending, hsize⟩ :=
      drain_first (rfl : drain rest polls (Pending.start.receive message) = _)
    set drained := drain rest polls (Pending.start.receive message) with hdrained
    -- a turn that is cut short is told as if its batch had failed and a checkpoint had been taken
    let failed : Except Error (List Revision) := .error (.io "")
    have hfailed : ∀ revisions, failed ≠ .ok revisions := by simp [failed]
    let r : Round := ⟨message :: drained.received, failed, none⟩
    have hbatch : drained.pending.batch = r.batch := by rw [hpending]; rfl
    have hrequested : drained.pending.requested = r.requested := by rw [hpending]; rfl
    have hmessages : message :: rest = r.received ++ drained.queue := hmessages
    have hshorter : drained.queue.length < (message :: rest).length :=
      Nat.lt_succ_of_le (length_drain rest polls _)
    refine ends_bind.mpr (Ends.mono (ends_note _) (fun (_ : Unit) t₁ ht₁ => ?_)
      (fun _ _ h => h.elim) fun _ h => h.elim)
    subst ht₁
    rw [hbatch, hrequested]
    refine ends_bind.mpr (Ends.mono (ends_retireBatch r) (fun (_ : Unit) t₂ ht₂ => ?_)
      (fun _ _ h => h.elim) fun t₂ ht₂ => ?_)
    case refine_2 =>
      refine ⟨[⟨r.received, failed, some (.ok 0)⟩], r.received.map .received, ?_, ?_, ht₂, ?_⟩
      · intro r' hr'
        obtain rfl := List.mem_singleton.mp hr'
        exact ⟨hsize, fun revisions hok => absurd hok (hfailed revisions), fun _ => rfl⟩
      · rw [hmessages]
        simp
      · simp [Round.deeds]
    obtain ⟨outcome, ht₂, hcomplete⟩ := ht₂
    refine ends_bind.mpr (Ends.mono (ends_checkpointIfDue { r with outcome := outcome })
      (fun (_ : Unit) t₃ ht₃ => ?_) (fun _ _ h => h.elim) fun t₃ ht₃ => ?_)
    case refine_2 =>
      refine ⟨[⟨r.received, outcome, some (.ok 0)⟩],
        r.received.map .received ++ { r with outcome := outcome }.retiring, ?_, ?_, ?_, ?_⟩
      · intro r' hr'
        obtain rfl := List.mem_singleton.mp hr'
        exact ⟨hsize, hcomplete, fun _ => rfl⟩
      · rw [hmessages]
        simp
      · rw [ht₃, ht₂, List.append_assoc]
      · rw [List.map_singleton, List.flatten_singleton, Round.deeds]
        exact List.prefix_append _ _
    obtain ⟨compaction, ht₃, htaken⟩ := ht₃
    let r' : Round := ⟨r.received, outcome, compaction⟩
    have hfits : r'.Fits := ⟨hsize, hcomplete, htaken⟩
    have hdeeds : t₃.deeds = t.deeds ++ r'.deeds := by
      rw [ht₃, ht₂, Round.deeds]
      simp only [List.append_assoc]
      rfl
    refine Ends.mono (ih _ hshorter _ _ t₃ rfl) (fun _ t' h => ?_) (fun _ _ h => h) fun t' h => ?_
    · obtain ⟨rounds, hall, hflatten, ht'⟩ := h
      refine ⟨r' :: rounds, List.forall_mem_cons.mpr ⟨hfits, hall⟩, ?_, ?_⟩
      · rw [List.map_cons, List.flatten_cons, hflatten, hmessages]
      · rw [ht', hdeeds, List.map_cons, List.flatten_cons, List.append_assoc]
    · obtain ⟨rounds, part, hall, hflatten, ht', hpart⟩ := h
      refine ⟨r' :: rounds, r'.deeds ++ part, List.forall_mem_cons.mpr ⟨hfits, hall⟩, ?_, ?_, ?_⟩
      · rw [List.map_cons, List.flatten_cons, hmessages]
        exact (List.prefix_append_right_inj _).mpr hflatten
      · rw [ht', hdeeds, List.append_assoc]
      · rw [List.map_cons, List.flatten_cons]
        exact (List.prefix_append_right_inj _).mpr hpart

end Loop

/-! ## Why the loop stops -/

section Stopping

/-- How many mutations the writes among some messages have. -/
def queuedIn (messages : List Message) : ℕ :=
  (mutationsOf ((writesOf messages).map (·.2))).length

theorem queuedIn_append (a b : List Message) : queuedIn (a ++ b) = queuedIn a + queuedIn b := by
  simp [queuedIn, writesOf_append, mutationsOf]

variable [Crc32] {α : Type} {limit n interval : ℕ}

def Thread.newest (t : Thread) : ℕ := t.writer.newest

def Thread.outlook (t : Thread) : Outlook := t.writer.outlook

omit [Crc32] in
theorem draws_note (deeds : List Deed) : Draws Thread.newest limit 0 (Thread.note deeds) :=
  draws_modify fun _ => rfl

omit [Crc32] in
theorem draws_onWriter {p : Prog Writer Error α} (hp : Draws Writer.newest limit n p) :
    Draws Thread.newest limit n (Thread.onWriter p) := hp.zoom _ (fun _ => rfl) fun _ _ => rfl

/-- SOURCE: crates/wal/src/writer.rs:154-157 -/
theorem draws_retireBatch (batch : List (ℕ × Request)) :
    Draws Thread.newest i64Max (mutationsOf (batch.map (·.2))).length (retireBatch batch) := by
  unfold retireBatch
  split
  · exact (draws_pure _).mono (Nat.zero_le _)
  · exact ((draws_onWriter (draws_retire _)).attempt).bind fun _ =>
      (draws_note _).before fun _ => draws_note _

omit [Crc32] in
/-- SOURCE: crates/wal/src/writer.rs:159-170 -/
theorem draws_checkpointIfDue (requested : Option ℕ) :
    Draws Thread.newest limit 0 (checkpointIfDue interval requested) := by
  unfold checkpointIfDue
  extract_lets reset
  have hcompact : Draws Thread.newest limit 0 (Thread.onWriter (Writer.onHost compact)).attempt :=
    (draws_onWriter draws_compact).attempt
  have hreset : Draws Thread.newest limit 0 (Thread.onWriter (modify reset)) :=
    draws_onWriter (draws_modify fun _ => rfl)
  cases requested with
  | some respond =>
    refine hcompact.before fun outcome => (draws_note _).before fun _ => ?_
    dsimp only
    split
    · exact hreset.before fun _ => draws_note _
    · exact draws_note _
  | none =>
    refine draws_get.before fun t => ?_
    split
    · refine hcompact.before fun outcome => (draws_note _).before fun _ => ?_
      split
      · exact hreset
      · exact draws_pure _
    · exact draws_pure _

/-- The loop takes a revision for each mutation in the queue, and panics only where these run out.
SOURCE: crates/wal/src/writer.rs:126-172 -/
theorem draws_run (queue : List Message) (polls : List Bool) :
    Draws Thread.newest i64Max (queuedIn queue) (run interval queue polls .start) := by
  induction hlength : queue.length using Nat.strong_induction_on generalizing queue polls with
  | h n ih =>
  subst hlength
  cases queue with
  | nil =>
    rw [run]
    exact draws_pure _
  | cons message rest =>
    obtain ⟨hqueue, hpending, -⟩ :=
      drain_first (rfl : drain rest polls (Pending.start.receive message) = _)
    have hqueued : queuedIn (message :: rest) =
        (mutationsOf ((drain rest polls (Pending.start.receive message)).pending.batch.map
          (·.2))).length + queuedIn (drain rest polls (Pending.start.receive message)).queue := by
      rw [hpending]
      exact (congrArg queuedIn hqueue).trans (queuedIn_append ..)
    rw [run, hqueued]
    exact (draws_note _).before fun _ => (draws_retireBatch _).bind fun _ =>
      (draws_checkpointIfDue _).before fun _ =>
        ih _ (Nat.lt_succ_of_le (length_drain rest polls _)) _ _ rfl

omit [Crc32] in
theorem spends_note (deeds : List Deed) : Spends Thread.outlook (Thread.note deeds) :=
  spends_modify fun _ => rfl

omit [Crc32] in
theorem spends_onWriter {p : Prog Writer Error α} (hp : Spends Writer.outlook p) :
    Spends Thread.outlook (Thread.onWriter p) :=
  hp.zoom (fun _ _ hspent => hspent) fun _ hcrash => hcrash

theorem spends_retireBatch (batch : List (ℕ × Request)) :
    Spends Thread.outlook (retireBatch batch) := by
  unfold retireBatch
  split
  · exact spends_pure _
  · exact (spends_onWriter (spends_retire _)).attempt.bind fun _ =>
      (spends_note _).bind fun _ => spends_note _

omit [Crc32] in
theorem spends_checkpointIfDue (requested : Option ℕ) :
    Spends Thread.outlook (checkpointIfDue interval requested) := by
  unfold checkpointIfDue
  extract_lets reset
  have hcompact := (spends_onWriter spends_compact).attempt
  have hreset : Spends Thread.outlook (Thread.onWriter (modify reset)) :=
    spends_onWriter (spends_modify fun _ => rfl)
  cases requested with
  | some respond =>
    refine hcompact.bind fun outcome => (spends_note _).bind fun _ => ?_
    dsimp only
    split
    · exact hreset.bind fun _ => spends_note _
    · exact spends_note _
  | none =>
    refine spends_get.bind fun t => ?_
    split
    · refine hcompact.bind fun outcome => (spends_note _).bind fun _ => ?_
      split
      · exact hreset
      · exact spends_pure _
    · exact spends_pure _

/-- The loop crashes only where an operation or a call that is to come is a crash.
SOURCE: crates/wal/src/writer.rs:126-172 -/
theorem spends_run (queue : List Message) (polls : List Bool) :
    Spends Thread.outlook (run interval queue polls .start) := by
  induction hlength : queue.length using Nat.strong_induction_on generalizing queue polls with
  | h n ih =>
  subst hlength
  cases queue with
  | nil =>
    rw [run]
    exact spends_pure _
  | cons message rest =>
    rw [run]
    exact (spends_note _).bind fun _ => (spends_retireBatch _).bind fun _ =>
      (spends_checkpointIfDue _).bind fun _ =>
        ih _ (Nat.lt_succ_of_le (length_drain rest polls _)) _ _ rfl

end Stopping

/-! ## What the turns come to -/

section Serving

variable {rounds : List Round} {deeds : List Deed}

/-- The deeds of all turns, end to end. -/
def deedsOf (rounds : List Round) : List Deed := (rounds.map Round.deeds).flatten

/-- The messages all turns received. -/
def messagesOf (rounds : List Round) : List Message := (rounds.map Round.received).flatten

theorem deedsOf_cons (r : Round) (rest : List Round) : deedsOf (r :: rest) = r.deeds ++ deedsOf rest :=
  rfl

theorem messagesOf_cons (r : Round) (rest : List Round) :
    messagesOf (r :: rest) = r.received ++ messagesOf rest := rfl

theorem deedsOf_append (a b : List Round) : deedsOf (a ++ b) = deedsOf a ++ deedsOf b := by
  simp [deedsOf]

theorem messagesOf_append (a b : List Round) : messagesOf (a ++ b) = messagesOf a ++ messagesOf b := by
  simp [messagesOf]

theorem batchesIn_append (a b : List Deed) : batchesIn (a ++ b) = batchesIn a ++ batchesIn b :=
  List.filterMap_append

theorem retiredIn_append (a b : List Deed) : retiredIn (a ++ b) = retiredIn a ++ retiredIn b := by
  simp [retiredIn, batchesIn_append]

theorem answersIn_append (a b : List Deed) : answersIn (a ++ b) = answersIn a ++ answersIn b :=
  List.filterMap_append

theorem checkpointsIn_append (a b : List Deed) :
    checkpointsIn (a ++ b) = checkpointsIn a ++ checkpointsIn b := List.filterMap_append

/-- A reading of the deeds that no receipt, no answer and no compaction shows up in reads the
batch alone, and so on: what each part of a turn's deeds has of each kind. -/
theorem Round.kinds (r : Round) :
    batchesIn r.deeds = (if r.batch = [] then [] else [(r.batch, r.outcome)]) ∧
      answersIn r.deeds = answersOf r.batch r.outcome ∧
      checkpointsIn r.deeds = (if r.compaction.isSome then r.requested.toList else []) := by
  have hreceived : ∀ l : List Message, batchesIn (l.map .received) = [] ∧
      answersIn (l.map .received) = [] ∧ checkpointsIn (l.map .received) = [] := by
    intro l
    induction l with
    | nil => exact ⟨rfl, rfl, rfl⟩
    | cons _ _ ih => exact ih
  have hanswered : ∀ l : List (ℕ × Except Error (List Revision)),
      batchesIn (l.map fun p => .answered p.1 p.2) = [] ∧
        answersIn (l.map fun p => .answered p.1 p.2) = l ∧
        checkpointsIn (l.map fun p => .answered p.1 p.2) = [] := by
    intro l
    induction l with
    | nil => exact ⟨rfl, rfl, rfl⟩
    | cons p _ ih => exact ⟨ih.1, congrArg (p :: ·) ih.2.1, ih.2.2⟩
  have hretiring : batchesIn r.retiring = (if r.batch = [] then [] else [(r.batch, r.outcome)]) ∧
      answersIn r.retiring = answersOf r.batch r.outcome ∧ checkpointsIn r.retiring = [] := by
    unfold Round.retiring
    split
    · rename_i hempty
      rw [hempty]
      exact ⟨rfl, rfl, rfl⟩
    · obtain ⟨hbatches, hanswers, hcheckpoints⟩ := hanswered (answersOf r.batch r.outcome)
      exact ⟨congrArg ((r.batch, r.outcome) :: ·) hbatches, hanswers, hcheckpoints⟩
  have hcompacting : batchesIn r.compacting = [] ∧ answersIn r.compacting = [] ∧
      checkpointsIn r.compacting = (if r.compaction.isSome then r.requested.toList else []) := by
    unfold Round.compacting
    cases r.compaction with
    | none => exact ⟨rfl, rfl, rfl⟩
    | some outcome => cases r.requested <;> exact ⟨rfl, rfl, rfl⟩
  obtain ⟨hb, ha, hc⟩ := hreceived r.received
  rw [Round.deeds, batchesIn_append, batchesIn_append, answersIn_append, answersIn_append,
    checkpointsIn_append, checkpointsIn_append, hb, ha, hc, hretiring.1, hretiring.2.1,
    hretiring.2.2, hcompacting.1, hcompacting.2.1, hcompacting.2.2]
  simp

theorem Round.retiredIn (r : Round) : retiredIn r.deeds = r.batch := by
  rw [Wal.retiredIn, r.kinds.1]
  split
  · rename_i hempty
    rw [hempty]
    rfl
  · simp

theorem map_fst_answersOf (batch : List (ℕ × Request)) (outcome : Except Error (List Revision)) :
    (answersOf batch outcome).map (·.1) = batch.map (·.1) := by
  rw [answersOf, List.map_fst_zip]
  rw [length_answer, List.length_map, List.length_map]

/-- The batches are the writes, in order. -/
theorem retiredIn_deedsOf (rounds : List Round) :
    retiredIn (deedsOf rounds) = writesOf (messagesOf rounds) := by
  induction rounds with
  | nil => rfl
  | cons r rest ih =>
    rw [deedsOf_cons, messagesOf_cons, retiredIn_append, writesOf_append, ih, r.retiredIn]
    rfl

theorem sized_deedsOf (hfits : ∀ r ∈ rounds, r.Fits) :
    ∀ b ∈ batchesIn (deedsOf rounds), b.1 ≠ [] ∧ b.1.length ≤ maxBatch := by
  induction rounds with
  | nil => exact fun b hb => absurd hb List.not_mem_nil
  | cons r rest ih =>
    obtain ⟨hr, hrest⟩ := List.forall_mem_cons.mp hfits
    intro b hb
    rw [deedsOf_cons, batchesIn_append, r.kinds.1] at hb
    rcases List.mem_append.mp hb with hb | hb
    · split at hb
      · cases hb
      · rename_i hne
        obtain rfl := List.mem_singleton.mp hb
        exact ⟨hne, hr.sized⟩
    · exact ih hrest b hb

/-- The callers of a batch are told their parts of its outcome.
SOURCE: crates/wal/src/writer.rs:211-226 -/
theorem tells_answersOf {batch : List (ℕ × Request)} {outcome : Except Error (List Revision)}
    (hcomplete : ∀ revisions, outcome = .ok revisions →
      revisions.length = (mutationsOf (batch.map (·.2))).length) :
    Tells batch (answersOf batch outcome) outcome := by
  cases outcome with
  | error e =>
    show answersOf batch (.error e) = batch.map fun b => (b.1, .error e)
    clear hcomplete
    induction batch with
    | nil => rfl
    | cons b rest ih => exact congrArg ((b.1, .error e) :: ·) ih
  | ok revisions =>
    have hlength := hcomplete revisions rfl
    clear hcomplete
    induction batch generalizing revisions with
    | nil => exact ⟨[], (List.length_eq_zero_iff.mp hlength).symm, rfl, rfl⟩
    | cons b rest ih =>
      have hsplit : (mutationsOf ((b :: rest).map (·.2))).length =
          b.2.mutations.length + (mutationsOf (rest.map (·.2))).length := List.length_append
      obtain ⟨shares, hflatten, hlengths, htold⟩ := ih (revisions.drop b.2.mutations.length) (by
        rw [List.length_drop]
        omega)
      refine ⟨revisions.take b.2.mutations.length :: shares, ?_, ?_, ?_⟩
      · rw [List.flatten_cons, hflatten, List.take_append_drop]
      · rw [List.map_cons, List.map_cons, hlengths, List.length_take_of_le (by omega)]
      · exact congrArg ((b.1, .ok (revisions.take b.2.mutations.length)) :: ·) htold

theorem answersIn_deedsOf (hfits : ∀ r ∈ rounds, r.Fits) :
    ∃ told, answersIn (deedsOf rounds) = told.flatten ∧
      List.Forall₂ (fun b answers => Tells b.1 answers b.2) (batchesIn (deedsOf rounds)) told := by
  induction rounds with
  | nil => exact ⟨[], rfl, .nil⟩
  | cons r rest ih =>
    obtain ⟨hr, hrest⟩ := List.forall_mem_cons.mp hfits
    obtain ⟨told, hanswers, htells⟩ := ih hrest
    rw [deedsOf_cons, answersIn_append, batchesIn_append, hanswers, r.kinds.1, r.kinds.2.1]
    split
    · rename_i hempty
      rw [hempty]
      exact ⟨told, rfl, htells⟩
    · exact ⟨answersOf r.batch r.outcome :: told, rfl,
        .cons (tells_answersOf hr.complete) htells⟩

theorem once_deedsOf (rounds : List Round) :
    (answersIn (deedsOf rounds)).map (·.1) = (writesOf (messagesOf rounds)).map (·.1) := by
  induction rounds with
  | nil => rfl
  | cons r rest ih =>
    rw [deedsOf_cons, messagesOf_cons, answersIn_append, writesOf_append, List.map_append,
      List.map_append, ih, r.kinds.2.1, map_fst_answersOf]
    rfl

/-- Only those are answered who asked for a checkpoint, each once. -/
theorem checkpointsIn_sublist (rounds : List Round) :
    (checkpointsIn (deedsOf rounds)).Sublist (checkpointsOf (messagesOf rounds)) := by
  induction rounds with
  | nil => exact List.Sublist.slnil
  | cons r rest ih =>
    rw [deedsOf_cons, messagesOf_cons, checkpointsIn_append, checkpointsOf_append, r.kinds.2.2]
    refine List.Sublist.append ?_ ih
    split
    · rw [Round.requested]
      cases hlast : (checkpointsOf r.received).getLast? with
      | none => exact List.nil_sublist _
      | some respond => exact List.singleton_sublist.mpr (List.mem_of_getLast? hlast)
    · exact List.nil_sublist _

theorem nodup_checkpointsOf {messages : List Message} (h : (messages.map Message.respond).Nodup) :
    (checkpointsOf messages).Nodup := by
  refine List.Sublist.nodup ?_ h
  clear h
  induction messages with
  | nil => exact List.Sublist.slnil
  | cons message rest ih =>
    cases message with
    | write respond request => exact List.Sublist.cons _ ih
    | checkpoint respond => exact List.Sublist.cons_cons _ ih

/-- A deed is one of some turn's. -/
theorem split_deedsOf {before after : List Deed} {deed : Deed}
    (h : deedsOf rounds = before ++ deed :: after) :
    ∃ a r c x y, rounds = a ++ r :: c ∧ r.deeds = x ++ deed :: y ∧ before = deedsOf a ++ x := by
  induction rounds generalizing before with
  | nil => exact absurd h (by simp [deedsOf])
  | cons r rest ih =>
    rw [deedsOf_cons] at h
    have hlater : ∀ l, before = r.deeds ++ l → deedsOf rest = l ++ deed :: after →
        ∃ a r' c x y, r :: rest = a ++ r' :: c ∧ r'.deeds = x ++ deed :: y ∧
          before = deedsOf a ++ x := by
      intro l hbefore hrest
      obtain ⟨a, r', c, x, y, rfl, hdeeds, rfl⟩ := ih hrest
      exact ⟨r :: a, r', c, x, y, rfl, hdeeds, by rw [hbefore, deedsOf_cons, List.append_assoc]⟩
    rcases List.append_eq_append_iff.mp h with ⟨l, hbefore, hrest⟩ | ⟨l, hdeeds, hrest⟩
    · exact hlater l hbefore hrest
    · cases l with
      | nil => exact hlater [] (by simpa using hdeeds.symm) hrest.symm
      | cons first l =>
        obtain ⟨rfl, -⟩ : deed = first ∧ _ := by simpa using hrest
        exact ⟨[], r, rest, before, l, rfl, hdeeds, rfl⟩

/-- In a turn a checkpoint is answered at the end, with the outcome noted before. -/
theorem Round.checkpointed {r : Round} {x y : List Deed} {respond : ℕ} {result : Except Error ℕ}
    (h : r.deeds = x ++ .checkpointed respond result :: y) :
    r.requested = some respond ∧
      x = r.received.map .received ++ r.retiring ++ [.compacted result] := by
  have hnot : Deed.checkpointed respond result ∉ r.received.map .received ++ r.retiring := by
    intro hmem
    rcases List.mem_append.mp hmem with hmem | hmem
    · obtain ⟨_, -, heq⟩ := List.mem_map.mp hmem
      cases heq
    · unfold Round.retiring at hmem
      split at hmem
      · cases hmem
      · rcases List.mem_cons.mp hmem with heq | hmem
        · cases heq
        · obtain ⟨_, -, heq⟩ := List.mem_map.mp hmem
          cases heq
  rw [Round.deeds] at h
  rcases List.append_eq_append_iff.mp h with ⟨l, rfl, hrest⟩ | ⟨l, hfirst, hrest⟩
  · unfold Round.compacting at hrest
    cases hcompaction : r.compaction with
    | none => simp [hcompaction] at hrest
    | some outcome =>
      cases hrequested : r.requested with
      | none =>
        rw [hcompaction, hrequested] at hrest
        cases l with
        | nil => simp at hrest
        | cons _ l => simp at hrest
      | some asked =>
        rw [hcompaction, hrequested] at hrest
        match l, hrest with
        | [], hrest => simp at hrest
        | [first], hrest =>
          simp only [Option.map_some, Option.toList_some, List.singleton_append, List.cons.injEq,
            Deed.checkpointed.injEq] at hrest
          obtain ⟨rfl, ⟨rfl, rfl⟩, -⟩ := hrest
          exact ⟨rfl, rfl⟩
        | first :: second :: l, hrest => simp at hrest
  · cases l with
    | nil =>
      unfold Round.compacting at hrest
      split at hrest <;> simp at hrest
    | cons first l =>
      obtain ⟨rfl, -⟩ : Deed.checkpointed respond result = first ∧ _ := by simpa using hrest
      exact absurd (by rw [hfirst]; simp) hnot

/-- A message comes once in the queue, so what is before it there is what was received before. -/
theorem before_eq {messages earlier later a b : List Message} {message : Message}
    (hown : (messages.map Message.respond).Nodup) (h : messages = earlier ++ message :: later)
    (h' : messages = a ++ message :: b) : earlier = a := by
  have hnodup : (earlier ++ message :: later).Nodup := h ▸ List.Nodup.of_map _ hown
  obtain ⟨-, hlater, hcross⟩ := List.nodup_append.mp hnodup
  have hearlier : message ∉ earlier := fun hmem =>
    hcross message hmem message (List.mem_cons_self ..) rfl
  exact ((List.append_cons_inj_of_notMem hearlier (List.nodup_cons.mp hlater).1).mp
    (h.symm.trans h')).1

theorem ordered_deedsOf (hown : ((messagesOf rounds).map Message.respond).Nodup)
    {before after : List Deed} {respond : ℕ} {result : Except Error ℕ}
    (h : deedsOf rounds = before ++ .checkpointed respond result :: after) :
    ∃ done, before = done ++ [.compacted result] ∧
      ∀ earlier later, messagesOf rounds = earlier ++ .checkpoint respond :: later →
        writesOf earlier <+: retiredIn done := by
  obtain ⟨a, r, c, x, y, rfl, hdeeds, rfl⟩ := split_deedsOf h
  obtain ⟨hrequested, rfl⟩ := r.checkpointed hdeeds
  refine ⟨deedsOf a ++ (r.received.map .received ++ r.retiring), by simp, fun earlier later hsplit => ?_⟩
  have hmem : Message.checkpoint respond ∈ r.received :=
    mem_checkpointsOf.mp (List.mem_of_getLast? hrequested)
  obtain ⟨u, v, huv⟩ := List.append_of_mem hmem
  have hsplit' : messagesOf (a ++ r :: c) =
      (messagesOf a ++ u) ++ .checkpoint respond :: (v ++ messagesOf c) := by
    rw [messagesOf_append, messagesOf_cons, huv]
    simp
  rw [before_eq hown hsplit hsplit', writesOf_append, retiredIn_append, retiredIn_deedsOf]
  -- what the turn's deeds up to the compaction retired is its whole batch
  have hretired : retiredIn (r.received.map .received ++ r.retiring) = r.batch := by
    have hall := r.retiredIn
    have hnone : retiredIn r.compacting = [] := by
      unfold Round.compacting
      cases r.compaction with
      | none => rfl
      | some outcome => cases r.requested <;> rfl
    rw [Round.deeds, retiredIn_append, hnone, List.append_nil] at hall
    exact hall
  rw [hretired, Round.batch, huv, writesOf_append]
  exact (List.prefix_append_right_inj _).mpr (List.prefix_append _ _)

theorem waiting_deedsOf (hown : ((messagesOf rounds).map Message.respond).Nodup)
    (hfits : ∀ r ∈ rounds, r.Fits) {waits : ℕ → Prop} (hwaiting : OneWaiting waits (deedsOf rounds))
    {respond : ℕ} (hwaits : waits respond)
    (hmem : Message.checkpoint respond ∈ messagesOf rounds) :
    (checkpointsIn (deedsOf rounds)).count respond = 1 := by
  have hnodup : (checkpointsIn (deedsOf rounds)).Nodup :=
    (checkpointsIn_sublist rounds).nodup (nodup_checkpointsOf hown)
  refine List.count_eq_one_of_mem hnodup ?_
  obtain ⟨received, hreceived, hin⟩ := List.mem_flatten.mp hmem
  obtain ⟨r, hr, rfl⟩ := List.mem_map.mp hreceived
  obtain ⟨a, c, rfl⟩ := List.append_of_mem hr
  obtain ⟨u, v, huv⟩ := List.append_of_mem hin
  -- no other checkpoint is received after it in its turn
  have hlast : checkpointsOf v = [] := by
    rw [List.eq_nil_iff_forall_not_mem]
    intro other hother
    obtain ⟨v₁, v₂, hv⟩ := List.append_of_mem (mem_checkpointsOf.mp hother)
    have hsplit : deedsOf (a ++ r :: c) =
        (deedsOf a ++ (u ++ .checkpoint respond :: v₁).map .received) ++
          .received (.checkpoint other) ::
            (v₂.map .received ++ r.retiring ++ r.compacting ++ deedsOf c) := by
      rw [deedsOf_append, deedsOf_cons, Round.deeds, huv, hv]
      simp
    have hanswered := hwaiting _ _ _ hsplit respond hwaits (by simp)
    have hnone : checkpointsIn ((u ++ Message.checkpoint respond :: v₁).map Deed.received) = [] := by
      simp [checkpointsIn]
    rw [checkpointsIn_append, hnone, List.append_nil] at hanswered
    have hbefore : Message.checkpoint respond ∈ messagesOf a :=
      mem_checkpointsOf.mp ((checkpointsIn_sublist a).subset hanswered)
    have hmessages : (messagesOf a ++ (r.received ++ messagesOf c)).Nodup := by
      rw [← messagesOf_cons, ← messagesOf_append]
      exact List.Nodup.of_map _ hown
    exact (List.nodup_append.mp hmessages).2.2 _ hbefore _ (List.mem_append_left _ hin) rfl
  have hrequested : r.requested = some respond := by
    rw [Round.requested, huv, checkpointsOf_append]
    have htail : checkpointsOf (Message.checkpoint respond :: v) = respond :: checkpointsOf v := rfl
    rw [htail, hlast]
    exact List.getLast?_concat
  have htaken := (hfits r (by simp)).taken (by rw [hrequested]; rfl)
  rw [deedsOf_append, deedsOf_cons, checkpointsIn_append, checkpointsIn_append, r.kinds.2.2,
    if_pos htaken, hrequested]
  simp

theorem served_deedsOf (hown : ((messagesOf rounds).map Message.respond).Nodup)
    (hfits : ∀ r ∈ rounds, r.Fits) : Served (messagesOf rounds) (deedsOf rounds) where
  partitioned := retiredIn_deedsOf rounds
  sized := sized_deedsOf hfits
  answered := answersIn_deedsOf hfits
  once := once_deedsOf rounds
  ordered _ _ _ _ h := ordered_deedsOf hown h
  atMostOnce := (checkpointsIn_sublist rounds).nodup (nodup_checkpointsOf hown)
  waiting _ hwaiting _ hwaits hmem := waiting_deedsOf hown hfits hwaiting hwaits hmem

end Serving

/-! ## The contract -/

section Contract

variable [Crc32]

/-- **Everyone is answered once, in order.** Over any messages, each with a channel of its own, and
however the polls turn out, the loop ends, and it serves the queue, unless an operation or a call
crashes or the messages have more mutations than there are revisions left. Then it was stopped inside
a call of `retire` or `compact`, and what it did until then is how serving a part of the queue
begins. -/
theorem run_serves (interval : ℕ) (messages : List Message) (polls : List Bool) (w : Writer)
    (hown : (messages.map Message.respond).Nodup) :
    (∃ t, (run interval messages polls .start).exec ⟨w, []⟩ = (.ok (), t) ∧
        Served messages t.deeds) ∨
      ∃ stop t, (run interval messages polls .start).exec ⟨w, []⟩ = (.error stop, t) ∧
        (stop = .crash ∧ ((∃ cut, .crash cut ∈ w.host.disk.replies) ∨
            .crash ∈ w.host.store.engine.replies) ∨
          stop = .panic ∧ i64Max < w.host.store.state.current.main +
            (mutationsOf ((writesOf messages).map (·.2))).length) ∧
        ∃ part deeds, part <+: messages ∧ t.deeds <+: deeds ∧ Served part deeds := by
  have hends : Ends (run interval messages polls .start) ⟨w, []⟩ _ _ _ :=
    ends_run messages polls ⟨w, []⟩
  rcases hexec : (run interval messages polls .start).exec ⟨w, []⟩ with ⟨stop | _, t⟩
  · refine .inr ⟨stop, t, rfl, ?_⟩
    have hstop : stop = .panic ∨ stop = .crash := by
      cases stop with
      | error e => exact (hends.of_error hexec).elim
      | panic => exact .inl rfl
      | crash => exact .inr rfl
    obtain ⟨rounds, part, hfits, hqueue, hdeeds, hpart⟩ := hends.of_dead hexec hstop
    have hown' : ((messagesOf rounds).map Message.respond).Nodup :=
      (hqueue.sublist.map _).nodup hown
    refine ⟨?_, messagesOf rounds, deedsOf rounds, hqueue, ?_, served_deedsOf hown' hfits⟩
    · rcases hstop with rfl | rfl
      · exact .inr ⟨rfl, (draws_run messages polls).panics _ _ hexec⟩
      · exact .inl ⟨rfl, (spends_run messages polls).crashes _ _ hexec⟩
    · rw [hdeeds, List.nil_append]
      exact hpart
  · refine .inl ⟨t, rfl, ?_⟩
    obtain ⟨rounds, hfits, hqueue, hdeeds⟩ := hends.of_ok hexec
    have hqueue : messagesOf rounds = messages := hqueue
    subst hqueue
    rw [hdeeds, List.nil_append]
    exact served_deedsOf hown hfits

end Contract

/-! ## A queue with a checkpoint in it -/

/-- Two writes with a checkpoint between them, the second one of a key that is there. -/
def mixedQueue : List Message :=
  [.write 0 ⟨[.put [107] [118]]⟩, .checkpoint 1, .write 2 ⟨[.delete [107]]⟩]

/-- The checkpoint joins the first write's turn, and the second write comes too late for it. -/
theorem run_serves_mixed : ∃ t, (@run crc32fast 100 mixedQueue [true] .start).exec
    ⟨freshWriter, []⟩ = (.ok (), t) ∧ Served mixedQueue t.deeds := by
  have hserves := @run_serves crc32fast 100 mixedQueue [true] freshWriter (by decide)
  have hreturns : (@run crc32fast 100 mixedQueue [true] .start).returnsFrom ⟨freshWriter, []⟩ =
      true := by decide +kernel
  obtain ⟨_, hexec⟩ := exec_of_returnsFrom hreturns
  rcases hserves with hserved | ⟨stop, t, hstopped, -⟩
  · exact hserved
  · rw [hexec] at hstopped
    cases hstopped

end Hadar.Wal
