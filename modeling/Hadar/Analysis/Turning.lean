import Hadar.Lib.Alike
import Hadar.Analysis.Mailbox

/-!
# The loop takes turns

`turn` is one turn of the loop on the writer alone, over a batch that was collected; `run` is the
loop on the thread, with the queue it collects its batches from and with what it notes. A turn of
the loop does to the writer what `turn` does, stops where it stops, and answers what it answers, so
what the loop does over a queue is one of the runs that the writer is proved right in.
-/

set_option autoImplicit false

namespace Hadar.Wal

open Hadar.Lib Hadar.Lib.Prog Hadar.Storage Hadar.Mvcc

/-- The answers to checkpoints. -/
def checkpointAnswersIn (deeds : List Deed) : List (ℕ × Except Error ℕ) :=
  deeds.filterMap fun
    | .checkpointed respond result => some (respond, result)
    | _ => none

/-! ## One turn -/

section Turn

variable {interval : ℕ}

theorem answersIn_answered (answers : List (ℕ × Except Error (List Revision))) :
    answersIn (answers.map fun p => .answered p.1 p.2) = answers := by
  rw [answersIn, List.filterMap_map]
  exact List.filterMap_some

theorem checkpointAnswersIn_answered (answers : List (ℕ × Except Error (List Revision))) :
    checkpointAnswersIn (answers.map fun p => .answered p.1 p.2) = [] := by
  rw [checkpointAnswersIn, List.filterMap_map]
  exact List.filterMap_eq_nil_iff.mpr fun _ _ => rfl

theorem checkpointAnswersIn_append (a b : List Deed) :
    checkpointAnswersIn (a ++ b) = checkpointAnswersIn a ++ checkpointAnswersIn b :=
  List.filterMap_append

/-- A call of the writer does to the writer alone what it does to the thread, which notes nothing
of it yet. -/
theorem alike_onWriter {α : Type} (p : Prog Writer Error α) (t : Thread) :
    Prog.Alike (Thread.onWriter p).attempt p.attempt t t.writer
      (fun outcome outcome' t' w => outcome = outcome' ∧ t'.writer = w ∧ t'.deeds = t.deeds)
      fun _ t' w => t'.writer = w ∧ t'.deeds = t.deeds :=
  Alike.attempt (alike_zoom_self (fun _ _ => ⟨rfl, rfl, rfl⟩) fun _ _ => ⟨rfl, rfl⟩)

/-- The second half of `turn`. -/
def closing (interval : ℕ) (requested : Bool) (writes : List (Except Error (List Revision))) :
    Prog Writer Error Answers := do
  if requested then
    let outcome ← (Writer.onHost compact).attempt
    if outcome.isOk then modify fun w => { w with appended := 0 }
    pure ⟨writes, some outcome⟩
  else
    let w ← get
    if w.appended ≥ interval then
      let outcome ← (Writer.onHost compact).attempt
      if outcome.isOk then modify fun w => { w with appended := 0 }
      pure ⟨writes, none⟩
    else pure ⟨writes, none⟩

variable [Crc32]

/-- The first half of `turn`. -/
def answering (batch : List Request) : Prog Writer Error (List (Except Error (List Revision))) :=
  if batch.isEmpty then pure [] else do
    let outcome ← (retire batch).attempt
    pure (answer batch outcome)

theorem turn_eq (interval : ℕ) (batch : List Request) (requested : Bool) :
    turn interval batch requested = answering batch >>= closing interval requested := by
  unfold turn answering
  extract_lets rest
  cases batch with
  | nil => exact (pure_bind _ _).symm
  | cons request batch => exact (bind_assoc _ _ _).symm

/-- The batch is retired and answered.
SOURCE: crates/wal/src/writer.rs:154-157 -/
theorem alike_retireBatch (batch : List (ℕ × Request)) (t : Thread) :
    Prog.Alike (retireBatch batch) (answering (batch.map (·.2))) t t.writer
      (fun _ writes t' w => t'.writer = w ∧ writes.length = batch.length ∧
        answersIn t'.deeds = answersIn t.deeds ++ (batch.map (·.1)).zip writes ∧
        checkpointAnswersIn t'.deeds = checkpointAnswersIn t.deeds)
      fun _ t' w => t'.writer = w ∧ t'.deeds = t.deeds := by
  unfold retireBatch answering
  rw [List.isEmpty_map]
  split
  · rename_i hempty
    exact alike_pure ⟨rfl, by simp_all, by simp [answersIn], rfl⟩
  · have hafter : ∀ (outcome : Except Error (List Revision)) (w : Writer),
        answersIn ((t.deeds ++ [.retired batch outcome]) ++
            ((batch.map (·.1)).zip (answer (batch.map (·.2)) outcome)).map fun p =>
              .answered p.1 p.2) =
          answersIn t.deeds ++ (batch.map (·.1)).zip (answer (batch.map (·.2)) outcome) ∧
        checkpointAnswersIn ((t.deeds ++ [.retired batch outcome]) ++
            ((batch.map (·.1)).zip (answer (batch.map (·.2)) outcome)).map fun p =>
              .answered p.1 p.2) = checkpointAnswersIn t.deeds := by
      intro outcome w
      rw [answersIn_append, answersIn_append, answersIn_answered, checkpointAnswersIn_append,
        checkpointAnswersIn_append, checkpointAnswersIn_answered]
      simp [answersIn, checkpointAnswersIn]
    have hretire := alike_onWriter (retire (batch.map fun b => b.2)) t
    refine hretire.bind fun outcome outcome' t' w h => ?_
    obtain ⟨writer, deeds⟩ := t'
    obtain ⟨rfl, rfl, rfl⟩ := h
    exact alike_modify_bind
      (alike_modify_pure ⟨rfl, by simp [length_answer], hafter outcome writer⟩)

omit [Crc32] in
/-- The checkpoint is taken that was requested or is due.
SOURCE: crates/wal/src/writer.rs:159-170 -/
theorem alike_checkpointIfDue (requested : Option ℕ) (writes : List (Except Error (List Revision)))
    (t : Thread) :
    Prog.Alike (checkpointIfDue interval requested) (closing interval requested.isSome writes) t
      t.writer
      (fun _ answers t' w => t'.writer = w ∧ answers.writes = writes ∧
        answersIn t'.deeds = answersIn t.deeds ∧
        checkpointAnswersIn t'.deeds = checkpointAnswersIn t.deeds ++
          (Option.map₂ Prod.mk requested answers.checkpoint).toList)
      fun _ t' w => t'.writer = w ∧ answersIn t'.deeds = answersIn t.deeds := by
  unfold checkpointIfDue closing
  extract_lets reset
  have hcompact : Prog.Alike (Thread.onWriter (Writer.onHost compact)).attempt
      (Writer.onHost compact).attempt t t.writer
      (fun outcome outcome' t' w => outcome = outcome' ∧ t'.writer = w ∧ t'.deeds = t.deeds)
      fun _ t' w => t'.writer = w ∧ answersIn t'.deeds = answersIn t.deeds :=
    (alike_onWriter _ t).mono (fun _ _ _ _ h => h) fun _ _ _ h => ⟨h.1, by rw [h.2]⟩
  cases requested with
  | some respond =>
    refine hcompact.bind fun outcome outcome' t' w h => ?_
    obtain ⟨writer, deeds⟩ := t'
    obtain ⟨rfl, rfl, rfl⟩ := h
    cases outcome <;>
      exact ⟨rfl, rfl, by simp [answersIn], by simp [checkpointAnswersIn]⟩
  | none =>
    refine alike_get_bind ?_
    split
    · refine hcompact.bind fun outcome outcome' t' w h => ?_
      obtain ⟨writer, deeds⟩ := t'
      obtain ⟨rfl, rfl, rfl⟩ := h
      cases outcome <;>
        exact ⟨rfl, rfl, by simp [answersIn], by simp [checkpointAnswersIn]⟩
    · exact alike_pure ⟨rfl, rfl, rfl, by simp⟩

/-- **A turn of the loop is a turn.** Once the batch is collected, the loop does to the writer what
`turn` does, returns or stops as it does, and answers the writes of the batch and the checkpoint as
it does.
SOURCE: crates/wal/src/writer.rs:154-170 -/
theorem alike_turn (interval : ℕ) (batch : List (ℕ × Request)) (requested : Option ℕ) (t : Thread) :
    Prog.Alike (do
        retireBatch batch
        checkpointIfDue interval requested)
      (turn interval (batch.map (·.2)) requested.isSome) t t.writer
      (fun _ answers t' w => t'.writer = w ∧ answers.writes.length = batch.length ∧
        answersIn t'.deeds = answersIn t.deeds ++ (batch.map (·.1)).zip answers.writes ∧
        checkpointAnswersIn t'.deeds = checkpointAnswersIn t.deeds ++
          (Option.map₂ Prod.mk requested answers.checkpoint).toList)
      fun _ t' w => t'.writer = w ∧ answersIn t.deeds <+: answersIn t'.deeds := by
  rw [turn_eq]
  refine ((alike_retireBatch batch t).mono (fun _ _ _ _ h => h) fun _ t' w h => ?_).bind
    fun _ writes t₁ w h => ?_
  · exact ⟨h.1, by simp only [h.2, List.prefix_rfl]⟩
  · obtain ⟨rfl, hlength, hwrites, hcheckpoints⟩ := h
    refine (alike_checkpointIfDue requested writes t₁).mono (fun _ answers t₂ w h => ?_)
      fun _ t₂ w h => ?_
    · obtain ⟨hwriter, rfl, hanswers, hcheckpoint⟩ := h
      exact ⟨hwriter, hlength, hanswers.trans hwrites, by rw [hcheckpoint, hcheckpoints]⟩
    · exact ⟨h.1, by rw [h.2, hwrites]; exact List.prefix_append _ _⟩

end Turn

/-! ## The whole loop -/

/-- The turn takes these messages: the writes among them are its batch, and it was asked for a
checkpoint if one is among them. -/
def Turn.Takes (t : Turn) (received : List Message) : Prop :=
  t.batch = (writesOf received).map (·.2) ∧ t.requested = (checkpointsOf received).getLast?.isSome

section Loop

variable [Crc32] {interval : ℕ} {w₀ w : Writer} {parts : List (List Message)} {turns : List Turn}
  {told : List Exchange}

/-- A run of turns, each with the messages it takes. -/
structure Taken (interval : ℕ) (w₀ : Writer) (parts : List (List Message)) (turns : List Turn)
    (w : Writer) (told : List Exchange) : Prop where
  takes : List.Forall₂ Turn.Takes turns parts
  ran : Run interval (fun _ t => t.batch.length ≤ maxBatch) w₀ turns w told
  everyone : told.map (·.1) = (writesOf parts.flatten).map (·.2)

/-- One more turn in front of a run. -/
theorem Run.cons {allowed : Writer → Turn → Prop} {t : Turn} {answers : Answers} {w₁ : Writer}
    (h : Run interval allowed w₁ turns w told) (permitted : allowed (w₀.given t.replies t.calls) t)
    (first : (turn interval t.batch t.requested).exec (w₀.given t.replies t.calls) =
      (.ok answers, w₁)) :
    Run interval allowed w₀ (t :: turns) w (t.batch.zip answers.writes ++ told) := by
  induction h with
  | start =>
    rw [List.append_nil]
    exact .turned .start permitted first
  | turned before hallowed hexec ih =>
    rw [← List.append_assoc]
    exact .turned ih hallowed hexec

theorem Taken.nil : Taken interval w₀ [] [] w₀ [] := ⟨.nil, .start, rfl⟩

theorem Taken.cons {received : List Message} {answers : Answers} {w₁ : Writer}
    (h : Taken interval w₁ parts turns w told) (hsize : (writesOf received).length ≤ maxBatch)
    (hlength : answers.writes.length = (writesOf received).length)
    (first : (turn interval ((writesOf received).map (·.2))
      (checkpointsOf received).getLast?.isSome).exec w₀ = (.ok answers, w₁)) :
    ∃ t, Taken interval w₀ (received :: parts) (t :: turns) w
      (((writesOf received).map (·.2)).zip answers.writes ++ told) := by
  refine ⟨⟨(writesOf received).map (·.2), (checkpointsOf received).getLast?.isSome,
    w₀.host.disk.replies, w₀.host.store.engine.replies⟩, .cons ⟨rfl, rfl⟩ h.takes,
    h.ran.cons (by simpa using hsize) first, ?_⟩
  rw [List.map_append, h.everyone, List.map_fst_zip (by simp [hlength]), List.flatten_cons,
    writesOf_append, List.map_append]

end Loop

end Hadar.Wal
