import Hadar.Analysis.Calls
import Hadar.Analysis.Mailbox
import Hadar.Analysis.Sharing

/-!
# The thread among its callers runs the loop

The system takes the writer's loop apart into steps, between which callers act. Whatever these do,
the thread has come where the loop of the source comes that is given the messages it received: what
is left of the loop at each of its steps is a program, and the loop ends as this program does.
-/

set_option autoImplicit false

namespace Hadar.Wal

open Hadar.Lib Hadar.Lib.Prog Hadar.Storage Hadar.Mvcc

/-- The messages the thread received. -/
def receivedIn (deeds : List Deed) : List Message :=
  deeds.filterMap fun
    | .received message => some message
    | _ => none

section Loop

variable [Crc32] {interval : ℕ} {w : Writer} {s s' : System}

/-! ## What is left of the loop -/

/-- The rest of a turn that is past its receive loops, and of the loop. -/
def conclude (interval : ℕ) (pending : Pending) (queue : List Message) (polls : List Bool) :
    Prog Thread Error Unit := do
  retireBatch pending.batch
  checkpointIfDue interval pending.requested
  run interval queue polls .start

/-- What is left of the loop, where these messages and polls are to come. -/
def Stage.rest (interval : ℕ) (queue : List Message) (polls : List Bool) :
    Stage → Prog Thread Error Unit
  | draining pending => do
    let drained := drain queue polls pending
    Thread.note (drained.received.map .received)
    conclude interval drained.pending drained.queue drained.polls
  | collected pending => conclude interval pending queue polls
  | retired requested => do
    checkpointIfDue interval requested
    run interval queue polls .start
  | _ => run interval queue polls .start

omit [Crc32] in
theorem exec_note (deeds : List Deed) (t : Thread) :
    (Thread.note deeds).exec t = (.ok (), { t with deeds := t.deeds ++ deeds }) := rfl

/-- The first message of a turn.
SOURCE: crates/wal/src/writer.rs:140-144 -/
theorem rest_receiving (message : Message) (queue : List Message) (polls : List Bool) (t : Thread) :
    (Stage.receiving.rest interval (message :: queue) polls).exec t =
      ((Stage.draining (Pending.start.receive message)).rest interval queue polls).exec
        { t with deeds := t.deeds ++ [.received message] } := by
  dsimp only [Stage.rest]
  rw [run, exec_bind_ok (exec_note ..), exec_bind_ok (exec_note ..), List.append_assoc]
  rfl

/-- A message that a poll finds.
SOURCE: crates/wal/src/writer.rs:146-150 -/
theorem rest_draining {pending : Pending} (hroom : pending.batch.length < maxBatch)
    (message : Message) (queue : List Message) (polls : List Bool) (t : Thread) :
    ((Stage.draining pending).rest interval (message :: queue) (true :: polls)).exec t =
      ((Stage.draining (pending.receive message)).rest interval queue polls).exec
        { t with deeds := t.deeds ++ [.received message] } := by
  dsimp only [Stage.rest]
  rw [drain, if_pos hroom]
  dsimp only
  rw [exec_bind_ok (exec_note ..), exec_bind_ok (exec_note ..), List.append_assoc]
  rfl

/-- The loop ends without a message more, whatever the polls.
SOURCE: crates/wal/src/writer.rs:140 -/
theorem run_nil (polls polls' : List Bool) :
    run interval [] polls .start = run interval [] polls' .start := by
  rw [run, run]

/-- The inner loop ends, as the batch is full or a poll finds nothing.
SOURCE: crates/wal/src/writer.rs:146, 151 -/
theorem rest_collected (interval : ℕ) (pending : Pending) : ∃ poll : List Bool, ∀ (queue : List Message)
    (polls : List Bool) (t : Thread),
      ((Stage.draining pending).rest interval queue (poll ++ polls)).exec t =
        ((Stage.collected pending).rest interval queue polls).exec t := by
  by_cases hroom : pending.batch.length < maxBatch
  · refine ⟨[false], fun queue polls t => ?_⟩
    cases queue with
    | nil =>
      dsimp only [Stage.rest, drain]
      rw [exec_bind_ok (exec_note ..), List.map_nil, List.append_nil, conclude, conclude,
        run_nil ([false] ++ polls) polls]
    | cons message rest =>
      dsimp only [Stage.rest]
      rw [List.singleton_append, drain, if_pos hroom]
      dsimp only
      rw [exec_bind_ok (exec_note ..), List.map_nil, List.append_nil]
  · refine ⟨[], fun queue polls t => ?_⟩
    have hdrain : drain queue polls pending = ⟨pending, [], queue, polls⟩ := by
      cases queue with
      | nil => rfl
      | cons message rest =>
        unfold drain
        rw [if_neg hroom]
    dsimp only [Stage.rest]
    rw [List.nil_append, hdrain]
    dsimp only
    rw [exec_bind_ok (exec_note ..), List.map_nil, List.append_nil]

/-! ## Where the thread has come -/

/-- Whatever comes after what the thread received, the loop goes on from where the thread is; where
the thread panicked, so has the loop. -/
def Loops (interval : ℕ) (w : Writer) (stage : Stage) (t : Thread) : Prop :=
  match stage with
  | .crashed => True
  | .dead => ∃ messages polls, (run interval messages polls .start).exec ⟨w, []⟩ = (.error .panic, t)
  | stage => ∃ messages polls, ∀ queue polls',
    (run interval (messages ++ queue) (polls ++ polls') .start).exec ⟨w, []⟩ =
      (stage.rest interval queue polls').exec t

/-- The thread runs a part of what is left of the loop. -/
theorem loops_after {messages : List Message} {polls : List Bool} {stage : Stage}
    {p : Prog Thread Error Unit} (hstage : ∀ t, Loops interval w stage t = ∃ messages polls,
      ∀ queue polls', (run interval (messages ++ queue) (polls ++ polls') .start).exec ⟨w, []⟩ =
        (stage.rest interval queue polls').exec t)
    (hruns : ∀ queue polls', (run interval (messages ++ queue) (polls ++ polls') .start).exec
      ⟨w, []⟩ = (p >>= fun _ => stage.rest interval queue polls').exec s.thread) :
    Loops interval w (s.after stage p).stage (s.after stage p).thread := by
  unfold System.after
  rcases hexec : p.exec s.thread with ⟨(e | _ | _) | _, t⟩
  · -- the loop handles every error
    have herror := (hruns [] []).trans (exec_bind_error hexec)
    exact ((ends_run _ _ _).of_error herror).elim
  · exact ⟨messages ++ [], polls ++ [], (hruns [] []).trans (exec_bind_error hexec)⟩
  · trivial
  · dsimp only
    rw [hstage]
    exact ⟨messages, polls, fun queue polls' => (hruns queue polls').trans (exec_bind_ok hexec)⟩

theorem Loops.advance (h : Loops interval w s.stage s.thread)
    (ran : s.advance interval = some s') : Loops interval w s'.stage s'.thread := by
  unfold System.advance at ran
  cases hstage : s.stage with
  | receiving =>
    rw [hstage] at h ran
    obtain ⟨messages, polls, hruns⟩ := h
    dsimp only at ran
    split at ran
    · rename_i message rest hqueue
      cases ran
      refine ⟨messages ++ [message], polls, fun queue polls' => ?_⟩
      rw [List.append_assoc]
      exact (hruns (message :: queue) polls').trans (rest_receiving ..)
    · obtain ⟨hclosed, heq⟩ := Option.ite_none_right_eq_some.mp ran
      cases heq
      exact ⟨messages, polls, hruns⟩
  | draining pending =>
    rw [hstage] at h ran
    obtain ⟨messages, polls, hruns⟩ := h
    obtain ⟨poll, hpoll⟩ := rest_collected interval pending
    have hcollected : Loops interval w (.collected pending) s.thread := by
      refine ⟨messages, polls ++ poll, fun queue polls' => ?_⟩
      rw [List.append_assoc]
      exact (hruns queue (poll ++ polls')).trans (hpoll queue polls' s.thread)
    dsimp only at ran
    split at ran
    · rename_i hroom
      split at ran
      · rename_i message rest hqueue
        cases ran
        refine ⟨messages ++ [message], polls ++ [true], fun queue polls' => ?_⟩
        rw [List.append_assoc, List.append_assoc]
        exact (hruns (message :: queue) (true :: polls')).trans (rest_draining hroom ..)
      · cases ran
        exact hcollected
    · cases ran
      exact hcollected
  | collected pending =>
    rw [hstage] at h ran
    obtain ⟨messages, polls, hruns⟩ := h
    cases ran
    exact loops_after (fun _ => rfl) hruns
  | retired requested =>
    rw [hstage] at h ran
    obtain ⟨messages, polls, hruns⟩ := h
    cases ran
    exact loops_after (fun _ => rfl) hruns
  | finished | dead | crashed =>
    rw [hstage] at ran
    cases ran

/-! ## Beside the thread -/

omit [Crc32] in
theorem withStore_thread {store : KvStore}
    (h : Contents.view.seen store = Contents.view.seen s.thread.writer.host.store) :
    (s.withStore store).thread = s.thread := by
  obtain ⟨⟨commits, durable, replies⟩, state⟩ := store
  simp only [Contents.view, Contents.mk.injEq] at h
  obtain ⟨rfl, rfl, rfl⟩ := h
  rfl

omit [Crc32] in
/-- A read leaves the thread alone, but where the process stops at it.
SOURCE: crates/mvcc/src/store.rs:225-261 -/
theorem read_beside (id : ℕ) (bounds : Bounds) (at_ limit : Option ℕ)
    (calls : List Storage.Reply) : (s.read id bounds at_ limit calls).thread = s.thread ∧
      ((s.read id bounds at_ limit calls).stage = s.stage ∨
        (s.read id bounds at_ limit calls).stage = .crashed) := by
  have hseen := seen_range bounds at_ limit (s.storeFor calls)
  unfold System.read
  split
  · rename_i store hexec
    rw [hexec] at hseen
    exact ⟨withStore_thread hseen, .inr rfl⟩
  · rename_i result store _ hexec
    rw [hexec] at hseen
    exact ⟨withStore_thread hseen, .inl rfl⟩

/-- A step that is not the thread's leaves it where it is, but where the process stops. -/
theorem perform_beside {action : Action} {mark : Option (Mark Ask Outcome)}
    (ran : s.perform interval action = some (s', mark)) :
    s.advance interval = some s' ∧ mark = none ∨
      s'.thread = s.thread ∧ (s'.stage = s.stage ∨ s'.stage = .crashed) := by
  unfold System.perform at ran
  split at ran
  · cases ran
  cases action with
  | advance =>
    obtain ⟨system, hadvance, heq⟩ := Option.map_eq_some_iff.mp ran
    cases heq
    exact .inl ⟨hadvance, rfl⟩
  | read id calls =>
    dsimp only at ran
    split at ran
    · cases ran
      exact .inr (read_beside ..)
    · cases ran
  | call id ask =>
    dsimp only at ran
    split at ran <;> cases ran
    exact .inr ⟨rfl, .inl rfl⟩
  | send id =>
    dsimp only at ran
    split at ran
    · split at ran
      · cases ran
        exact .inr ⟨rfl, .inl rfl⟩
      · split at ran <;> cases ran
        exact .inr ⟨rfl, .inl rfl⟩
    · cases ran
  | ret id =>
    dsimp only at ran
    split at ran
    · cases ran
      exact .inr ⟨rfl, .inl rfl⟩
    · split at ran
      · cases ran
        exact .inr ⟨rfl, .inl rfl⟩
      · split at ran <;> cases ran
        exact .inr ⟨rfl, .inl rfl⟩
    · cases ran
  | drop id =>
    dsimp only at ran
    split at ran <;> cases ran <;> exact .inr ⟨rfl, .inl rfl⟩
  | shutdown =>
    dsimp only at ran
    split at ran <;> cases ran
    exact .inr ⟨rfl, .inl rfl⟩
  | join =>
    dsimp only at ran
    split at ran
    · split at ran <;> cases ran
      exact .inr ⟨rfl, .inl rfl⟩
    · cases ran

/-! ## The run of the loop -/

theorem Interleaving.loops {history : List (Mark Ask Outcome)}
    (h : Interleaving interval (System.start w true) history s) :
    Loops interval w s.stage s.thread := by
  induction h with
  | start => exact ⟨[], [], fun _ _ => rfl⟩
  | @performed history s s' mark action before ran ih =>
    rcases perform_beside ran with ⟨hadvance, -⟩ | ⟨hthread, hstage | hcrashed⟩
    · exact ih.advance hadvance
    · rwa [hthread, hstage]
    · rw [hcrashed]
      trivial

omit [Crc32] in
theorem receivedIn_deedsOf (rounds : List Round) :
    receivedIn (deedsOf rounds) = messagesOf rounds := by
  have hround : ∀ r : Round, receivedIn r.deeds = r.received := by
    intro r
    have hreceived : ∀ messages : List Message, receivedIn (messages.map .received) = messages := by
      intro messages
      rw [receivedIn, List.filterMap_map]
      exact List.filterMap_some
    have hretiring : receivedIn r.retiring = [] := by
      unfold Round.retiring
      split
      · rfl
      · simp [receivedIn, List.filterMap_map]
    have hcompacting : receivedIn r.compacting = [] := by
      unfold Round.compacting
      split
      · rfl
      · cases r.requested <;> simp [receivedIn]
    rw [Round.deeds, receivedIn, List.filterMap_append, List.filterMap_append]
    exact (congrArg₂ (· ++ ·) (congrArg₂ (· ++ ·) (hreceived r.received) hretiring)
      hcompacting).trans (by simp)
  induction rounds with
  | nil => rfl
  | cons r rest ih =>
    rw [deedsOf_cons, messagesOf_cons, receivedIn, List.filterMap_append]
    exact congrArg₂ (· ++ ·) (hround r) ih

/-- **The thread runs the loop of the source.** Whatever its callers do in between and whatever
becomes of the calls it makes: where the thread waits for a message, or has returned, it has done
what the loop does that is given the messages it received, for some answers to its polls; and where
it has panicked, a run of the loop panics there. -/
theorem thread_runs_loop {history : List (Mark Ask Outcome)}
    (h : Interleaving interval (System.start w true) history s) :
    (s.stage = .receiving ∨ s.stage = .finished → ∃ polls,
      (run interval (receivedIn s.thread.deeds) polls .start).exec ⟨w, []⟩ = (.ok (), s.thread)) ∧
    (s.stage = .dead → ∃ messages polls,
      (run interval messages polls .start).exec ⟨w, []⟩ = (.error .panic, s.thread)) := by
  have hloops := h.loops
  have hrun : ∀ messages polls,
      (run interval messages polls .start).exec ⟨w, []⟩ = (.ok (), s.thread) →
      receivedIn s.thread.deeds = messages := by
    intro messages polls hexec
    obtain ⟨rounds, -, hmessages, hdeeds⟩ := (ends_run messages polls ⟨w, []⟩).of_ok hexec
    rw [hdeeds, ← hmessages]
    exact receivedIn_deedsOf rounds
  refine ⟨fun hstage => ?_, fun hstage => ?_⟩
  · obtain ⟨messages, polls, hruns⟩ : ∃ messages polls, ∀ queue polls',
        (run interval (messages ++ queue) (polls ++ polls') .start).exec ⟨w, []⟩ =
          (run interval queue polls' .start).exec s.thread := by
      rcases hstage with hstage | hstage <;> rw [hstage] at hloops <;> exact hloops
    have hexec := hruns [] []
    rw [run, List.append_nil, List.append_nil] at hexec
    refine ⟨polls, ?_⟩
    rw [hrun messages polls hexec]
    exact hexec
  · rw [hstage] at hloops
    exact hloops

end Loop

/-- Where the thread waits for a message. -/
def Stage.isReceiving : Stage → Bool
  | receiving => true
  | _ => false

/-- Two writes share a batch, and one comes after it while the first is read. -/
theorem thread_runs_loop_shared : ∃ (s : System) (polls : List Bool),
    (receivedIn s.thread.deeds).length = 2 ∧ (@run crc32fast 1 (receivedIn s.thread.deeds) polls
      .start).exec ⟨freshWriter.given [] [], []⟩ = (.ok (), s.thread) := by
  have hruns : ((@System.performs crc32fast 1 (System.opened freshWriter [] [] true)
      (sharedWrites ++ laterRead)).any fun p => p.1.stage.isReceiving &&
        (receivedIn p.1.thread.deeds).length == 2) = true := by decide +kernel
  obtain ⟨⟨s, history⟩, hperforms, hat⟩ := (Option.any_eq_true _ _).mp hruns
  simp only [Bool.and_eq_true, beq_iff_eq] at hat
  have hstage : s.stage = .receiving := by
    cases hs : s.stage <;> rw [hs] at hat <;> first | rfl | cases hat.1
  have hran := @Interleaving.performs crc32fast _ _ _ [] _ (@Interleaving.start crc32fast 1 _) _ _
    hperforms
  obtain ⟨polls, hexec⟩ := (@thread_runs_loop crc32fast _ _ _ _ hran).1 (.inl hstage)
  exact ⟨s, polls, hat.2, hexec⟩

end Hadar.Wal
