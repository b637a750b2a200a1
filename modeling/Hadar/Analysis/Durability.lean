import Hadar.Analysis.Attending
import Hadar.Analysis.Looping
import Hadar.Analysis.Spending
import Hadar.Analysis.Telling
import Hadar.Interface.Durability

/-!
# Durable linearizability

While a log is served by a process, what a crash would leave of it at any point is all that took
effect, and after a batch was cut short some of that batch. So each process begins where the
callers of the one before left the log, but for writes that nobody was told of.
-/

set_option autoImplicit false

namespace Hadar.Wal

open Hadar.Lib Hadar.Lib.Prog Hadar.Storage Hadar.Mvcc

/-! ## What the thread keeps -/

theorem Obliging.spent {o o' : Outlook} (h : Obliging o.replies o.calls) (hspent : o.Spent o') :
    Obliging o'.replies o'.calls :=
  ⟨fun cut hmem => h.1 cut (hspent.replies.subset hmem),
    fun e applied hmem => h.2 e applied (hspent.calls.subset hmem)⟩

/-- Nothing that the writer asks of its directory and its engine is refused. -/
def Writer.Obliged (w : Writer) : Prop := Obliging w.outlook.replies w.outlook.calls

section Thread

variable [Crc32] {t : Thread} {w : Writer} {base log : List Mutation}

/-- What a batch that is cut short leaves to a restart. -/
def Leaves (w : Writer) (log batch : List Mutation) : Prop :=
  ∀ disk engine, w.host.disk.Crashed disk → EngineCrashed w.host.store.engine engine →
    ∃ part, part <+: batch ∧ Dormant disk engine (log ++ part)

/-- Retiring a batch logs it as a whole, or not at all, or is cut short.
SOURCE: crates/wal/src/writer.rs:175-208 -/
theorem Steady.ends_retire_obliged (h : Steady w log) (hobliged : w.Obliged)
    (batch : List Request) :
    Ends (retire batch) w (fun _ w' => Steady w' (log ++ mutationsOf batch) ∧ w'.Obliged)
      (fun _ w' => Steady w' log ∧ w'.Obliged) (fun w' => Leaves w' log (mutationsOf batch)) := by
  have hdisk : ¬ Faults.Refuses w.host.disk := hobliged.disk w.host.disk.files
  have haccepting : Accepting w batch := hobliged.accepting w batch
  refine Ends.mono ((h.ends_retire hdisk haccepting).and ((spends_retire batch).ends w))
    (fun _ w' hw' => ⟨hw'.1.2, hobliged.spent hw'.2⟩)
    (fun _ w' hw' => ⟨hw'.1, hobliged.spent hw'.2⟩) fun w' hw' disk engine hcrashed hengine => ?_
  obtain ⟨n, hn, hle, hdormant⟩ := (hw'.1 disk engine hcrashed hengine).of_down
  refine ⟨(mutationsOf batch).take (n - log.length), List.take_prefix _ _, ?_⟩
  rwa [← List.take_length_add_append, Nat.add_sub_cancel' hn]

/-- SOURCE: crates/wal/src/writer.rs:154-157 -/
theorem ends_retireBatch_kept (h : Steady t.writer (base ++ appliedIn t.deeds))
    (hobliged : t.writer.Obliged) (batch : List (ℕ × Request)) :
    Ends (retireBatch batch) t
      (fun _ t' => Steady t'.writer (base ++ appliedIn t'.deeds) ∧ t'.writer.Obliged)
      (fun _ _ => False) (fun t' => t'.deeds = t.deeds ∧
        Leaves t'.writer (base ++ appliedIn t.deeds) (mutationsOf (batch.map (·.2)))) := by
  unfold retireBatch
  split
  · exact ends_pure.mpr ⟨h, hobliged⟩
  · refine ends_bind.mpr (ends_attempt.mpr (ends_zoom.mpr (Ends.mono
      (h.ends_retire_obliged hobliged (batch.map (·.2))) (fun revisions w' hw' => ?_)
      (fun e w' hw' => ?_) fun w' hw' => ⟨rfl, hw'⟩)))
    · refine ends_bind.mpr (ends_modify.mpr (ends_modify.mpr ⟨?_, hw'.2⟩))
      show Steady w' (base ++ appliedIn (t.deeds ++ _ ++ _))
      rw [List.append_assoc, List.singleton_append, appliedIn_append, appliedIn_retired,
        appliedIn_retired_ok, ← List.append_assoc]
      exact hw'.1
    · refine ends_bind.mpr (ends_modify.mpr (ends_modify.mpr ⟨?_, hw'.2⟩))
      show Steady w' (base ++ appliedIn (t.deeds ++ _ ++ _))
      rw [List.append_assoc, List.singleton_append, appliedIn_append, appliedIn_retired,
        show appliedIn [.retired batch (.error (id e))] = [] from rfl, List.append_nil]
      exact hw'.1

/-- SOURCE: crates/wal/src/writer.rs:159-170 -/
theorem ends_checkpointIfDue_kept (interval : ℕ) (h : Steady t.writer (base ++ appliedIn t.deeds))
    (hobliged : t.writer.Obliged) (requested : Option ℕ) :
    Ends (checkpointIfDue interval requested) t
      (fun _ t' => Steady t'.writer (base ++ appliedIn t'.deeds) ∧ t'.writer.Obliged)
      (fun _ _ => False) (fun t' => t'.deeds = t.deeds ∧
        Steady t'.writer (base ++ appliedIn t.deeds) ∧ t'.writer.Obliged) := by
  have hnote : ∀ {w' : Writer} {deeds : List Deed} (more : List Deed), appliedIn more = [] →
      Steady w' (base ++ appliedIn deeds) → Steady w' (base ++ appliedIn (deeds ++ more)) :=
    fun more hmore hw' => by rwa [appliedIn_append, hmore, List.append_nil]
  unfold checkpointIfDue
  extract_lets reset
  -- a compaction keeps the writer in step, and so does what follows it
  have hcompact : ∀ (f : Except Error ℕ → Prog Thread Error Unit),
      (∀ outcome (t₁ : Thread), Steady t₁.writer (base ++ appliedIn t₁.deeds) → t₁.writer.Obliged →
        Ends (f outcome) t₁
          (fun _ t' => Steady t'.writer (base ++ appliedIn t'.deeds) ∧ t'.writer.Obliged)
          (fun _ _ => False) fun _ => False) →
      Ends ((Thread.onWriter (Writer.onHost compact)).attempt >>= f) t
        (fun _ t' => Steady t'.writer (base ++ appliedIn t'.deeds) ∧ t'.writer.Obliged)
        (fun _ _ => False) (fun t' => t'.deeds = t.deeds ∧
          Steady t'.writer (base ++ appliedIn t.deeds) ∧ t'.writer.Obliged) := by
    intro f hf
    have hafter : ∀ outcome (w' : Writer), Steady w' (base ++ appliedIn t.deeds) → w'.Obliged →
        Ends (f outcome) { t with writer := w' }
          (fun _ t' => Steady t'.writer (base ++ appliedIn t'.deeds) ∧ t'.writer.Obliged)
          (fun _ _ => False) (fun t' => t'.deeds = t.deeds ∧
            Steady t'.writer (base ++ appliedIn t.deeds) ∧ t'.writer.Obliged) :=
      fun outcome w' hsteady hw' => Ends.mono (hf outcome _ hsteady hw') (fun _ _ h => h)
        (fun _ _ h => h) fun _ h => h.elim
    exact ends_bind.mpr (ends_attempt.mpr (ends_zoom.mpr (Ends.mono
      (h.ends_checkpoint.and (spends_compact.ends t.writer))
      (fun _ w' hw' => hafter _ w' hw'.1.1 (hobliged.spent hw'.2))
      (fun _ w' hw' => hafter _ w' hw'.1.1 (hobliged.spent hw'.2))
      fun w' hw' => ⟨rfl, hw'.1.1, hobliged.spent hw'.2⟩)))
  cases requested with
  | some respond =>
    refine hcompact _ fun outcome t₁ ht₁ hw₁ => ends_bind.mpr (ends_modify.mpr ?_)
    have hnoted := hnote [.compacted outcome] rfl ht₁
    split
    · refine ends_bind.mpr (ends_zoom.mpr (ends_modify.mpr (ends_modify.mpr ⟨?_, hw₁⟩)))
      exact hnote [.checkpointed respond outcome] rfl (hnoted.counting 0)
    · exact ends_modify.mpr ⟨hnote [.checkpointed respond outcome] rfl hnoted, hw₁⟩
  | none =>
    refine ends_bind.mpr (ends_get.mpr ?_)
    split
    · refine hcompact _ fun outcome t₁ ht₁ hw₁ => ends_bind.mpr (ends_modify.mpr ?_)
      have hnoted := hnote [.compacted outcome] rfl ht₁
      split
      · exact ends_zoom.mpr (ends_modify.mpr ⟨hnoted.counting 0, hw₁⟩)
      · exact ends_pure.mpr ⟨hnoted, hw₁⟩
    · exact ends_pure.mpr ⟨h, hobliged⟩

end Thread

/-! ## What a process keeps -/

section System

variable [Crc32] {s s' : System} {base log : List Mutation} {history : List (Mark Ask Outcome)}
  {order : List (Effect Ask Outcome)} {phase : ℕ → Phase Ask Outcome} {interval : ℕ}

/-- The writer of a process is in step with all that took effect; or it was cut short in a batch
of which nobody was told anything. -/
inductive Upheld (base : List Mutation) (history : List (Mark Ask Outcome)) (s : System) : Prop where
  | whole (steady : Steady s.thread.writer (base ++ appliedIn s.thread.deeds))
    (obliged : s.thread.writer.Obliged)
  | cut (batch : List (ℕ × Request))
    (stopped : s.stage.isCrashed = true ∨ s.stage.isOver = true)
    (once : (batch.map (·.1)).Nodup)
    (called : ∀ b ∈ batch, .called b.1 (.write b.2.mutations) ∈ history)
    (silent : ∀ b ∈ batch, Silent b.1 s.thread.deeds)
    (leaves : Leaves s.thread.writer (base ++ appliedIn s.thread.deeds)
      (mutationsOf (batch.map (·.2))))

/-- A step that leaves the thread alone. -/
theorem Upheld.idle (h : Upheld base history s) (more : List (Mark Ask Outcome))
    (hthread : s'.thread = s.thread)
    (hstopped : s.stage.isCrashed = true ∨ s.stage.isOver = true →
      s'.stage.isCrashed = true ∨ s'.stage.isOver = true) : Upheld base (history ++ more) s' := by
  cases h with
  | whole steady obliged => exact .whole (hthread ▸ steady) (hthread ▸ obliged)
  | cut batch stopped once called silent leaves =>
    exact .cut batch (hstopped stopped) once
      (fun b hb => List.mem_append_left _ (called b hb)) (hthread ▸ silent) (hthread ▸ leaves)

/-- The thread takes a step while it goes on. -/
theorem Upheld.advance (h : Upheld base history s)
    (hconsistent : Consistent base s history order phase log)
    (hadvance : s.advance interval = some s') : Upheld base history s' := by
  have hover := (advance_closed hadvance).2
  cases h with
  | cut batch stopped once called silent leaves =>
    rcases stopped with hcrashed | hstopped
    · unfold System.advance at hadvance
      split at hadvance <;> simp_all [Stage.isCrashed]
    · rw [hover] at hstopped
      cases hstopped
  | whole steady obliged =>
    have htaking : ∀ pending message rest, Upheld base history (s.taking pending message rest) :=
      fun pending message rest => .whole (by
        show Steady s.thread.writer (base ++ appliedIn (s.thread.deeds ++ [.received message]))
        rw [appliedIn_append]
        exact (List.append_nil (appliedIn s.thread.deeds)).symm ▸ steady) obliged
    unfold System.advance at hadvance
    split at hadvance
    · split at hadvance
      · cases hadvance
        exact htaking _ _ _
      · split at hadvance <;> cases hadvance
        exact .whole steady obliged
    · split at hadvance
      · split at hadvance <;> cases hadvance
        · exact htaking _ _ _
        · exact .whole steady obliged
      · cases hadvance
        exact .whole steady obliged
    · rename_i pending hstage
      cases hadvance
      have hends := ends_retireBatch_kept steady obliged pending.batch
      -- the callers of the batch wait and were told nothing
      have hflying : ∀ b ∈ pending.batch, .write b.1 b.2 ∈ s.inFlight := fun b hb => by
        rw [System.inFlight, hstage]
        exact List.mem_append_left _ (List.mem_append_right _ (List.mem_map_of_mem hb))
      have honce : (pending.batch.map (·.1)).Nodup := by
        have hbatch : List.Sublist (pending.batch.map fun b => Message.write b.1 b.2) s.inFlight := by
          rw [System.inFlight, hstage]
          exact (List.sublist_append_right _ _).trans (List.sublist_append_left _ _)
        have hdistinct := hconsistent.distinct.sublist (hbatch.map Message.respond)
        rwa [List.map_map] at hdistinct
      have hcalled : ∀ b ∈ pending.batch, .called b.1 (.write b.2.mutations) ∈ history :=
        fun b hb => (hconsistent.atomic.explained.pending _ _
          (hconsistent.flying _ (hflying b hb)).1).1
      have hcut : ∀ stage (queue : List Message) t', (stage : Stage).isCrashed = true ∨
          stage.isOver = true → t'.deeds = s.thread.deeds ∧ Leaves t'.writer
            (base ++ appliedIn s.thread.deeds) (mutationsOf (pending.batch.map (·.2))) →
          Upheld base history { s with stage := stage, queue := queue, thread := t' } := by
        rintro stage queue ⟨writer, deeds⟩ hstopped ⟨rfl, hleaves⟩
        exact .cut pending.batch hstopped honce hcalled
          (fun b hb => (hconsistent.flying _ (hflying b hb)).2.1) hleaves
      unfold System.after
      rcases hexec : (retireBatch pending.batch).exec s.thread with ⟨(e | _ | _) | ⟨⟩, t'⟩
      · exact (hends.of_error hexec).elim
      · exact hcut _ _ _ (.inr rfl) (hends.of_dead hexec (.inl rfl))
      · exact hcut _ s.queue _ (.inl rfl) (hends.of_dead hexec (.inr rfl))
      · obtain ⟨hsteady, hobliged⟩ := hends.of_ok hexec
        exact .whole hsteady hobliged
    · rename_i requested hstage
      cases hadvance
      have hends := ends_checkpointIfDue_kept interval steady obliged requested
      unfold System.after
      rcases hexec : (checkpointIfDue interval requested).exec s.thread with
        ⟨(e | _ | _) | ⟨⟩, ⟨writer, deeds⟩⟩
      · exact (hends.of_error hexec).elim
      · obtain ⟨rfl, hsteady, hobliged⟩ := hends.of_dead hexec (.inl rfl)
        exact .whole hsteady hobliged
      · obtain ⟨rfl, hsteady, hobliged⟩ := hends.of_dead hexec (.inr rfl)
        exact .whole hsteady hobliged
      · obtain ⟨hsteady, hobliged⟩ := hends.of_ok hexec
        exact .whole hsteady hobliged
    · cases hadvance
    · cases hadvance
    · cases hadvance

theorem Upheld.perform (h : Upheld base history s)
    (hconsistent : Consistent base s history order phase log) {action : Action}
    {mark : Option (Mark Ask Outcome)} (ran : s.perform interval action = some (s', mark)) :
    Upheld base (history ++ mark.toList) s' := by
  obtain ⟨hcrashed, -, hstage⟩ := perform_closed ran
  rcases perform_beside ran with ⟨hadvance, rfl⟩ | ⟨hthread, -⟩
  · rw [Option.toList_none, List.append_nil]
    exact h.advance hconsistent hadvance
  · refine h.idle _ hthread fun hstopped => ?_
    rcases hstopped with hstopped | hstopped
    · rw [hcrashed] at hstopped
      cases hstopped
    · rcases hstage with hsame | hstop | hover
      · exact .inr (hsame ▸ hstopped)
      · exact .inl (hstop ▸ rfl)
      · rw [hover] at hstopped
        cases hstopped

end System

/-! ## From one process to the next -/

section Processes

variable [Crc32] {options : Options} {interval : ℕ} {base : List Mutation} {s₀ s : System}
  {history : List (Mark Ask Outcome)} {histories : List (List (Mark Ask Outcome))}
  {disk : Disk} {engine : Engine}

/-- A log that is opened over a writer in step. -/
theorem Steady.upheld {w : Writer} (h : Steady w base) {replies : List Reply}
    {calls : List Storage.Reply} (hobliging : Obliging replies calls) (spawned : Bool) :
    Upheld base [] (System.opened w replies calls spawned) := by
  refine .whole ?_ hobliging
  show Steady (w.given replies calls) (base ++ [])
  rw [List.append_nil]
  exact h.given replies calls

theorem Interleaving.upheld (h : Interleaving interval s₀ history s)
    (hstart : Consistent base s₀ [] [] (fun _ => .absent) base) (hupheld : Upheld base [] s₀) :
    Upheld base history s := by
  induction h with
  | start => exact hupheld
  | performed action before ran ih =>
    obtain ⟨order, phase, log, hconsistent⟩ := before.consistent hstart
    exact ih.perform hconsistent ran

omit [Crc32] in
/-- The writes of a batch that ask for something leave what the batch does. -/
theorem flatMap_asking (batch : List (ℕ × Request)) :
    ((batch.filter fun b => !b.2.mutations.isEmpty).map fun b => (b.1, b.2.mutations)).flatMap
      (·.2) = mutationsOf (batch.map (·.2)) := by
  induction batch with
  | nil => rfl
  | cons b rest ih =>
    have hrest : mutationsOf ((b :: rest).map (·.2)) =
        b.2.mutations ++ mutationsOf (rest.map (·.2)) := rfl
    rw [hrest, ← ih]
    cases hmutations : b.2.mutations with
    | nil => simp [hmutations]
    | cons m more => simp [hmutations]

/-- What is found after a crash is what the callers were told, and some of what they were not. -/
theorem Upheld.durable (h : Upheld base history s) (hunheard : Unheard history s)
    {order : List (Effect Ask Outcome)}
    {phase : ℕ → Phase Ask Outcome} {log : List Mutation}
    (hconsistent : Consistent base s history order phase log) (hbefore : Durable histories base)
    (hdisk : s.thread.writer.host.disk.Crashed disk)
    (hengine : EngineCrashed s.thread.writer.host.store.engine engine) :
    ∃ log', Durable (histories ++ [history]) log' ∧ Dormant disk engine log' := by
  have hlinear := hconsistent.atomic.linearization
  have hexplained := hconsistent.atomic.explained
  cases h with
  | whole steady obliged =>
    rw [← hconsistent.logged] at steady
    have hnone : Unanswered history order [] := ⟨List.nodup_nil,
      nofun, nofun, nofun⟩
    refine ⟨log ++ [], .next hbefore hlinear hexplained.runs hnone List.nil_prefix, ?_⟩
    rw [List.append_nil]
    exact steady.dormant hdisk hengine
  | cut batch stopped once called silent leaves =>
    obtain ⟨part, hpart, hdormant⟩ := leaves disk engine hdisk hengine
    rw [← hconsistent.logged] at hdormant
    refine ⟨log ++ part, .next hbefore hlinear hexplained.runs ?_
      ((flatMap_asking batch).symm ▸ hpart), hdormant⟩
    have hmem : ∀ p ∈ (batch.filter fun b => !b.2.mutations.isEmpty).map
        fun b => (b.1, b.2.mutations), ∃ b ∈ batch, b.2.mutations ≠ [] ∧ p = (b.1, b.2.mutations) := by
      intro p hp
      obtain ⟨b, hb, rfl⟩ := List.mem_map.mp hp
      obtain ⟨hb, hasks⟩ := List.mem_filter.mp hb
      exact ⟨b, hb, by simpa using hasks, rfl⟩
    have hunsettled : ∀ b ∈ batch, b.2.mutations ≠ [] → ∀ e ∈ order, e.id = b.1 →
        ∀ revisions, e.result ≠ .write (.ok revisions) := by
      intro b hb hasks e he hid revisions hresult
      rcases hconsistent.acknowledged e he revisions hresult with hnothing | hanswered
      · have hown := hexplained.called e he
        rw [hid, hnothing] at hown
        exact hasks (Ask.write.inj (hexplained.calledOnce _ _ _ hown (called b hb))).symm
      · exact hanswered (hid ▸ silent b hb)
    refine ⟨?_, fun p hp => ?_, fun p hp => ?_, fun p hp outcome hreturned => ?_⟩
    · rw [List.map_map]
      exact once.sublist (List.filter_sublist.map _)
    · obtain ⟨b, hb, -, rfl⟩ := hmem p hp
      exact called b hb
    · obtain ⟨b, hb, hasks, rfl⟩ := hmem p hp
      exact hunsettled b hb hasks
    · obtain ⟨b, hb, hasks, rfl⟩ := hmem p hp
      -- a write is answered as one, and the thread did not answer this one
      obtain ⟨e, he, hid, rfl⟩ := hexplained.returned _ _ hreturned
      obtain ⟨result, hresult⟩ := writeResult_of_linear hlinear he (hid ▸ called b hb)
      rw [hresult] at hreturned ⊢
      rcases hunheard.returned _ _ hreturned (silent b hb) with rfl | rfl
      · exact absurd hresult (hunsettled b hb hasks e he hid [])
      · rfl

/-- What some processes left can be restored. -/
theorem Deployed.dormant (h : Deployed options interval disk engine histories) :
    ∃ log, Durable histories log ∧ Dormant disk engine log := by
  induction h with
  | fresh => exact ⟨[], .fresh, dormant_empty⟩
  | served before opening opened serving ran onDisk inEngine ih =>
    obtain ⟨log, hdurable, hdormant⟩ := ih
    have hsteady := ((hdormant.given _ _).ends_boot options).of_ok opened
    obtain ⟨order, phase, log', hconsistent⟩ := ran.consistent (hsteady.consistent ..)
    exact (ran.upheld (hsteady.consistent ..) (hsteady.upheld serving _)).durable
      (ran.unheard (hsteady.consistent ..) (unheard_start ..)) hconsistent hdurable onDisk inEngine
  | cutOpening before opening cut dead onDisk inEngine ih =>
    obtain ⟨log, hdurable, hdormant⟩ := ih
    exact ⟨log, hdurable,
      (((hdormant.given _ _).ends_boot options).of_dead cut dead).2 _ _ onDisk inEngine⟩

/-- The log is durably linearizable. Processes serve it one after another, each called by many at
once, and each is stopped at any point of any of its operations, while it is opened too. Then what
the last one left is what all of their callers were told, one process after another, and nothing
that was acknowledged is missing; what it holds beyond that is a part, from the first mutation on,
of writes that were in hand when a process stopped and were not acknowledged. A restart returns the
store of just that, unless it crashes itself or there are more mutations than revisions.
SOURCE: crates/wal/src/wal.rs:113-257, crates/wal/src/writer.rs:74-226 -/
theorem durably_linearizable (h : Deployed options interval disk engine histories) :
    ∃ log, Durable histories log ∧ ∀ replies calls, Obliging replies calls →
      (∀ stop m, (boot options).exec ({ disk with replies := replies },
        { engine with replies := calls }) = (.error stop, m) → (stop = .panic ∨ stop = .crash) ∧
          ((∃ cut, .crash cut ∈ replies) ∨ .crash ∈ calls ∨ i64Max < log.length)) ∧
      ∀ w m, (boot options).exec ({ disk with replies := replies },
        { engine with replies := calls }) = (.ok w, m) → IsStoreOf w.host.store log := by
  obtain ⟨log, hdurable, hdormant⟩ := h.dormant
  refine ⟨log, hdurable, fun replies calls hobliging =>
    ⟨fun stop m hexec => hdormant.stops_boot hobliging hexec, fun w m hexec => ?_⟩⟩
  obtain ⟨start, older, active, hfollows, -, -⟩ :=
    ((hdormant.given replies calls).ends_boot options).of_ok hexec
  exact isStoreOf_of_tracks hfollows.tracks

omit [Crc32] in
/-- What some of the first processes left, the others only add to. -/
theorem Durable.split {later : List (List (Mark Ask Outcome))} {log : List Mutation}
    (h : Durable (histories ++ later) log) : ∃ base, Durable histories base ∧ base <+: log := by
  generalize hall : histories ++ later = all at h
  induction h generalizing later with
  | fresh =>
    obtain ⟨rfl, -⟩ := List.append_eq_nil_iff.mp hall
    exact ⟨[], .fresh, List.prefix_refl _⟩
  | next before linear runs unanswered kept ih =>
    rcases List.eq_nil_or_concat later with rfl | ⟨front, last, rfl⟩
    · rw [List.append_nil] at hall
      subst hall
      exact ⟨_, .next before linear runs unanswered kept, List.prefix_refl _⟩
    · rw [List.concat_eq_append, ← List.append_assoc] at hall
      obtain ⟨base, hbase, hleads⟩ := ih (List.append_inj' hall rfl).1
      obtain rfl := added_of_runs runs
      exact ⟨base, hbase, hleads.trans ((List.prefix_append _ _).trans (List.prefix_append _ _))⟩

omit [Crc32] in
/-- The last of some processes is linearizable from what the others left. -/
theorem Durable.last {log : List Mutation} (h : Durable (histories ++ [history]) log) :
    ∃ base order final, Durable histories base ∧ Linearization (logObject base) history order ∧
      (logObject base).Runs base order final ∧ final <+: log := by
  generalize hall : histories ++ [history] = all at h
  cases h with
  | fresh => simp at hall
  | next before linear runs unanswered kept =>
    obtain ⟨rfl, hlast⟩ := List.append_inj' hall rfl
    obtain rfl := List.singleton_inj.mp hlast
    exact ⟨_, _, _, before, linear, runs, List.prefix_append _ _⟩

omit [Crc32] in
/-- What a process acknowledged is there when the others are through. -/
theorem Durable.acknowledged {log : List Mutation} (h : Durable histories log)
    (hhistory : history ∈ histories) {i : ℕ} {mutations : List Mutation}
    {revisions : List Revision} (hwrite : .called i (.write mutations) ∈ history)
    (hacknowledged : .returned i (.write (.ok revisions)) ∈ history) :
    revisions.length = mutations.length ∧ ∀ e ∈ revisions.zip mutations, e ∈ stamped log := by
  obtain ⟨front, back, rfl⟩ := List.append_of_mem hhistory
  rw [show front ++ history :: back = front ++ [history] ++ back by simp] at h
  obtain ⟨left, hleft, rest, rfl⟩ := h.split
  obtain ⟨base, order, final, -, hlinear, hruns, more, rfl⟩ := hleft.last
  obtain ⟨before, after, rfl⟩ := hlinear.taken hwrite hacknowledged
  rw [List.append_assoc]
  exact stamped_of_runs hruns _

/-- What was acknowledged outlives the process. What the processes before it left a later one has
the mutations of every write that one of them acknowledged, under the revisions it was answered
with; and there is an order that explains the later one, in which every read looks at that and at
the mutations of the writes before it, and finds what these say.
SOURCE: crates/wal/src/wal.rs:149-155, 197-257 -/
theorem acknowledged_outlives {earlier later : List (List (Mark Ask Outcome))}
    {history' : List (Mark Ask Outcome)} {i j : ℕ} {mutations : List Mutation}
    {revisions : List Revision} {bounds : Bounds} {at_ limit : Option ℕ} {records : List Record}
    (h : Deployed options interval disk engine (earlier ++ history' :: later))
    (hearlier : history ∈ earlier) (hwrite : .called i (.write mutations) ∈ history)
    (hacknowledged : .returned i (.write (.ok revisions)) ∈ history)
    (hread : .called j (.range bounds at_ limit) ∈ history')
    (hfound : .returned j (.range (.ok records)) ∈ history') :
    revisions.length = mutations.length ∧ ∃ base, Durable earlier base ∧
      (∀ e ∈ revisions.zip mutations, e ∈ stamped base) ∧ ∃ before after,
        Linearization (logObject base) history'
          (before ++ ⟨j, .range bounds at_ limit, .range (.ok records)⟩ :: after) ∧
        at_.getD (base ++ added before).length ≤ (base ++ added before).length ∧
        ∃ listed, Lists (stamped (base ++ added before)) bounds
            (at_.getD (base ++ added before).length) listed ∧
          records = capped limit listed := by
  obtain ⟨log, hdurable, -⟩ := h.dormant
  rw [show earlier ++ history' :: later = earlier ++ [history'] ++ later by simp] at hdurable
  obtain ⟨last, hlast, -⟩ := hdurable.split
  obtain ⟨base, order', final', hbase, hlinear', hruns', -⟩ := hlast.last
  obtain ⟨hlength, hstands⟩ := hbase.acknowledged hearlier hwrite hacknowledged
  obtain ⟨before, after, rfl⟩ := hlinear'.taken hread hfound
  obtain ⟨seen, hseen, _, hfinds, -⟩ := hruns'.split
  obtain rfl := added_of_runs hseen
  cases hfinds with
  | @found _ _ listed _ past lists =>
    exact ⟨hlength, base, hbase, hstands, before, after, hlinear', past, listed, lists, rfl⟩

end Processes

/-! ## A process that is cut short, and the next one -/

/-- A write that is acknowledged, and one whose batch is cut short. -/
def cutShort : List Action :=
  [.call 0 (.write [.put [107] [1]]), .send 0, .advance, .advance, .call 1 (.write [.delete [107]]),
    .send 1, .advance, .advance, .ret 0, .advance, .advance, .advance]

/-- A process that is opened over a directory and an engine and takes some steps. -/
def process (disk : Disk) (engine : Engine) (replies : List Reply) (actions : List Action) :
    System × List (Mark Ask Outcome) :=
  let w := (@boot crc32fast Options.default).returned ({ disk with replies := [] },
    { engine with replies := [] }) freshWriter
  let s := System.opened w replies [] true
  (@System.performs crc32fast 1000 s actions).getD (s, [])

/-- Where it takes those steps, a crash may follow. -/
theorem deployed_process {disk disk' : Disk} {engine engine' : Engine} {replies : List Reply}
    {actions : List Action} {histories : List (List (Mark Ask Outcome))}
    (before : @Deployed crc32fast Options.default 1000 disk engine histories)
    (hopens : (@boot crc32fast Options.default).returnsFrom ({ disk with replies := [] },
      { engine with replies := [] }) = true) (hserving : Obliging replies [])
    (hperforms : (@System.performs crc32fast 1000 (System.opened
      ((@boot crc32fast Options.default).returned ({ disk with replies := [] },
        { engine with replies := [] }) freshWriter) replies [] true) actions).isSome = true)
    (hdisk : (process disk engine replies actions).1.thread.writer.host.disk.Crashed disk')
    (hengine : EngineCrashed
      (process disk engine replies actions).1.thread.writer.host.store.engine engine') :
    @Deployed crc32fast Options.default 1000 disk' engine'
      (histories ++ [(process disk engine replies actions).2]) := by
  obtain ⟨⟨s, history⟩, hran⟩ := Option.isSome_iff_exists.mp hperforms
  have hprocess : process disk engine replies actions = (s, history) := by
    rw [process, hran]
    rfl
  rw [hprocess] at hdisk hengine ⊢
  exact @Deployed.served crc32fast _ _ _ _ _ _ _ _ _ [] replies [] [] _ true _ before
    ⟨by simp, by simp⟩ (exec_returned hopens freshWriter) hserving
    (@Interleaving.performs crc32fast _ _ _ [] _ (@Interleaving.start crc32fast 1000 _) _ _ hran)
    hdisk hengine

/-- The first process. -/
def cutProcess : System × List (Mark Ask Outcome) :=
  process Disk.empty Engine.empty [.done, .done, .crash 7] cutShort

/-- What the crash left in the segment: the first record, and the beginning of the second one. -/
def cutBytes : Bytes :=
  [90, 28, 135, 144, 0, 0, 0, 8, 1, 1, 0, 0, 0, 1, 107, 1, 73, 134, 155, 219, 0, 0, 0]

def cutDisk : Disk := ⟨Std.ExtTreeMap.empty.insert 0 ⟨cutBytes, cutBytes⟩, []⟩

/-- Nothing was checkpointed, so the engine may have lost everything. -/
theorem deployed_cutProcess :
    @Deployed crc32fast Options.default 1000 cutDisk Engine.empty [cutProcess.2] := by
  have hfiles : cutProcess.1.thread.writer.host.disk.files.toList =
      [(0, ⟨cutBytes, cutBytes.take 16⟩)] := by decide +kernel
  refine deployed_process (@Deployed.fresh crc32fast _ _) (by decide +kernel) ⟨by simp, by simp⟩
    (by decide +kernel) ?_ ⟨List.nil_suffix, ?_, Nat.zero_le _⟩
  · show List.Forall₂ _ cutProcess.1.thread.writer.host.disk.files.toList _
    rw [hfiles]
    exact .cons ⟨rfl, cutBytes, .inl ⟨List.take_prefix _ _, List.prefix_refl _⟩, rfl⟩ .nil
  · decide +kernel

/-- The second process reads everything. -/
def readingProcess : System × List (Mark Ask Outcome) :=
  process cutDisk Engine.empty [] [.call 2 (.range Bounds.all none none), .read 2 [], .ret 2]

theorem deployed_readingProcess : @Deployed crc32fast Options.default 1000
    readingProcess.1.thread.writer.host.disk.kept readingProcess.1.thread.writer.host.store.engine
    ([cutProcess.2] ++ [readingProcess.2]) :=
  deployed_process deployed_cutProcess (by decide +kernel) ⟨by simp, by simp⟩ (by decide +kernel)
    (Disk.crashed_kept (by decide +kernel)) ⟨List.suffix_refl _, rfl, by decide +kernel⟩

theorem durably_linearizable_cut : ∃ histories disk engine,
    @Deployed crc32fast Options.default 1000 disk engine histories ∧ histories.length = 2 ∧
    ∃ log, Durable histories log ∧ ∃ w m, (@boot crc32fast Options.default).exec
        ({ disk with replies := [] }, { engine with replies := [] }) = (.ok w, m) ∧
      IsStoreOf w.host.store log := by
  obtain ⟨log, hdurable, hrestarts⟩ :=
    @durably_linearizable crc32fast _ _ _ _ _ deployed_readingProcess
  have hreturns : (@boot crc32fast Options.default).returnsFrom
      ({ readingProcess.1.thread.writer.host.disk.kept with replies := [] },
        { readingProcess.1.thread.writer.host.store.engine with replies := [] }) = true := by
    decide +kernel
  obtain ⟨w, hexec⟩ := exec_of_returnsFrom hreturns
  exact ⟨_, _, _, deployed_readingProcess, rfl, log, hdurable, w, _, hexec,
    (hrestarts [] [] ⟨by simp, by simp⟩).2 w _ hexec⟩

/-- What the reader of the second process was told. -/
def foundIn : List (Mark Ask Outcome) → Option (List Record)
  | [.called 2 (.range ⟨.unbounded, .unbounded⟩ none none), .returned 2 (.range (.ok records))] =>
    some records
  | _ => none

theorem acknowledged_outlives_cut : ∃ (revisions : List Revision) (records : List Record),
    writeTold cutProcess.2 = some revisions ∧ foundIn readingProcess.2 = some records ∧
      revisions.length = [Mutation.put [107] [1]].length ∧ ∃ base, Durable [cutProcess.2] base ∧
        (∀ e ∈ revisions.zip [.put [107] [1]], e ∈ stamped base) ∧ ∃ before after,
          Linearization (logObject base) readingProcess.2
            (before ++ ⟨2, .range Bounds.all none none, .range (.ok records)⟩ :: after) ∧
          none.getD (base ++ added before).length ≤ (base ++ added before).length ∧
          ∃ listed, Lists (stamped (base ++ added before)) Bounds.all
              (none.getD (base ++ added before).length) listed ∧
            records = capped none listed := by
  have htold : (writeTold cutProcess.2).isSome = true := by decide +kernel
  have hfound : (foundIn readingProcess.2).isSome = true := by decide +kernel
  obtain ⟨revisions, hwrite⟩ := Option.isSome_iff_exists.mp htold
  obtain ⟨records, hread⟩ := Option.isSome_iff_exists.mp hfound
  have hbefore : .called 0 (.write [.put [107] [1]]) ∈ cutProcess.2 ∧
      .returned 0 (.write (.ok revisions)) ∈ cutProcess.2 := by
    generalize cutProcess.2 = history at hwrite
    unfold writeTold at hwrite
    split at hwrite
    · cases hwrite
      exact ⟨by simp, by simp⟩
    · cases hwrite
  have hafter : .called 2 (.range Bounds.all none none) ∈ readingProcess.2 ∧
      .returned 2 (.range (.ok records)) ∈ readingProcess.2 := by
    generalize readingProcess.2 = history at hread
    unfold foundIn at hread
    split at hread
    · cases hread
      exact ⟨by simp [Bounds.all], by simp⟩
    · cases hread
  exact ⟨revisions, records, hwrite, hread, @acknowledged_outlives crc32fast _ _ cutProcess.2 _ _
    [cutProcess.2] [] readingProcess.2 0 2 _ _ _ _ _ _ deployed_readingProcess
    (List.mem_singleton_self _) hbefore.1 hbefore.2 hafter.1 hafter.2⟩

end Hadar.Wal
