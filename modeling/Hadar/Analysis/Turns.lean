import Hadar.Analysis.Crashes
import Hadar.Interface.Failures

/-!
# What a turn does

A turn retires a batch and may run a checkpoint. `retire` encodes the batch, rolls over if it
must, appends, and applies. A batch that is retired extends the log and the store by the same
mutations. One that is not leaves both as they were, but for two ways of failing: an append that
leaves a record behind, and an application that is refused once the records are in the log. A
checkpoint leaves the log what it is, however far it comes.
-/

set_option autoImplicit false

namespace Hadar.Mvcc

open Hadar.Lib Hadar.Lib.Prog Hadar.Storage Std

variable {α β : Type} {s : KvStore}

/-! ## Calls that are granted -/

/-- A call that is granted is not refused, and leaves one less to be granted. -/
theorem ends_onEngine_granted {n : ℕ} {effect : Prog Engine Storage.Error α}
    {ok : α → KvStore → Prop} (h : Wal.Granted (n + 1) s.engine.replies)
    (heffect : ∀ s' : KvStore, Wal.Granted n s'.engine.replies →
      Ends effect s'.engine (fun a e => ok a { s' with engine := e }) (fun _ _ => False)
        fun _ => True) :
    Ends (onEngine (call effect)) s ok (fun _ _ => False) fun _ => True := by
  refine ends_zoom.mpr (ends_bind.mpr ?_)
  have hnext : Ends Storage.nextReply s.engine
      (fun r e => r = s.engine.replies.headD .done ∧ e = { s.engine with
        replies := s.engine.replies.tail }) (fun _ _ => False) fun _ => False := by
    unfold Storage.nextReply
    refine ends_bind.mpr (ends_get.mpr ?_)
    cases hr : s.engine.replies with
    | nil => exact ends_pure.mpr ⟨rfl, by rw [List.tail_nil, ← hr]⟩
    | cons r rest => exact ends_bind.mpr (ends_set.mpr (ends_pure.mpr ⟨rfl, rfl⟩))
  refine Ends.mono hnext (fun r e hr => ?_) (fun _ _ h => h.elim) fun _ h => h.elim
  obtain ⟨hr, rfl⟩ := hr
  cases r with
  | done =>
    refine heffect { s with engine := { s.engine with replies := s.engine.replies.tail } } ?_
    intro e applied hmem
    refine h e applied ?_
    cases hreplies : s.engine.replies with
    | nil => simp [hreplies] at hmem
    | cons first rest =>
      rw [List.take_succ_cons]
      simp only [hreplies, List.tail_cons] at hmem
      exact List.mem_cons_of_mem _ hmem
  | refused e applied =>
    refine absurd ?_ (h e applied)
    cases hreplies : s.engine.replies with
    | nil => rw [hreplies] at hr; cases hr
    | cons first rest =>
      rw [hreplies] at hr
      rw [List.take_succ_cons, show first = .refused e applied from hr.symm]
      exact List.mem_cons_self ..
  | crash => exact ends_crashing.mpr trivial

/-- A batch's inserts are not refused. -/
theorem ends_writeBatch_granted (batch : List Mutation) (n : ℕ) (txn : WriteTxn)
    (revision : Revision) (revisions : List Revision)
    (h : Wal.Granted (batch.length + n) s.engine.replies) :
    Ends (writeBatch batch txn revision revisions) s
      (fun _ s' => Wal.Granted n s'.engine.replies) (fun _ _ => False) fun _ => True := by
  induction batch generalizing txn revision revisions s with
  | nil => exact ends_pure.mpr (by rwa [List.length_nil, Nat.zero_add] at h)
  | cons m rest ih =>
    rw [writeBatch]
    cases hnext : revision.nextMain with
    | none => exact ends_panicking.mpr trivial
    | some next =>
      rw [List.length_cons, Nat.add_right_comm] at h
      exact ends_bind.mpr (ends_onEngine_granted h fun s' hs' => ends_pure.mpr (ih _ _ _ hs'))

/-- Applying a batch makes one call to begin, one for each mutation, one for the position and
one to commit.
SOURCE: crates/mvcc/src/store.rs:171-213 -/
theorem ends_apply_granted (batch : List Mutation) (upto : ℕ)
    (h : Wal.Granted (batch.length + 3) s.engine.replies) :
    Ends (apply batch upto) s (fun _ _ => True) (fun _ _ => False) fun _ => True := by
  refine ends_bind.mpr (ends_get.mpr (ends_bind.mpr (ends_onEngine_granted h fun s1 h1 =>
    ends_bind.mpr (ends_get.mpr (ends_pure.mpr (ends_bind.mpr ?_))))))
  refine Ends.mono (ends_writeBatch_granted batch 2 _ _ _ h1) (fun r s2 h2 => ?_)
    (fun _ _ h => h) fun _ h => h
  refine ends_bind.mpr (ends_onEngine_granted h2 fun s3 h3 => ends_pure.mpr ?_)
  refine ends_bind.mpr (ends_onEngine_granted h3 fun s4 _ => ends_modify.mpr ?_)
  exact ends_bind.mpr (ends_modify.mpr (ends_pure.mpr trivial))

/-- Applying a batch fails only where one of its calls is refused. -/
theorem ends_apply_refused (batch : List Mutation) (upto : ℕ) :
    Ends (apply batch upto) s (fun _ _ => True)
      (fun _ _ => ¬ Wal.Granted (batch.length + 3) s.engine.replies) fun _ => True := by
  by_cases h : Wal.Granted (batch.length + 3) s.engine.replies
  · exact Ends.mono (ends_apply_granted batch upto h) (fun _ _ h => h) (fun _ _ h => h.elim)
      fun _ h => h
  · exact Ends.mono (ends_exec _ _) (fun _ _ _ => trivial) (fun _ _ _ => h) fun _ _ => trivial

end Hadar.Mvcc

namespace Hadar.Wal

open Hadar.Lib Hadar.Lib.Prog Hadar.Storage Hadar.Mvcc Std

variable {w w' : Writer} {log : List Mutation} {start : ℕ} {older : List (List Mutation)}
  {active : List Mutation} {torn : Bytes} {batch : List Request}

/-! ## Up to the append -/

section Rolled

/-- A roll-over flushes nothing and leaves nothing unflushed. -/
theorem Rolled.flushed (h : Rolled w w' start older active torn) (hflushed : Flushed w.host.disk) :
    Flushed w'.host.disk := by
  cases h with
  | stayed full same => exact same ▸ hflushed
  | moved full nonempty clean reply replies store appended segment files =>
    intro p hp
    rw [files] at hp
    rcases List.mem_append.mp hp with hp | hp
    · exact hflushed p hp
    · rw [List.mem_singleton.mp hp]

/-- Only a segment that was poisoned before is poisoned after, and then nothing changed. -/
theorem Rolled.eq_of_poisoned (h : Rolled w w' start older active torn)
    (hpoisoned : w'.segment.poisoned = true) : w' = w := by
  cases h with
  | stayed full same => exact same
  | moved full nonempty clean reply replies store appended segment files =>
    rw [segment] at hpoisoned
    cases hpoisoned

theorem Rolled.limit (h : Rolled w w' start older active torn) :
    w'.segment.limit = w.segment.limit := by
  cases h with
  | stayed full same => rw [same]
  | moved full nonempty clean reply replies store appended segment files => rw [segment]

theorem Rolled.appended (h : Rolled w w' start older active torn) : w'.appended = w.appended := by
  cases h with
  | stayed full same => rw [same]
  | moved full nonempty clean reply replies store appended segment files => exact appended

/-- A new segment is counted from its beginning. -/
theorem Rolled.written (h : Rolled w w' start older active torn) :
    w'.segment.written = if w.segment.isFull then 0 else w.segment.written := by
  cases h with
  | stayed full same => rw [same, full, if_neg Bool.false_ne_true]
  | moved full nonempty clean reply replies store appended segment files =>
    rw [segment, full, if_pos rfl]

theorem Rolled.replies (h : Rolled w w' start older active torn) :
    w'.host.disk.replies = w.appending := by
  cases h with
  | stayed full same => rw [same, Writer.appending, full, if_neg Bool.false_ne_true]
  | moved full nonempty clean reply replies store appended segment files =>
    rw [replies, Writer.appending, full, if_pos rfl]

theorem Rolled.replies_suffix (h : Rolled w w' start older active torn) :
    w'.host.disk.replies <:+ w.host.disk.replies := by
  rw [h.replies, Writer.appending]
  split
  · exact List.tail_suffix _
  · exact List.suffix_refl _

theorem Rolled.refuses (h : Rolled w w' start older active torn)
    (hrefuses : Faults.Refuses w'.host.disk) : Faults.Refuses w.host.disk := by
  obtain ⟨cut, hmem⟩ := hrefuses
  exact ⟨cut, h.replies_suffix.subset hmem⟩

theorem Rolled.crashes (h : Rolled w w' start older active torn)
    (hcrashes : Faults.Crashes w'.host.disk) : Faults.Crashes w.host.disk := by
  obtain ⟨cut, hmem⟩ := hcrashes
  exact ⟨cut, h.replies_suffix.subset hmem⟩

/-- A batch that can be encoded reaches a segment that is not poisoned. -/
theorem Rolled.appends (h : Rolled w w' start older active torn)
    (hencodable : ∀ m ∈ mutationsOf batch, Encodable m) (hsound : w'.segment.poisoned = false) :
    Appends w batch := by
  cases h with
  | stayed full same =>
    subst same
    exact ⟨hencodable, fun hfull => absurd (full.symm.trans hfull) Bool.false_ne_true,
      fun _ => hsound⟩
  | moved full nonempty clean reply replies store appended segment files =>
    refine ⟨hencodable, fun _ => ⟨reply, ?_⟩,
      fun hfull => absurd (hfull.symm.trans full) Bool.false_ne_true⟩
    refine OrderedMap.contains_eq_false fun file hfile => ?_
    have hasc := OrderedMap.ascending_toList w'.host.disk.files
    rw [files] at hasc
    have hlt := (List.pairwise_append.mp hasc).2.2 _ hfile _ (List.mem_singleton_self _)
    exact ne_of_cmp_lt hlt rfl

end Rolled

/-! ## Retiring -/

section Retiring

variable [Crc32]

/-- A batch that cannot be encoded is refused before anything is done.
SOURCE: crates/wal/src/writer.rs:182-189 -/
theorem ends_retire_spoiled (hbatch : ¬ ∀ m ∈ mutationsOf batch, Encodable m) :
    Ends (retire batch) w (fun _ _ => False) (fun _ w' => w' = w) fun _ => False := by
  obtain ⟨e, he⟩ := encodeBatch_error hbatch []
  rw [retire, he]
  exact ends_fail.mpr rfl

/-- What a batch that was retired made of the writer. -/
structure Retired (w w' : Writer) (log : List Mutation) (start : ℕ) (batch : List Mutation)
    (revisions : List Revision) : Prop where
  encodable : ∀ m ∈ batch, Encodable m
  revisions : revisions = (stampedFrom log.length batch).map (·.1)
  follows : ∃ older active, Follows w' (log ++ batch) start older active []
  sound : w'.segment.poisoned = false
  limit : w'.segment.limit = w.segment.limit
  written : w'.segment.written =
    (if w.segment.isFull then 0 else w.segment.written) + (recordsOf batch).length
  appended : w'.appended = w.appended + (recordsOf batch).length
  flushed : Flushed w.host.disk → Flushed w'.host.disk
  replies : w'.host.disk.replies <:+ w.host.disk.replies
  calls : w'.host.store.engine.replies <:+ w.host.store.engine.replies

/-- What a batch that was not made of it. -/
inductive Unretired (w w' : Writer) (log : List Mutation) (batch : List Request) : Prop where
  | unchanged (d : Disk) (same : w' = { w with host := { w.host with disk := d } })
    (later : w.host.disk.Later d)
    (why : (¬ ∀ m ∈ mutationsOf batch, Encodable m) ∨ Faults.Refuses w.host.disk ∨
      w.segment.poisoned = true ∨ w.segment.limit = 0)
  | unappended (appends : Appends w batch) (refused : Faults.Refuses w.host.disk)
    (follows : Harmless (mutationsOf batch) w.appending →
      ∃ start older active torn, Follows w' log start older active torn)
  | unapplied (appends : Appends w batch) (refused : Faults.Refuses w.host.store)
    (denied : ¬ Granted ((mutationsOf batch).length + 3) w.host.store.engine.replies)
    (follows : mutationsOf batch = [] → ∃ start older active, Follows w' log start older active [])
    (sound : w'.segment.poisoned = false) (flushed : Flushed w.host.disk → Flushed w'.host.disk)

/-- A segment that is not poisoned ends with a record. -/
theorem Follows.clean (h : Follows w log start older active torn)
    (hsound : w.segment.poisoned = false) : torn = [] := by
  by_contra hne
  rw [h.placed.clean hne] at hsound
  cases hsound

/-- Records in the log that the store has not applied. -/
theorem Follows.resting_appended (h : Follows w log start older active torn)
    {more : List Mutation} (hmore : ∀ m ∈ more, Encodable m)
    (hplaced : Placed w' start older (active ++ more) [])
    (hstore : w.host.store.Later w'.host.store) :
    Resting w'.host.disk w'.host.store.engine (log ++ more) start older (active ++ more) [] := by
  have hle := h.start_le
  refine ⟨hplaced.segments, hplaced.written, by rw [List.length_append]; omega, ?_, fun m hm => ?_,
    (h.backed.append more).later hstore.engine, ?_⟩
  · rw [List.drop_append_of_le_length hle, h.holds, List.append_assoc]
  · exact (List.mem_append.mp hm).elim (h.encodable m) (hmore m)
  · rw [hstore.engine.commits, hstore.engine.durable]
    exact h.durable

/-- Applying the records that were appended. Where that is refused they stay in the log, and
where it stops a restart applies them.
SOURCE: crates/wal/src/writer.rs:199-207 -/
theorem Follows.ends_applying (h : Follows w log start older active torn) {more : List Mutation}
    (hmore : ∀ m ∈ more, Encodable m) {w₁ : Writer}
    (hplaced : Placed w₁ start older (active ++ more) []) (hstore : w₁.host.store = w.host.store) :
    Ends (Writer.onHost (Host.onStore (Mvcc.apply more (log ++ more).length))) w₁
      (fun revisions w' => revisions = (stampedFrom log.length more).map (·.1) ∧
        Follows w' (log ++ more) start older (active ++ more) [] ∧ w'.segment = w₁.segment ∧
        w'.appended = w₁.appended ∧ w'.host.disk = w₁.host.disk ∧
        w'.host.store.engine.replies <:+ w.host.store.engine.replies)
      (fun _ w' => Faults.Refuses w.host.store ∧
        ¬ Granted (more.length + 3) w.host.store.engine.replies ∧
        (more = [] → Follows w' log start older active []) ∧ w'.segment = w₁.segment ∧
        w'.host.disk = w₁.host.disk)
      (fun w' => (Faults.Crashes w.host.store ∨ i64Max < (log ++ more).length) ∧
        Resting w'.host.disk w'.host.store.engine (log ++ more) start older (active ++ more) [] ∧
        w'.host.disk = w₁.host.disk) := by
  have hends := h.tracks.ends_apply more
  refine ends_zoom.mpr (ends_zoom.mpr ?_)
  rw [hstore]
  refine Ends.mono (hends.and (ends_apply_refused more _)) (fun revisions s hs => ?_) (fun _ s hs => ?_) fun s hs => ?_
  · obtain ⟨⟨hrevisions, htracks, contents, hsnapshot, hcommits, hdurable, hcalls⟩, -⟩ := hs
    exact ⟨hrevisions, h.extended (hplaced.of_files rfl rfl) hmore htracks hsnapshot hcommits
      hdurable, rfl, rfl, rfl, hcalls⟩
  · obtain ⟨⟨hlater, hrefused⟩, hdenied⟩ := hs
    refine ⟨hrefused.resolve_right id, hdenied, ?_, rfl, rfl⟩
    rintro rfl
    rw [List.append_nil] at hplaced
    exact h.replaced (hplaced.of_files rfl rfl) hlater
  · exact ⟨hs.1.2, h.resting_appended hmore (hplaced.of_files rfl rfl) hs.1.1, rfl⟩

/-- Applying a batch that was appended after a roll-over, or where none was needed.
SOURCE: crates/wal/src/writer.rs:199-207 -/
theorem Rolled.ends_applying {w₁ w₂ : Writer} {older₁ : List (List Mutation)}
    {active₁ : List Mutation} (hrolled : Rolled w w₁ start older active torn)
    (h : Follows w₁ log start older₁ active₁ []) (hstore₁ : w₁.host.store = w.host.store)
    (happends : Appends w batch) (hsound : w₂.segment.poisoned = false)
    (hplaced : Placed w₂ start older₁ (active₁ ++ mutationsOf batch) [])
    (hstore₂ : w₂.host.store = w₁.host.store)
    (happended : w₂.appended = w₁.appended + (recordsOf (mutationsOf batch)).length)
    (hsegment : w₂.segment = { w₁.segment with
      written := w₁.segment.written + (recordsOf (mutationsOf batch)).length })
    (hreplies : w₂.host.disk.replies <:+ w₁.host.disk.replies)
    (hflushed : Flushed w.host.disk → Flushed w₂.host.disk) :
    Ends (Writer.onHost (Host.onStore (Mvcc.apply (mutationsOf batch)
        (log ++ mutationsOf batch).length))) w₂
      (fun revisions w' => Retired w w' log start (mutationsOf batch) revisions)
      (fun _ w' => Unretired w w' log batch)
      (fun w' => (Faults.Crashes w.host ∨ i64Max < (log ++ mutationsOf batch).length) ∧
        (Flushed w.host.disk → ∀ disk engine, w'.host.disk.Crashed disk →
          EngineCrashed w'.host.store.engine engine →
          Dormant disk engine (log ++ mutationsOf batch))) := by
  refine Ends.mono (h.ends_applying happends.encodable hplaced hstore₂)
    (fun revisions w' hw' => ?_) (fun _ w' hw' => ?_) fun w' hw' => ?_
  · obtain ⟨hrevisions, h', hsegment', happended', hdisk, hcalls⟩ := hw'
    refine ⟨happends.encodable, hrevisions, ⟨_, _, h'⟩, by rw [hsegment']; exact hsound, ?_, ?_, ?_,
      fun hflushed₀ => ?_, ?_, hstore₁ ▸ hcalls⟩
    · rw [hsegment', hsegment]
      exact hrolled.limit
    · rw [hsegment', hsegment, ← hrolled.written]
    · rw [happended', happended, hrolled.appended]
    · rw [hdisk]
      exact hflushed hflushed₀
    · rw [hdisk]
      exact hreplies.trans hrolled.replies_suffix
  · obtain ⟨hrefused, hdenied, hnothing, hsegment', hdisk⟩ := hw'
    rw [hstore₁] at hrefused hdenied
    refine .unapplied happends hrefused hdenied (fun hnil => ⟨_, _, _, hnothing hnil⟩)
      (by rw [hsegment']; exact hsound) fun hflushed₀ => ?_
    rw [hdisk]
    exact hflushed hflushed₀
  · obtain ⟨hwhy, hresting, hsame⟩ := hw'
    exact ⟨hwhy.imp_left fun hcrashes => .inr (hstore₁ ▸ hcrashes),
      fun hflushed₀ disk engine hdisk hengine =>
        hresting.dormant (hsame ▸ hflushed hflushed₀) hdisk hengine⟩

/-- What retiring a batch ends in. A crash leaves the log with some of the batch's first
records behind it, provided that nothing was refused.
SOURCE: crates/wal/src/writer.rs:175-208 -/
theorem Follows.ends_retire (h : Follows w log start older active torn) (batch : List Request) :
    Ends (retire batch) w (fun revisions w' => Retired w w' log start (mutationsOf batch) revisions)
      (fun _ w' => Unretired w w' log batch)
      (fun w' => (Faults.Crashes w.host ∨ i64Max < (log ++ mutationsOf batch).length) ∧
        (¬ Faults.Refuses w.host.disk → w.segment.poisoned = false →
          Flushed w.host.disk → ∀ disk engine, w'.host.disk.Crashed disk →
            EngineCrashed w'.host.store.engine engine →
            ∃ n ≤ (mutationsOf batch).length, Dormant disk engine
              (log ++ (mutationsOf batch).take n))) := by
  by_cases hbatch : ∀ m ∈ mutationsOf batch, Encodable m
  case neg =>
    refine Ends.mono (ends_retire_spoiled hbatch) (fun _ _ h => h.elim) (fun _ w' hw' => ?_)
      fun _ h => h.elim
    exact .unchanged w.host.disk hw' (Disk.Later.refl _) (.inl hbatch)
  rw [retire, encodeBatch_eq hbatch, List.nil_append]
  refine ends_bind.mpr (Ends.mono (h.placed.ends_rollIfFull h.applied) (fun (_ : Unit) w1 hrolled => ?_)
    (fun _ w1 hw1 => ?_) fun w1 hw1 => ?_)
  · have happends := hrolled.appends hbatch
    obtain ⟨older1, active1, torn1, h1, hstore1, hroom1⟩ := h.rolled hrolled
    cases hpoisoned : w1.segment.poisoned with
    | true =>
      obtain rfl := hrolled.eq_of_poisoned hpoisoned
      refine ends_bind.mpr (Ends.mono (ends_append_poisoned hpoisoned _) (fun _ _ h => h.elim)
        (fun _ w2 hw2 => ?_) fun _ h => h.elim)
      subst hw2
      exact .unchanged _ rfl (Disk.Later.refl _) (.inr (.inr (.inl hpoisoned)))
    | false =>
      obtain rfl := h1.clean hpoisoned
      refine ends_bind.mpr (Ends.mono (h1.placed.ends_append hpoisoned hroom1 hbatch)
        (fun (_ : Unit) w2 hw2 => ?_) (fun _ w2 hw2 => ?_) fun w2 hw2 => ?_)
      · obtain ⟨hplaced2, hstore2, happended2, hsegment2, hreplies2, hfiles2⟩ := hw2
        have hsound2 : w2.segment.poisoned = false := by rw [hsegment2]; exact hpoisoned
        have hflushed2 : Flushed w.host.disk → Flushed w2.host.disk := by
          intro hflushed p hp
          obtain ⟨files, file, hlist, -, -⟩ := h1.placed.exists_file
          rw [hfiles2 files file hlist] at hp
          rcases List.mem_append.mp hp with hp | hp
          · exact hrolled.flushed hflushed p (by rw [hlist]; exact List.mem_append_left _ hp)
          · rw [List.mem_singleton.mp hp]
        have happlied : w2.host.store.state.applied + (mutationsOf batch).length =
            (log ++ mutationsOf batch).length := by
          rw [hstore2, h1.tracks.applied, List.length_append]
        refine ends_bind.mpr (ends_modify.mpr (ends_bind.mpr (ends_get.mpr ?_)))
        dsimp only
        rw [happlied]
        refine Ends.mono (hrolled.ends_applying h1 hstore1 (happends hpoisoned) hsound2
          (hplaced2.of_files rfl rfl) hstore2 (congrArg (· + _) happended2) hsegment2 hreplies2
          hflushed2) (fun _ _ h => h) (fun _ _ h => h) fun w' hw' => ?_
        refine ⟨hw'.1, fun _ _ hflushed disk engine hdisk hengine => ⟨_, Nat.le_refl _, ?_⟩⟩
        rw [List.take_length]
        exact hw'.2 hflushed disk engine hdisk hengine
      · obtain ⟨hrefused, hstore2, -, hharmless⟩ := hw2
        refine .unappended (happends hpoisoned) (hrolled.refuses hrefused) fun hsparing => ?_
        rw [← hrolled.replies] at hsparing
        obtain ⟨torn2, hplaced2⟩ := hharmless hsparing
        exact ⟨start, older1, active1, torn2,
          h1.replaced hplaced2 (hstore2 ▸ KvStore.Later.refl _)⟩
      · obtain ⟨hcrashes, hstore2, hwhy⟩ := hw2
        refine ⟨.inl (.inl (hrolled.crashes hcrashes)),
          fun hrefuses _ hflushed disk engine hdisk hengine => ?_⟩
        obtain ⟨files, file, hlist, -, -⟩ := h1.placed.exists_file
        obtain ⟨cut, -, hwritten⟩ := hwhy.resolve_left
          (fun hrefused => hrefuses (hrolled.refuses hrefused)) files file hlist
        exact h1.resting.dormant_appending (hrolled.flushed hflushed) hbatch hlist hwritten hdisk
          (hstore2 ▸ hengine)
  · obtain ⟨⟨d, rfl, hlater⟩, hwhy⟩ := hw1
    exact .unchanged d rfl hlater (.inr (hwhy.imp_right .inr))
  · obtain ⟨⟨d, rfl, hlater⟩, hcrashes⟩ := hw1
    have hsame : Follows { w with host := { w.host with disk := d } } log start older active torn :=
      h.later hlater.files rfl (KvStore.Later.refl _)
    refine ⟨.inl (.inl hcrashes),
      fun _ _ hflushed disk engine hdisk hengine => ⟨0, Nat.zero_le _, ?_⟩⟩
    rw [List.take_zero, List.append_nil]
    refine hsame.resting.dormant ?_ hdisk hengine
    show ∀ p ∈ d.files.toList, _
    rw [hlater.files]
    exact hflushed

/-! ## Checkpoints -/

omit [Crc32] in
/-- A checkpoint writes to no file. -/
theorem Compacted.flushed {h h' : Host} {files : List (ℕ × File)} {last : ℕ × File}
    (hcompacted : Compacted h h' files last) (hlist : h.disk.files.toList = files ++ [last])
    (hflushed : Flushed h.disk) : Flushed h'.disk := by
  unfold Flushed at *
  cases hcompacted with
  | untouched disk store => rwa [disk.files]
  | unsure disk state commits durable calls => rwa [disk.files]
  | taken k files' replies state commits durable calls =>
    intro p hp
    rw [files'] at hp
    refine hflushed p ?_
    rw [hlist]
    exact (List.mem_append.mp hp).elim (fun hp => List.mem_append_left _ (List.mem_of_mem_drop hp))
      fun hp => List.mem_append_right _ hp

omit [Crc32] in
theorem Compacted.suffix {h h' : Host} {files : List (ℕ × File)} {last : ℕ × File}
    (hcompacted : Compacted h h' files last) :
    h'.disk.replies <:+ h.disk.replies ∧ h'.store.engine.replies <:+ h.store.engine.replies := by
  cases hcompacted with
  | untouched disk store => exact ⟨disk.replies, store.engine.replies⟩
  | unsure disk state commits durable calls => exact ⟨disk.replies, calls⟩
  | taken k files' replies state commits durable calls => exact ⟨replies, calls⟩

omit [Crc32] in
/-- A checkpoint moves the store nowhere. -/
theorem Compacted.state_eq {h h' : Host} {files : List (ℕ × File)} {last : ℕ × File}
    (hcompacted : Compacted h h' files last) : h'.store.state = h.store.state := by
  cases hcompacted with
  | untouched disk store => exact store.state
  | unsure disk state commits durable calls => exact state
  | taken k files' replies state commits durable calls => exact state

/-- The writer after a checkpoint, whatever it ended in. -/
structure Checkpointed (w w' : Writer) (log : List Mutation) (active : List Mutation)
    (torn : Bytes) : Prop where
  follows : ∃ start older, Follows w' log start older active torn
  segment : w'.segment = w.segment
  appended : w'.appended = w.appended
  flushed : Flushed w.host.disk → Flushed w'.host.disk
  replies : w'.host.disk.replies <:+ w.host.disk.replies
  calls : w'.host.store.engine.replies <:+ w.host.store.engine.replies

/-- A checkpoint leaves the log what it is, and one that succeeds leaves the active segment alone.
SOURCE: crates/wal/src/wal.rs:265-285 -/
theorem Follows.ends_checkpoint (h : Follows w log start older active torn) :
    Ends (Writer.onHost compact) w
      (fun _ w' => Checkpointed w w' log active torn ∧
        w'.host.disk.segments = [(w.segment.sink, recordsOf active ++ torn)])
      (fun _ w' => Checkpointed w w' log active torn ∧ Faults.Refuses w.host)
      (fun w' => Checkpointed w w' log active torn ∧ Faults.Crashes w.host) := by
  obtain ⟨files, file, hlist, -, hdata⟩ := h.placed.exists_file
  have hcheckpointed : ∀ host : Host, Compacted w.host host files (w.segment.sink, file) →
      Checkpointed w { w with host := host } log active torn := fun host hcompacted =>
    ⟨h.compacted hlist hcompacted rfl, rfl, rfl, hcompacted.flushed hlist, hcompacted.suffix.1,
      hcompacted.suffix.2⟩
  have hnames : ∀ p ∈ w.host.disk.files.toList, p.1 ≤ w.host.store.state.applied := by
    intro p hp
    have hle := h.placed.name_le hp
    rw [h.placed.sink] at hle
    rw [h.applied, List.length_append]
    omega
  refine ends_zoom.mpr (Ends.mono (ends_compact hlist) (fun _ host hhost => ⟨?_, ?_⟩)
    (fun _ host hhost => ⟨hcheckpointed host hhost.1, hhost.2⟩)
    fun host hhost => ⟨hcheckpointed host hhost.1, hhost.2⟩)
  · exact hcheckpointed host hhost.1
  · rw [Disk.segments, hhost.2 hnames, List.map_singleton, hdata]

/-! ## One turn -/

section Turn

variable {interval : ℕ} {requested : Bool}
  {told done : List (Except Error (List Revision)) → Writer → Prop} {dead : Writer → Prop}

/-- A turn answers its batch and goes on to a checkpoint or not; nothing that fails on the way
ends it.
SOURCE: crates/wal/src/writer.rs:140-171 -/
theorem ends_turn (hempty : batch = [] → told [] w)
    (hretire : batch ≠ [] → Ends (retire batch) w (fun revisions => told (answer batch (.ok revisions)))
      (fun e => told (answer batch (.error e))) dead)
    (hcheckpoint : ∀ writes w', told writes w' → Ends (Writer.onHost compact) w'
      (fun _ w'' => done writes { w'' with appended := 0 }) (fun _ => done writes) dead)
    (hskip : ∀ writes w', told writes w' → w'.appended < interval → done writes w') :
    Ends (turn interval batch requested) w (fun answers => done answers.writes)
      (fun _ _ => False) dead := by
  unfold turn
  extract_lets rest
  -- what follows the answers, a checkpoint or none
  have hrest : ∀ writes w', told writes w' →
      Ends (rest writes) w' (fun answers => done answers.writes) (fun _ _ => False) dead := by
    intro writes w' htold
    have hafter := hcheckpoint writes w' htold
    show Ends (if requested = true then _ else _) _ _ _ _
    split
    · refine ends_bind.mpr (ends_attempt.mpr (Ends.mono hafter (fun removed w'' h => ?_)
        (fun e w'' h => ?_) fun _ h => h))
      · exact ends_bind.mpr (ends_modify.mpr (ends_pure.mpr h))
      · exact ends_pure.mpr h
    · refine ends_bind.mpr (ends_get.mpr ?_)
      split
      · refine ends_bind.mpr (ends_attempt.mpr (Ends.mono hafter (fun removed w'' h => ?_)
          (fun e w'' h => ?_) fun _ h => h))
        · exact ends_bind.mpr (ends_modify.mpr (ends_pure.mpr h))
        · exact ends_pure.mpr h
      · rename_i hlt
        exact ends_pure.mpr (hskip writes w' htold (Nat.lt_of_not_le hlt))
  cases hbatch : batch with
  | nil => exact ends_bind.mpr (ends_pure.mpr (hrest [] w (hempty hbatch)))
  | cons request others =>
    rw [← hbatch]
    have hne : batch ≠ [] := by rw [hbatch]; exact List.cons_ne_nil _ _
    rw [if_neg (by simpa using hne)]
    refine ends_bind.mpr (ends_attempt.mpr (Ends.mono (hretire hne) (fun revisions w' h => ?_)
      (fun e w' h => ?_) fun _ h => h))
    · exact ends_bind.mpr (ends_pure.mpr (hrest _ w' h))
    · exact ends_bind.mpr (ends_pure.mpr (hrest _ w' h))

/-- A turn that returns goes on with the run. -/
theorem Run.next {allowed : Writer → Turn → Prop} {w₀ : Writer} {turns : List Turn}
    {told : List Exchange} (h : Run interval allowed w₀ turns w told) {t : Turn}
    (hallowed : allowed (w.given t.replies t.calls) t)
    (hreturns : (turn interval t.batch t.requested).returnsFrom (w.given t.replies t.calls) = true) :
    ∃ answers : Answers, Run interval allowed w₀ (turns ++ [t]) (w.after interval t)
      (told ++ t.batch.zip answers.writes) := by
  obtain ⟨answers, hexec⟩ := exec_of_returnsFrom hreturns
  exact ⟨answers, .turned h hallowed hexec⟩

end Turn

/-! ## Answers -/

section Answers

variable {revisions : List Revision}

omit [Crc32] in
theorem length_answer (batch : List Request) (outcome : Except Error (List Revision)) :
    (answer batch outcome).length = batch.length := by
  induction batch generalizing outcome with
  | nil => cases outcome <;> rfl
  | cons request rest ih => cases outcome <;> simp [answer, ih]

omit [Crc32] in
theorem acknowledged_append (told told' : List Exchange) :
    acknowledged (told ++ told') = acknowledged told ++ acknowledged told' :=
  List.flatMap_append

omit [Crc32] in
/-- Splitting a batch's revisions by counting gives each mutation its own one.
SOURCE: crates/wal/src/writer.rs:211-226 -/
theorem acknowledged_answer_ok (h : revisions.length = (mutationsOf batch).length) :
    acknowledged (batch.zip (answer batch (.ok revisions))) = revisions.zip (mutationsOf batch) ∧
      Covers (batch.zip (answer batch (.ok revisions))) := by
  induction batch generalizing revisions with
  | nil => exact ⟨by simp [acknowledged, mutationsOf], fun x hx => absurd hx List.not_mem_nil⟩
  | cons request rest ih =>
    have hsplit : mutationsOf (request :: rest) = request.mutations ++ mutationsOf rest := rfl
    rw [hsplit, List.length_append] at h
    have htake : (revisions.take request.mutations.length).length = request.mutations.length :=
      List.length_take_of_le (by omega)
    have hdrop : (revisions.drop request.mutations.length).length = (mutationsOf rest).length := by
      rw [List.length_drop]
      omega
    obtain ⟨hzip, hcovers⟩ := ih hdrop
    constructor
    · rw [answer, List.zip_cons_cons, acknowledged, List.flatMap_cons, ← acknowledged, hzip, hsplit,
        ← List.zip_append htake, List.take_append_drop]
    · intro x hx revisions' hrevisions'
      rw [answer, List.zip_cons_cons] at hx
      rcases List.mem_cons.mp hx with rfl | hx
      · cases hrevisions'
        exact htake
      · exact hcovers x hx revisions' hrevisions'

omit [Crc32] in
/-- A batch that failed acknowledges nothing. -/
theorem acknowledged_answer_error (batch : List Request) (e : Error) :
    acknowledged (batch.zip (answer batch (.error e))) = [] ∧
      Covers (batch.zip (answer batch (.error e))) := by
  induction batch with
  | nil => exact ⟨rfl, fun x hx => absurd hx List.not_mem_nil⟩
  | cons request rest ih =>
    obtain ⟨hnone, hcovers⟩ := ih
    constructor
    · rw [answer, List.zip_cons_cons, acknowledged, List.flatMap_cons, ← acknowledged, hnone]
      rfl
    · intro x hx revisions hrevisions
      rw [answer, List.zip_cons_cons] at hx
      rcases List.mem_cons.mp hx with rfl | hx
      · cases hrevisions
      · exact hcovers x hx revisions hrevisions

end Answers

end Retiring

end Hadar.Wal
