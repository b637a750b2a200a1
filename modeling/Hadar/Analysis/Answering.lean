import Hadar.Analysis.Lives

/-!
# What writers are answered

Requests of any lengths are folded into one batch, and the batch's revisions are split among
them again by counting. The store takes a batch whole or not at all and numbers on from where it
is, and nothing else the writer does moves its counter or touches its records. So over any run
the acknowledged writes share the revisions from the first one on, in the order of the queue.
-/

set_option autoImplicit false

namespace Hadar.Wal

open Hadar.Lib Hadar.Lib.Prog Hadar.Storage Hadar.Mvcc Std

/-! ## Programs that leave the store alone -/

section Frames

variable {α : Type} {w : Writer}

/-- What works on the directory leaves the store alone. -/
theorem ends_onDisk_store (p : Prog Disk Error α) :
    Ends (Writer.onDisk p) w (fun _ w' => w'.host.store = w.host.store)
      (fun _ w' => w'.host.store = w.host.store) fun w' => w'.host.store = w.host.store :=
  ends_zoom.mpr (ends_zoom.mpr (Ends.mono (ends_exec p _) (fun _ _ _ => rfl) (fun _ _ _ => rfl)
    fun _ _ => rfl))

/-- So does what works on the active segment. -/
theorem ends_onSegment_store (p : Prog Target Error α) :
    Ends (Writer.onSegment p) w (fun _ w' => w'.host.store = w.host.store)
      (fun _ w' => w'.host.store = w.host.store) fun w' => w'.host.store = w.host.store :=
  ends_zoom.mpr (Ends.mono (ends_exec p _) (fun _ _ _ => rfl) (fun _ _ _ => rfl) fun _ _ => rfl)

theorem ends_rollIfFull_store : Ends rollIfFull w (fun _ w' => w'.host.store = w.host.store)
    (fun _ w' => w'.host.store = w.host.store) fun w' => w'.host.store = w.host.store := by
  refine ends_bind.mpr (ends_get.mpr ?_)
  split
  · exact ends_bind.mpr (Ends.mono (ends_onDisk_store _) (fun _ _ h => ends_modify.mpr h)
      (fun _ _ h => h) fun _ h => h)
  · exact ends_pure.mpr rfl

end Frames

/-! ## The store over a run -/

/-- The store's counter after some mutations more, and their records under their revisions. -/
structure Numbered (s₀ s : KvStore) (events : List Event) : Prop where
  stamps : events = stampedFrom s₀.state.current.main (events.map (·.2))
  current : s.state.current.main = s₀.state.current.main + events.length
  records : ∀ e ∈ events,
    s.engine.committed[backendKey e.1 e.dies]? = some (encodeRecord e.2.key e.2.value)

section Numbered

variable {s₀ s s' : KvStore} {events : List Event}

theorem numbered_nil (s₀ : KvStore) : Numbered s₀ s₀ [] :=
  ⟨rfl, rfl, fun _ he => absurd he List.not_mem_nil⟩

/-- Calls that commit nothing. -/
theorem Numbered.later (h : Numbered s₀ s events) (hlater : s.Later s') :
    Numbered s₀ s' events :=
  ⟨h.stamps, by rw [hlater.state]; exact h.current, by
    rw [hlater.engine.committed]; exact h.records⟩

/-- A commit of the position alone. -/
theorem Numbered.mark (h : Numbered s₀ s events) (hstate : s'.state = s.state) {position : ℕ}
    (hcommitted : s'.engine.committed =
      s.engine.committed.insert appliedKey (encodePosition position)) :
    Numbered s₀ s' events := by
  refine ⟨h.stamps, by rw [hstate]; exact h.current, fun e he => ?_⟩
  rw [hcommitted, getElem?_marked]
  exact h.records e he

/-- Entries written past a record's own leave it alone, and are found themselves. -/
theorem getElem?_enteredContents {contents : Keyspace} {batch : List Event}
    (hdated : Dated Event.date batch) (e : Event) :
    (e ∈ batch → (enteredContents contents batch)[backendKey e.1 e.dies]? =
      some (encodeRecord e.2.key e.2.value)) ∧
    ((∀ x ∈ batch, e.date < x.date) → (enteredContents contents batch)[backendKey e.1 e.dies]? =
      contents[backendKey e.1 e.dies]?) := by
  induction batch generalizing contents with
  | nil => exact ⟨fun he => absurd he List.not_mem_nil, fun _ => rfl⟩
  | cons x rest ih =>
    obtain ⟨hfirst, hrest⟩ := List.pairwise_cons.mp hdated
    have hne : ∀ y : Event, e.date < y.date →
        (contents.insert y.entry.1 y.entry.2)[backendKey e.1 e.dies]? =
          contents[backendKey e.1 e.dies]? := by
      intro y hlt
      have hcmp : compare y.entry.1 (backendKey e.1 e.dies) ≠ .eq := by
        rw [show compare y.entry.1 (backendKey e.1 e.dies) = .gt from
          OrientedCmp.gt_iff_lt.mpr (compare_entry hlt)]
        exact Ordering.noConfusion
      rw [ExtTreeMap.getElem?_insert, if_neg hcmp]
    constructor
    · intro he
      rcases List.mem_cons.mp he with rfl | he
      · refine ((ih hrest).2 hfirst).trans ?_
        exact ExtTreeMap.getElem?_insert_self
      · exact (ih hrest).1 he
    · intro hlater
      refine ((ih hrest).2 fun y hy => hlater y (List.mem_cons_of_mem _ hy)).trans ?_
      exact hne x (hlater x (List.mem_cons_self ..))

/-- A batch that was applied. -/
theorem Numbered.entered (h : Numbered s₀ s events) {batch : List Mutation} {upto : ℕ}
    (hcurrent : s'.state.current.main = s.state.current.main + batch.length)
    (hcommitted : s'.engine.committed = (enteredContents s.engine.committed
      (stampedFrom s.state.current.main batch)).insert appliedKey (encodePosition upto)) :
    Numbered s₀ s' (events ++ stampedFrom s.state.current.main batch) := by
  have hcount : s.state.current.main + batch.length ≤ i64Max := by
    rw [← hcurrent]
    exact s'.state.current.main_le
  have hdated := dated_stampedFrom hcount
  have hevents := h.current
  have hdates : ∀ e ∈ events, e.date ≤ s.state.current.main := by
    intro e he
    rw [h.stamps] at he
    have hle : s₀.state.current.main + (events.map (·.2)).length ≤ i64Max := by
      rw [List.length_map]
      omega
    have := (lt_date_of_mem_stampedFrom hle he).2
    rw [List.length_map] at this
    omega
  refine ⟨?_, ?_, fun e he => ?_⟩
  · rw [List.map_append, map_snd_stampedFrom, stampedFrom_append, ← h.stamps, List.length_map,
      ← hevents]
  · rw [hcurrent, hevents, List.length_append, length_stampedFrom]
    omega
  · rw [hcommitted, getElem?_marked]
    rcases List.mem_append.mp he with he | he
    · rw [(getElem?_enteredContents hdated e).2 fun x hx => ?_]
      · exact h.records e he
      · have := (lt_date_of_mem_stampedFrom hcount hx).1
        have := hdates e he
        omega
    · exact (getElem?_enteredContents hdated e).1 he

end Numbered

/-! ## The writer over a run -/

section Runs

variable [Crc32] {interval : ℕ} {allowed : Writer → Turn → Prop} {turns : List Turn}
  {w₀ w : Writer} {told : List Exchange}

/-- Retiring a batch applies it as a whole, or does nothing to the store.
SOURCE: crates/wal/src/writer.rs:175-208 -/
theorem ends_retire_store (batch : List Request) :
    Ends (retire batch) w
      (fun revisions w' =>
        revisions = (stampedFrom w.host.store.state.current.main (mutationsOf batch)).map (·.1) ∧
        w'.host.store.state.current.main =
          w.host.store.state.current.main + (mutationsOf batch).length ∧
        ∃ upto, w'.host.store.engine.committed = (enteredContents w.host.store.engine.committed
          (stampedFrom w.host.store.state.current.main (mutationsOf batch))).insert appliedKey
            (encodePosition upto))
      (fun _ w' => w.host.store.Later w'.host.store) fun w' => w.host.store.Later w'.host.store := by
  have hsame : ∀ {w' : Writer}, w'.host.store = w.host.store → w.host.store.Later w'.host.store :=
    fun hstore => hstore ▸ KvStore.Later.refl _
  unfold retire
  split
  · exact ends_fail.mpr (KvStore.Later.refl _)
  · refine ends_bind.mpr (Ends.mono ends_rollIfFull_store (fun (_ : Unit) w1 h1 => ?_)
      (fun _ _ h => hsame h) fun _ h => hsame h)
    refine ends_bind.mpr (Ends.mono (ends_onSegment_store _) (fun (_ : Unit) w2 h2 => ?_)
      (fun _ _ h => hsame (h.trans h1)) fun _ h => hsame (h.trans h1))
    refine ends_bind.mpr (ends_modify.mpr (ends_bind.mpr (ends_get.mpr (ends_zoom.mpr
      (ends_zoom.mpr ?_)))))
    dsimp only
    rw [h2, h1]
    refine Ends.mono (ends_apply_any _ _) (fun revisions s hs => ?_) (fun _ _ h => h.1)
      fun _ h => h.1
    obtain ⟨hfits, hrevisions, hstate, hcommits, -⟩ := hs
    refine ⟨hrevisions, ?_, _, congrArg (List.headD · ∅) hcommits⟩
    rw [hstate]
    exact Revision.main_after hfits

omit [Crc32] in
/-- A checkpoint commits the position or nothing.
SOURCE: crates/wal/src/wal.rs:265-285 -/
theorem Numbered.ends_checkpoint {s₀ : KvStore} {events : List Event}
    (h : Numbered s₀ w.host.store events) :
    Ends (Writer.onHost compact) w (fun _ w' => Numbered s₀ w'.host.store events)
      (fun _ w' => Numbered s₀ w'.host.store events)
      fun w' => Numbered s₀ w'.host.store events := by
  have hmark : ∀ s : KvStore, s.state = w.host.store.state → s.engine.commits =
      w.host.store.engine.committed.insert appliedKey
        (encodePosition w.host.store.state.applied) :: w.host.store.engine.commits →
      Numbered s₀ s events := fun s hstate hcommits =>
    h.mark hstate (by rw [Engine.committed, hcommits]; rfl)
  refine ends_zoom.mpr (ends_bind.mpr (ends_zoom.mpr (Ends.mono Mvcc.ends_checkpoint
    (fun position s hs => ?_) (fun _ s hs => ?_) fun s hs => h.later hs.1)))
  · obtain ⟨-, hstate, hcommits, -, -⟩ := hs
    have hnumbered := hmark s hstate hcommits
    refine ends_bind.mpr (ends_zoom.mpr (Ends.mono (ends_exec _ _) (fun segments d _ => ?_)
      (fun _ _ _ => hnumbered) fun _ _ => hnumbered))
    exact ends_zoom.mpr (Ends.mono (ends_exec _ _) (fun _ _ _ => hnumbered) (fun _ _ _ => hnumbered)
      fun _ _ => hnumbered)
  · rcases hs.1 with hlater | ⟨hstate, hcommits, -, -⟩
    · exact h.later hlater
    · exact hmark s hstate hcommits

/-- What a run's answers and its store have come to. -/
structure Answered (w₀ w : Writer) (turns : List Turn) (told : List Exchange) : Prop where
  numbered : Numbered w₀.host.store w.host.store (acknowledged told)
  covers : Covers told
  queue : told.map (·.1) = turns.flatMap (·.batch)

/-- A turn answers each of its writes, with the next revisions if it acknowledges it. -/
theorem Answered.ends_turn (h : Answered w₀ w turns told) (t : Turn) :
    Ends (turn interval t.batch t.requested) (w.given t.replies t.calls)
      (fun answers w' => Answered w₀ w' (turns ++ [t]) (told ++ t.batch.zip answers.writes))
      (fun _ _ => False) fun _ => True := by
  have hgiven : Numbered w₀.host.store (w.given t.replies t.calls).host.store
      (acknowledged told) := ⟨h.numbered.stamps, h.numbered.current, h.numbered.records⟩
  have hanswered : ∀ writes w', writes.length = t.batch.length →
      Numbered w₀.host.store w'.host.store
        (acknowledged told ++ acknowledged (t.batch.zip writes)) →
      Covers (t.batch.zip writes) →
      Answered w₀ w' (turns ++ [t]) (told ++ t.batch.zip writes) := by
    intro writes w' hlength hnumbered hcovers
    refine ⟨by rwa [acknowledged_append], fun x hx => ?_, ?_⟩
    · exact (List.mem_append.mp hx).elim (h.covers x) (hcovers x)
    · rw [List.map_append, h.queue, List.map_fst_zip (Nat.le_of_eq hlength.symm),
        List.flatMap_append, List.flatMap_singleton]
  have hdone : ∀ {writes : List (Except Error (List Revision))} {w' w'' : Writer},
      Answered w₀ w' (turns ++ [t]) (told ++ t.batch.zip writes) →
      Numbered w₀.host.store w''.host.store
        (acknowledged (told ++ t.batch.zip writes)) →
      Answered w₀ w'' (turns ++ [t]) (told ++ t.batch.zip writes) :=
    fun hw' hnumbered => ⟨hnumbered, hw'.covers, hw'.queue⟩
  let after (writes : List (Except Error (List Revision))) (w' : Writer) : Prop :=
    Answered w₀ w' (turns ++ [t]) (told ++ t.batch.zip writes)
  refine @Wal.ends_turn _ _ _ _ _ after after _ (fun hnil => ?_) (fun _ => ?_)
    (fun writes w' hw' => ?_) fun _ _ hw' _ => hw'
  · refine hanswered [] _ (by rw [hnil]; rfl) ?_ ?_
    · rw [hnil, List.zip_nil_left, show acknowledged [] = [] from rfl, List.append_nil]
      exact hgiven
    · rw [hnil]
      exact fun x hx => absurd hx List.not_mem_nil
  · refine Ends.mono (ends_retire_store t.batch) (fun revisions w' hw' => ?_) (fun e w' hw' => ?_)
      fun _ _ => trivial
    · obtain ⟨rfl, hcurrent, upto, hcommitted⟩ := hw'
      have hlength : ((stampedFrom (w.given t.replies t.calls).host.store.state.current.main
          (mutationsOf t.batch)).map (·.1)).length = (mutationsOf t.batch).length := by
        rw [List.length_map, length_stampedFrom]
      obtain ⟨hzip, hcovers⟩ := acknowledged_answer_ok hlength
      refine hanswered _ w' (length_answer _ _) ?_ hcovers
      rw [hzip, zip_stampedFrom]
      exact hgiven.entered hcurrent hcommitted
    · obtain ⟨hnone, hcovers⟩ := acknowledged_answer_error t.batch e
      refine hanswered _ w' (length_answer _ _) ?_ hcovers
      rw [hnone, List.append_nil]
      exact hgiven.later hw'
  · exact Ends.mono hw'.numbered.ends_checkpoint (fun _ w'' h => hdone hw' h)
      (fun _ w'' h => hdone hw' h) fun _ _ => trivial

/-- Every run is answered so. -/
theorem Run.answered (h : Run interval allowed w₀ turns w told) : Answered w₀ w turns told := by
  induction h with
  | start => exact ⟨numbered_nil _, fun x hx => absurd hx List.not_mem_nil, rfl⟩
  | @turned turns w w' told t answers before permitted ran ih =>
    exact (ih.ends_turn t).of_ok ran

omit [Crc32] in
/-- Where every acknowledged write was given a revision for each mutation, pairing them loses
none. -/
theorem map_fst_acknowledged (h : Covers told) :
    (acknowledged told).map (·.1) = revisionsOf told := by
  induction told with
  | nil => rfl
  | cons x rest ih =>
    have hrest := ih fun y hy => h y (List.mem_cons_of_mem _ hy)
    obtain ⟨request, answer⟩ := x
    cases answer with
    | error e => exact hrest
    | ok revisions =>
      show (revisions.zip request.mutations ++ acknowledged rest).map (·.1) =
        revisions ++ revisionsOf rest
      rw [List.map_append, hrest,
        List.map_fst_zip (Nat.le_of_eq (h _ (List.mem_cons_self ..) revisions rfl))]

omit [Crc32] in
/-- The numbers of mutations in a row. -/
theorem map_main_stampedFrom {n : ℕ} {a : List Mutation} (h : n + a.length ≤ i64Max) :
    ((stampedFrom n a).map (·.1)).map (·.main) = List.range' (n + 1) a.length := by
  induction a generalizing n with
  | nil => rfl
  | cons m rest ih =>
    rw [List.length_cons] at h
    rw [stampedFrom_cons, List.map_cons, List.map_cons, ih (by omega), List.length_cons,
      List.range'_succ]
    congr 1
    exact Nat.min_eq_left (by omega)

/-- Writers share batches but never revisions. Over any run, however the queue is cut and
whatever fails, every write is answered in the order of the queue, the ones acknowledged were
given as many revisions as they have mutations, all of these together are numbered on from where
the store began, and each mutation's record is in the store under the revision it was answered
with.
SOURCE: crates/wal/src/writer.rs:126-226 -/
theorem run_revisions (h : Run interval allowed w₀ turns w told) :
    told.map (·.1) = turns.flatMap (·.batch) ∧ Covers told ∧
      (revisionsOf told).map (·.main) =
        List.range' (w₀.host.store.state.current.main + 1) (revisionsOf told).length ∧
      ∀ e ∈ acknowledged told, w.host.store.engine.committed[backendKey e.1 e.dies]? =
        some (encodeRecord e.2.key e.2.value) := by
  obtain ⟨hnumbered, hcovers, hqueue⟩ := h.answered
  refine ⟨hqueue, hcovers, ?_, hnumbered.records⟩
  have hcount : w₀.host.store.state.current.main +
      ((acknowledged told).map (·.2)).length ≤ i64Max := by
    rw [List.length_map, ← hnumbered.current]
    exact w.host.store.state.current.main_le
  have hmains := map_main_stampedFrom hcount
  rw [← hnumbered.stamps, map_fst_acknowledged hcovers, List.length_map,
    ← List.length_map (f := (·.1)), map_fst_acknowledged hcovers] at hmains
  exact hmains

end Runs

/-! ## Three writers -/

/-- Two writers that share a batch, one whose flush is refused, and another one. -/
def sharedTurn : Turn := ⟨[⟨[.put [107] [118]]⟩, ⟨[.put [108] [118], .delete [107]]⟩], false, [], []⟩

def refusedTurn : Turn := ⟨[⟨[.put [109] [118]]⟩], false, [.done, .refused 0], []⟩

theorem run_revisions_shared :
    ∃ w told, @Run crc32fast 1 (fun _ _ => True) freshWriter [sharedTurn, refusedTurn, sharedTurn]
        w told ∧ told.map (·.1) = sharedTurn.batch ++ refusedTurn.batch ++ sharedTurn.batch ∧
      Covers told ∧ (revisionsOf told).map (·.main) = List.range' 1 (revisionsOf told).length ∧
      ∀ e ∈ acknowledged told, w.host.store.engine.committed[backendKey e.1 e.dies]? =
        some (encodeRecord e.2.key e.2.value) := by
  obtain ⟨first, h₁⟩ := @Run.next _ crc32fast _ _ _ _ _
    (@Run.start crc32fast 1 (fun _ _ => True) freshWriter) sharedTurn trivial (by decide +kernel)
  obtain ⟨second, h₂⟩ := @Run.next _ crc32fast _ _ _ _ _ h₁ refusedTurn trivial (by decide +kernel)
  obtain ⟨third, h₃⟩ := @Run.next _ crc32fast _ _ _ _ _ h₂ sharedTurn trivial (by decide +kernel)
  exact ⟨_, _, h₃, @run_revisions crc32fast _ _ _ _ _ _ h₃⟩

end Hadar.Wal
