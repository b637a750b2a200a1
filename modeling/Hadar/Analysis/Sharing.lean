import Hadar.Analysis.Stores
import Hadar.Interface.Sharing
import Hadar.Lib.Turns

/-!
# A store that threads share

Threads that share a store, and call it at once, find what one thread alone would: the store is
linearizable section by section, whichever calls of the engine are refused, and where the process
stops, the engine holds what some call of one thread would have left there. And no thread waits for
ever: a method that only reads changes nothing, and none begins a transaction while it has one.
-/

set_option autoImplicit false

namespace Hadar.Mvcc

open Hadar.Lib Hadar.Lib.Script Hadar.Storage

namespace Sections

/-! ## The sections together -/

theorem whole_map {α β : Type} (f : α → β) (x : Script KvStore Error α) :
    (f <$> x).whole = f <$> x.whole := by
  rw [map_eq_pure_bind f x.whole]
  exact whole_bind x fun a => pure (f a)

theorem whole_checkpoint : checkpoint.whole = Mvcc.checkpoint := by
  simp only [checkpoint, Mvcc.checkpoint, beginWrite, whole_bind, whole_section, whole_taking,
    whole_giving, whole_pure]

theorem whole_writeBatch (batch : List Mutation) (txn : WriteTxn) (revision : Revision)
    (revisions : List Revision) : (writeBatch batch txn revision revisions).whole =
      Mvcc.writeBatch batch txn revision revisions := by
  induction batch generalizing txn revision revisions with
  | nil => rfl
  | cons mutation rest ih =>
    unfold writeBatch Mvcc.writeBatch
    cases hnext : revision.nextMain with
    | none => rfl
    | some next => simp only [whole_bind, whole_section, ih]

theorem whole_apply (batch : List Mutation) (upto : ℕ) :
    (apply batch upto).whole = Mvcc.apply batch upto := by
  simp only [apply, Mvcc.apply, beginWrite, whole_bind, whole_section, whole_taking, whole_giving,
    whole_pure, whole_writeBatch]

theorem whole_fetch (txn : WriteTxn) (limit : Option ℕ) (visible : List (Bytes × Found))
    (records : List Record) :
    (fetch txn limit visible records).whole = Mvcc.fetch txn limit visible records := by
  induction visible generalizing records with
  | nil => rfl
  | cons entry rest ih =>
    obtain ⟨key, found⟩ := entry
    unfold fetch Mvcc.fetch
    split
    · rfl
    · rw [whole_bind, whole_section]
      refine congrArg _ (funext fun raw => ?_)
      cases raw with
      | none => rfl
      | some raw =>
        cases hraw : decodeRecord raw with
        | none => simp only [hraw]; rfl
        | some decoded => simp only [hraw]; exact ih _

theorem whole_range (bounds : Bounds) (at_ limit : Option ℕ) :
    (range bounds at_ limit).whole = Mvcc.range bounds at_ limit := by
  unfold range Mvcc.range
  rw [whole_bind, whole_section]
  refine congrArg _ (funext fun s => ?_)
  cases hresolve : resolve s.state at_ with
  | error e => rfl
  | ok revision =>
    simp only
    split
    · rfl
    · simp only [beginWrite, whole_bind, whole_taking, whole_fetch]

theorem whole_removeRecords (revisions : List Revision) (txn : WriteTxn) :
    (removeRecords revisions txn).whole = Mvcc.removeRecords revisions txn := by
  induction revisions generalizing txn with
  | nil => rfl
  | cons revision rest ih =>
    simp only [removeRecords, Mvcc.removeRecords, whole_bind, whole_section, ih]

theorem whole_removeChunks (chunks : List (List Revision)) :
    (removeChunks chunks).whole = Mvcc.removeChunks chunks := by
  induction chunks with
  | nil => rfl
  | cons chunk rest ih =>
    simp only [removeChunks, Mvcc.removeChunks, beginWrite, whole_bind, whole_taking, whole_giving,
      whole_removeRecords, ih]

theorem whole_compact (at_ : ℕ) : (compact at_).whole = Mvcc.compact at_ := by
  unfold compact Mvcc.compact compactBy
  rw [whole_bind, whole_section]
  refine congrArg _ (funext fun s => ?_)
  split
  · rfl
  split
  · rfl
  simp only [whole_bind, whole_section, whole_pure, whole_removeChunks]

/-! ## One transaction at a time -/

section Nests

variable {held : Bool}

theorem nests_writeBatch {batch : List Mutation} {txn : WriteTxn} {revision : Revision}
    {revisions : List Revision} {post : WriteTxn × Revision × List Revision → Bool → Prop}
    (h : ∀ a, post a held) : (writeBatch batch txn revision revisions).Nests held post := by
  induction batch generalizing txn revision revisions with
  | nil => exact h _
  | cons mutation rest ih =>
    unfold writeBatch
    split
    · trivial
    · exact nests_bind.mpr (nests_section.mpr fun _ => ih)

theorem nests_fetch {txn : WriteTxn} {limit : Option ℕ} {visible : List (Bytes × Found)}
    {records : List Record} {post : List Record → Bool → Prop} (h : ∀ a, post a held) :
    (fetch txn limit visible records).Nests held post := by
  induction visible generalizing records with
  | nil => exact h _
  | cons entry rest ih =>
    unfold fetch
    split
    · exact h _
    · refine nests_bind.mpr (nests_section.mpr fun raw => ?_)
      split
      · trivial
      · split
        · trivial
        · exact ih

theorem nests_removeRecords {revisions : List Revision} {txn : WriteTxn}
    {post : WriteTxn → Bool → Prop} (h : ∀ a, post a held) :
    (removeRecords revisions txn).Nests held post := by
  induction revisions generalizing txn with
  | nil => exact h _
  | cons revision rest ih =>
    exact nests_bind.mpr (nests_section.mpr fun _ =>
      nests_bind.mpr (nests_section.mpr fun _ => ih))

theorem nests_removeChunks {chunks : List (List Revision)} {post : Unit → Bool → Prop}
    (h : ∀ a, post a false) : (removeChunks chunks).Nests false post := by
  induction chunks with
  | nil => exact h _
  | cons chunk rest ih =>
    refine nests_bind.mpr (nests_taking.mpr ⟨rfl, fun _ => ?_⟩)
    exact nests_bind.mpr (nests_removeRecords fun _ =>
      nests_bind.mpr (nests_giving.mpr fun _ => ih))

end Nests

end Sections

/-- A method run in one go is the method. -/
theorem Op.whole_method (op : Op) : op.method.script.whole = op.run := by
  cases op with
  | apply batch upto => exact (Sections.whole_map ..).trans (by rw [Sections.whole_apply]; rfl)
  | checkpoint => exact (Sections.whole_map ..).trans (by rw [Sections.whole_checkpoint]; rfl)
  | range bounds at_ limit => exact (Sections.whole_map ..).trans (by rw [Sections.whole_range]; rfl)
  | compact at_ => exact (Sections.whole_map ..).trans (by rw [Sections.whole_compact]; rfl)
  | currentRevision => rfl
  | applied => rfl

/-- No method begins a transaction while it has one. -/
theorem Op.nests_method (op : Op) : op.method.script.Nests false fun _ _ => True := by
  cases op with
  | apply batch upto =>
    refine nests_bind.mpr (nests_bind.mpr (nests_section.mpr fun s => ?_))
    refine nests_bind.mpr (nests_taking.mpr ⟨rfl, fun txn => ?_⟩)
    refine nests_bind.mpr (Sections.nests_writeBatch fun written => ?_)
    refine nests_bind.mpr (nests_section.mpr fun txn => ?_)
    refine nests_bind.mpr (nests_giving.mpr fun _ => ?_)
    exact nests_bind.mpr (nests_section.mpr fun _ => trivial)
  | checkpoint =>
    refine nests_bind.mpr (nests_bind.mpr (nests_section.mpr fun s => ?_))
    refine nests_bind.mpr (nests_taking.mpr ⟨rfl, fun txn => ?_⟩)
    refine nests_bind.mpr (nests_section.mpr fun txn => ?_)
    exact nests_bind.mpr (nests_giving.mpr fun _ => trivial)
  | range bounds at_ limit =>
    refine nests_bind.mpr (nests_bind.mpr (nests_section.mpr fun s => ?_))
    split
    · trivial
    split
    · trivial
    exact nests_bind.mpr (nests_taking.mpr ⟨rfl, fun txn => Sections.nests_fetch fun _ => trivial⟩)
  | compact at_ =>
    refine nests_bind.mpr (nests_bind.mpr (nests_section.mpr fun s => ?_))
    split
    · trivial
    split
    · trivial
    refine nests_bind.mpr (nests_section.mpr fun _ => ?_)
    refine nests_bind.mpr (Sections.nests_removeChunks fun _ => ?_)
    exact nests_bind.mpr (nests_section.mpr fun _ => trivial)
  | currentRevision => exact nests_bind.mpr (nests_bind.mpr (nests_section.mpr fun _ => trivial))
  | applied => exact nests_bind.mpr (nests_bind.mpr (nests_section.mpr fun _ => trivial))

/-! ## Reading changes nothing -/

section Spares

variable {α : Type}

theorem Contents.seen_of_later {s s' : KvStore} (h : s.Later s') :
    Contents.view.seen s' = Contents.view.seen s := by
  obtain ⟨⟨commits', durable', replies'⟩, state'⟩ := s'
  obtain ⟨hstate, hcommits, hdurable, -⟩ := h
  simp only at hstate hcommits hdurable
  simp only [view, hstate, hcommits, hdurable]

theorem spares_onEngine {grip : Grip} {p : Prog Engine Storage.Error α} {post : Engine → α → Prop}
    (h : ∀ e, Reads False False p e (post e)) :
    (act grip (onEngine p) (done : α → Script KvStore Error α)).Spares Contents.view.seen := by
  refine ⟨fun s => ?_, fun _ => trivial⟩
  have hreads : Reads False False (onEngine p) s (post s.engine) := reads_onEngine (h s.engine)
  refine Prog.Ends.left (P := fun s' => Contents.view.seen s' = Contents.view.seen s) ?_
  exact Prog.Ends.mono hreads (fun _ _ h => Contents.seen_of_later h.2)
    (fun _ _ h => Contents.seen_of_later h.1) fun _ h => Contents.seen_of_later h.1

theorem spares_get : (section_ get : Script KvStore Error KvStore).Spares Contents.view.seen :=
  ⟨fun _ => rfl, fun _ => trivial⟩

theorem Sections.spares_fetch (txn : WriteTxn) (limit : Option ℕ)
    (visible : List (Bytes × Found)) (records : List Record) :
    (fetch txn limit visible records).Spares Contents.view.seen := by
  induction visible generalizing records with
  | nil => trivial
  | cons entry rest ih =>
    unfold fetch
    split
    · trivial
    · refine Spares.bind (spares_onEngine fun _ => reads_lookup ..) fun raw => ?_
      split
      · trivial
      · split
        · trivial
        · exact ih _

theorem Sections.spares_range (bounds : Bounds) (at_ limit : Option ℕ) :
    (range bounds at_ limit).Spares Contents.view.seen := by
  refine Spares.bind spares_get fun s => ?_
  split
  · trivial
  split
  · trivial
  exact Spares.bind (spares_onEngine fun _ => reads_beginWrite) fun _ => spares_fetch ..

/-- A read leaves the store as it is, but for the calls it has made. -/
theorem seen_range (bounds : Bounds) (at_ limit : Option ℕ) (store : KvStore) :
    Contents.view.seen ((range bounds at_ limit).exec store).2 = Contents.view.seen store := by
  rw [← Sections.whole_range]
  exact (Sections.spares_range bounds at_ limit).whole store

theorem Op.spares_method (op : Op) (hreads : op.method.exclusive = false) :
    op.method.script.Spares Contents.view.seen := by
  cases op with
  | apply | checkpoint | compact => cases hreads
  | range bounds at_ limit =>
    exact Spares.bind (Sections.spares_range bounds at_ limit) fun _ => trivial
  | currentRevision => exact Spares.bind (Spares.bind spares_get fun _ => trivial) fun _ => trivial
  | applied => exact Spares.bind (Spares.bind spares_get fun _ => trivial) fun _ => trivial

end Spares

/-! ## The store and its threads -/

/-- The store behind its lock. -/
def KvStore.guarded : Guarded KvStore Contents (List Storage.Reply) Error Op Returned where
  view := Contents.view
  method := Op.method
  spares := Op.spares_method
  nests := Op.nests_method

/-- A store with the calls that threads have made of it. -/
abbrev Threads := Guarded.System KvStore Contents (List Storage.Reply) Error Op Returned

section Threads

variable {start : Contents} {history : List (Mark Op (Except (Stop Error) Returned))} {s : Threads}

/-- What its lock makes of the store is the store that one thread calls. -/
theorem sequential_guarded (start : Contents) :
    KvStore.guarded.sequential start = storeObject start := by
  refine congrArg (Lib.Sequential.mk start) (funext fun contents => funext fun op => ?_)
  simp only [KvStore.guarded, Op.whole_method]
  rfl

/-- **A shared store is linearizable.** However the sections of the calls that threads make of a
store are interleaved, and whichever calls of the engine are refused: there is one order of its
calls, which keeps to the order in which they returned and were made, that the store can go through
for one thread with the same results. While no call has the lock alone, that has left what is there;
and where the process stops, a call of that one thread could have stopped there, with the same left
on the engine. -/
theorem store_linearizable (h : KvStore.guarded.Interleaving start history s) :
    ∃ order contents, Linearization (storeObject start) history order ∧
      (storeObject start).Runs start order contents ∧
        (s.crashed = false → (∀ id, s.lock ≠ .exclusive id) → s.store = contents) ∧
          (s.crashed = true → ∃ (op : Op) (replies : List Storage.Reply),
            (op.run.exec (Contents.view.join contents replies)).1 = .error .crash ∧
              Contents.view.seen (op.run.exec (Contents.view.join contents replies)).2 =
                s.store) := by
  obtain ⟨order, contents, hlinear, hruns, hstore, hcrash⟩ := h.linearizable
  rw [sequential_guarded] at hlinear hruns
  refine ⟨order, contents, hlinear, hruns, hstore, fun hcrashed => ?_⟩
  obtain ⟨op, replies, hstop, hleft⟩ := hcrash hcrashed
  simp only [KvStore.guarded, Op.whole_method] at hstop hleft
  exact ⟨op, replies, hstop, hleft⟩

/-- Two threads read and one writes: the second reads in its transaction, for which the first one
waits, and the third waits for the lock. -/
def contended : List (Guarded.Action (List Storage.Reply) Op) :=
  [.call 0 (.range .all none none) [], .call 1 (.range .all none none) [], .call 2 (.apply [] 7) [],
    .enter 0, .enter 1, .step 0, .step 1, .step 1]

/-- All three go on to their ends. -/
def eased : List (Guarded.Action (List Storage.Reply) Op) :=
  [.drop 1, .step 0, .leave 1, .ret 1, .drop 0, .leave 0, .enter 2, .step 2, .step 2, .step 2, .step 2,
    .step 2, .leave 2, .ret 0, .ret 2]

def KvStore.freshContents : Contents := Contents.view.seen KvStore.fresh

theorem store_linearizable_eased : ∃ (s : Threads) (history : _), Guarded.System.performs
    KvStore.guarded (.new KvStore.freshContents) (contended ++ eased) = some (s, history) ∧
      ∃ order contents, Linearization (storeObject KvStore.freshContents) history order ∧
        (storeObject KvStore.freshContents).Runs KvStore.freshContents order contents ∧
          contents.state.applied = 7 := by
  have hruns : ((Guarded.System.new KvStore.freshContents : Threads).performs KvStore.guarded
      (contended ++ eased)).any (fun p => !p.1.crashed && p.1.lock == .shared [] &&
        p.1.store.state.applied == 7) = true := by decide
  obtain ⟨⟨s, history⟩, hran, hat⟩ := (Option.any_eq_true _ _).mp hruns
  simp only [Bool.and_eq_true, Bool.not_eq_true', beq_iff_eq] at hat
  obtain ⟨⟨hup, hlock⟩, happlied⟩ := hat
  have hreached : KvStore.guarded.Interleaving KvStore.freshContents history s :=
    Guarded.Interleaving.start.performs hran
  obtain ⟨order, contents, hlinear, hsteps, hstore, -⟩ := store_linearizable hreached
  refine ⟨s, history, hran, order, contents, hlinear, hsteps, ?_⟩
  rw [← hstore hup (by rw [hlock]; nofun)]
  exact happlied

/-- **No thread waits for ever.** However the sections of the calls have been interleaved, while the
process runs: as long as somebody has the lock one of those who have it can go on, also where they
wait for the transaction of another; once nobody has it, whoever waits for it can have it; and every
call returns after some steps of its own and of those who have the lock, unless the process stops
before that. -/
theorem threads_return (h : KvStore.guarded.Interleaving start history s)
    (hup : s.crashed = false) :
    (s.lock.ids ≠ [] → ∃ action : Guarded.Action (List Storage.Reply) Op,
      action.id ∈ s.lock.ids ∧ (s.perform KvStore.guarded action).isSome = true) ∧
    (s.lock.ids = [] → ∀ id op replies, s.places id = some (.waiting op replies) →
      (s.perform KvStore.guarded (.enter id)).isSome = true) ∧
    ∀ id place, s.places id = some place → place ≠ .returned →
      ∃ actions s' marks, s.performs KvStore.guarded actions = some (s', marks) ∧
        (s'.crashed = true ∨ ∃ result, .returned id result ∈ marks) ∧
          ∀ action ∈ actions, action.id = id ∨ action.id ∈ s.lock.ids :=
  ⟨(h.unblocked hup).2, (h.unblocked hup).1, fun _ _ hplace hlive => h.returns hup hplace hlive⟩

/-- The first reader and the writer are blocked, and the writer returns nevertheless. -/
theorem threads_return_contended : ∃ (s : Threads) (history : _), Guarded.System.performs
    KvStore.guarded (.new KvStore.freshContents) contended = some (s, history) ∧
      (s.perform KvStore.guarded (.step 0)).isSome = false ∧
      (s.perform KvStore.guarded (.enter 2)).isSome = false ∧
      ∃ actions s' marks, s.performs KvStore.guarded actions = some (s', marks) ∧
        (s'.crashed = true ∨ ∃ result, .returned 2 result ∈ marks) := by
  have hruns : ((Guarded.System.new KvStore.freshContents : Threads).performs KvStore.guarded
      contended).any (fun p => !p.1.crashed &&
        (p.1.places 2).any Guarded.Place.waits &&
        !(p.1.perform KvStore.guarded (.step 0)).isSome &&
        !(p.1.perform KvStore.guarded (.enter 2)).isSome) = true := by decide
  obtain ⟨⟨s, history⟩, hran, hat⟩ := (Option.any_eq_true _ _).mp hruns
  simp only [Bool.and_eq_true, Bool.not_eq_true'] at hat
  obtain ⟨⟨⟨hup, hwaits⟩, hreader⟩, hwriter⟩ := hat
  obtain ⟨place, hplace, hwaiting⟩ := (Option.any_eq_true _ _).mp hwaits
  have hreached : KvStore.guarded.Interleaving KvStore.freshContents history s :=
    Guarded.Interleaving.start.performs hran
  obtain ⟨actions, s', marks, hmore, hreturned, -⟩ :=
    (threads_return hreached hup).2.2 2 place hplace (by rintro rfl; cases hwaiting)
  exact ⟨s, history, hran, hreader, hwriter, actions, s', marks, hmore, hreturned⟩

end Threads

end Hadar.Mvcc
