import Hadar.Analysis.Contents
import Hadar.Analysis.Engines

/-!
# The store's methods

What each method of the store can end in, for every list of replies of the engine. A
method that fails leaves the state alone; what it has committed by then is its only trace.
-/

set_option autoImplicit false

namespace Hadar.Mvcc

open Hadar.Lib Hadar.Lib.Prog Hadar.Storage Std

variable {α β : Type} {s : KvStore}

namespace KvStore

/-- The store some engine calls later, with nothing committed and its state untouched. -/
structure Later (s s' : KvStore) : Prop where
  state : s'.state = s.state
  engine : s.engine.Later s'.engine

theorem Later.refl (s : KvStore) : s.Later s := ⟨rfl, Engine.Later.refl s.engine⟩

theorem Later.trans {s s' s'' : KvStore} (h : s.Later s') (h' : s'.Later s'') : s.Later s'' :=
  ⟨h'.state.trans h.state, h.engine.trans h'.engine⟩

instance : Faults KvStore where
  Later := Later
  Refuses := fun s => Faults.Refuses s.engine
  Crashes := fun s => Faults.Crashes s.engine
  refl := Later.refl
  trans := Later.trans
  refuses := fun h hr => Faults.refuses (σ := Engine) h.engine hr
  crashes := fun h hc => Faults.crashes (σ := Engine) h.engine hc

/-- Over an engine whose calls all succeed the store stays as it is. -/
theorem Later.eq_of_calm {s s' : KvStore} (h : s.Later s') (hcalm : s.engine.replies = []) :
    s' = s := by
  obtain ⟨e', st'⟩ := s'
  obtain ⟨rfl, hengine⟩ := h
  rw [show e' = s.engine from hengine.eq_of_calm hcalm]

end KvStore

/-- What only reads the engine only reads the store. -/
theorem reads_onEngine {bad doomed : Prop} {p : Prog Engine Storage.Error α} {post : α → Prop}
    (hp : Reads bad doomed p s.engine post) : Reads bad doomed (onEngine p) s post :=
  hp.zoom (fun _ h => ⟨rfl, h⟩) id id

/-- A call of the engine, in a method that may fail or panic for reasons of its own. -/
theorem reads_onEngine' {bad doomed : Prop} {p : Prog Engine Storage.Error α} {post : α → Prop}
    (hp : Reads False False p s.engine post) : Reads bad doomed (onEngine p) s post :=
  (reads_onEngine hp).mono (fun _ h => h) False.elim False.elim

/-- Over an engine whose calls all succeed, what reads the store returns and leaves it as it
is. -/
theorem returns_of_calm {p : Prog KvStore Error α} {post : α → Prop}
    (h : Reads False False p s post) (hcalm : s.engine.replies = []) :
    ∃ a, p.exec s = (.ok a, s) ∧ post a := by
  obtain ⟨a, s', hexec, hpost, hlater⟩ := h.returns (Engine.calm hcalm).1 (Engine.calm hcalm).2
  rw [KvStore.Later.eq_of_calm hlater hcalm] at hexec
  exact ⟨a, hexec, hpost⟩

/-! ## Revisions handed out -/

theorem stampedFrom_cons (n : ℕ) (m : Mutation) (rest : List Mutation) :
    stampedFrom n (m :: rest) = (revisionOf (n + 1), m) :: stampedFrom (n + 1) rest := by
  simp [stampedFrom]

theorem stampedFrom_append (n : ℕ) (a b : List Mutation) :
    stampedFrom n (a ++ b) = stampedFrom n a ++ stampedFrom (n + a.length) b := by
  simp [stampedFrom, List.zipIdx_append]

@[simp] theorem length_stampedFrom (n : ℕ) (a : List Mutation) :
    (stampedFrom n a).length = a.length := by
  simp [stampedFrom]

theorem map_snd_stampedFrom (n : ℕ) (a : List Mutation) : (stampedFrom n a).map (·.2) = a := by
  induction a generalizing n with
  | nil => rfl
  | cons m rest ih => rw [stampedFrom_cons, List.map_cons, ih]

/-- Mutations put back together with their revisions. -/
theorem zip_stampedFrom (n : ℕ) (a : List Mutation) :
    ((stampedFrom n a).map (·.1)).zip a = stampedFrom n a := by
  induction a generalizing n with
  | nil => rfl
  | cons m rest ih => rw [stampedFrom_cons, List.map_cons, List.zip_cons_cons, ih]

/-- A stamped mutation is one of the mutations. -/
theorem mem_of_mem_stampedFrom {n : ℕ} {a : List Mutation} {e : Event}
    (he : e ∈ stampedFrom n a) : e.2 ∈ a := by
  rw [← map_snd_stampedFrom n a]
  exact List.mem_map_of_mem he

theorem stamped_append (a b : List Mutation) :
    stamped (a ++ b) = stamped a ++ stampedFrom a.length b := by
  rw [stamped, stampedFrom_append, Nat.zero_add]
  rfl

/-- A log with one mutation more has one event more. -/
theorem stamped_concat (a : List Mutation) (m : Mutation) :
    stamped (a ++ [m]) = stamped a ++ [(revisionOf (a.length + 1), m)] := by
  rw [stamped_append, stampedFrom_cons]
  rfl

/-- A mutation's revision is numbered past those before it. -/
theorem lt_date_of_mem_stampedFrom {n : ℕ} {a : List Mutation} {e : Event}
    (h : n + a.length ≤ i64Max) (he : e ∈ stampedFrom n a) :
    n < e.date ∧ e.date ≤ n + a.length := by
  induction a generalizing n with
  | nil => simp [stampedFrom] at he
  | cons m rest ih =>
    rw [List.length_cons] at h ⊢
    rw [stampedFrom_cons] at he
    rcases List.mem_cons.mp he with rfl | he
    · simp only [Event.date, revisionOf]
      omega
    · have := ih (by omega) he
      omega

theorem revision_of_mem_stampedFrom {n : ℕ} {a : List Mutation} {e : Event}
    (h : n + a.length ≤ i64Max) (he : e ∈ stampedFrom n a) : e.1 = revisionOf e.date := by
  obtain ⟨p, hp, rfl⟩ := List.mem_map.mp he
  have hdate : Event.date (revisionOf (p.2 + 1), p.1) = p.2 + 1 := by
    have := (List.mem_zipIdx hp).2.1
    exact Nat.min_eq_left (by omega)
  rw [hdate]

theorem dated_stampedFrom {n : ℕ} {a : List Mutation} (h : n + a.length ≤ i64Max) :
    Dated Event.date (stampedFrom n a) := by
  induction a generalizing n with
  | nil => exact List.Pairwise.nil
  | cons m rest ih =>
    rw [List.length_cons] at h
    rw [stampedFrom_cons]
    refine List.pairwise_cons.mpr ⟨fun e he => ?_, ih (by omega)⟩
    have := (lt_date_of_mem_stampedFrom (by omega) he).1
    simp only [Event.date, revisionOf] at this ⊢
    omega

/-- A batch's events join past events numbered up to where the batch begins. -/
theorem dated_append_stampedFrom {n : ℕ} {l : List Event} {a : List Mutation}
    (hl : Dated Event.date l) (hle : ∀ x ∈ l, x.date ≤ n) (h : n + a.length ≤ i64Max) :
    Dated Event.date (l ++ stampedFrom n a) := by
  refine List.pairwise_append.mpr ⟨hl, dated_stampedFrom h, fun x hx y hy => ?_⟩
  exact Nat.lt_of_le_of_lt (hle x hx) (lt_date_of_mem_stampedFrom h hy).1

theorem date_le_append_stampedFrom {n : ℕ} {l : List Event} {a : List Mutation}
    (hle : ∀ x ∈ l, x.date ≤ n) (h : n + a.length ≤ i64Max) :
    ∀ x ∈ l ++ stampedFrom n a, x.date ≤ n + a.length := by
  intro x hx
  rcases List.mem_append.mp hx with hx | hx
  · have := hle x hx
    omega
  · exact (lt_date_of_mem_stampedFrom h hx).2

theorem dated_stamped {a : List Mutation} (h : a.length ≤ i64Max) :
    Dated Event.date (stamped a) := dated_stampedFrom (by omega)

theorem pos_of_mem_stamped {a : List Mutation} {e : Event} (h : a.length ≤ i64Max)
    (he : e ∈ stamped a) : 0 < e.date :=
  (lt_date_of_mem_stampedFrom (by omega) he).1

/-! ## Writing -/

/-- The contents with an entry more for each event. -/
def enteredContents (contents : Keyspace) (batch : List Event) : Keyspace :=
  batch.foldl (fun contents e => contents.insert e.entry.1 e.entry.2) contents

theorem Holds.insert_all {contents : Keyspace} {marker : Option ℕ} {events batch : List Event}
    (h : Holds contents marker events) (hdated : Dated Event.date (events ++ batch)) :
    Holds (enteredContents contents batch) marker (events ++ batch) := by
  induction batch generalizing contents events with
  | nil => simpa [enteredContents] using h
  | cons e rest ih =>
    have hassoc : events ++ e :: rest = (events ++ [e]) ++ rest := by simp
    rw [hassoc] at hdated ⊢
    exact ih (h.insert hdated.append_left) hdated

/-- The next revision, whatever the one before it was.
SOURCE: crates/mvcc/src/revision.rs:63-70 -/
theorem nextMain_eq (r : Revision) :
    r.nextMain = if r.main < i64Max then some (revisionOf (r.main + 1)) else none := by
  unfold Revision.nextMain Revision.new revisionOf
  by_cases hlt : r.main < i64Max
  · rw [if_pos hlt, dif_neg (by omega)]
    simp only [Option.some.injEq, Revision.mk.injEq, and_true]
    omega
  · rw [if_neg hlt, dif_pos (by omega)]

/-- The revision `n` mutations later. -/
def Revision.after (r : Revision) (n : ℕ) : Revision :=
  if n = 0 then r else revisionOf (r.main + n)

theorem main_revisionOf {n : ℕ} (h : n ≤ i64Max) : (revisionOf n).main = n := Nat.min_eq_left h

theorem Revision.main_after {r : Revision} {n : ℕ} (h : r.main + n ≤ i64Max) :
    (r.after n).main = r.main + n := by
  rw [Revision.after]
  split
  · omega
  · exact main_revisionOf h

theorem Revision.after_after {r : Revision} {a b : ℕ} (h : r.main + a ≤ i64Max) :
    (r.after a).after b = r.after (a + b) := by
  rw [Revision.after, main_after h]
  split
  · rename_i hb
    rw [hb, Nat.add_zero]
  · rw [Revision.after, if_neg (by omega), Nat.add_assoc]

theorem revisionOf_after {n k : ℕ} (h : n ≤ i64Max) : (revisionOf n).after k = revisionOf (n + k) := by
  rw [Revision.after, main_revisionOf h]
  split
  · rename_i hk
    rw [hk, Nat.add_zero]
  · rfl

/-- Every mutation is written under the next revision, unless they run out.
SOURCE: crates/mvcc/src/store.rs:178-192 -/
theorem reads_writeBatch (batch : List Mutation) (txn : WriteTxn) (revision : Revision)
    (revisions : List Revision) (s : KvStore) :
    Reads False (i64Max < revision.main + batch.length) (writeBatch batch txn revision revisions) s
      fun r => revision.main + batch.length ≤ i64Max ∧
        r = (⟨enteredContents txn.working (stampedFrom revision.main batch)⟩,
          revision.after batch.length,
          revisions ++ (stampedFrom revision.main batch).map (·.1)) := by
  induction batch generalizing txn revision revisions s with
  | nil =>
    refine Reads.pure ⟨revision.main_le, ?_⟩
    simp [stampedFrom, enteredContents, Revision.after]
  | cons m rest ih =>
    rw [writeBatch, nextMain_eq]
    by_cases hlt : revision.main < i64Max
    · rw [if_pos hlt]
      dsimp only
      have hmain := main_revisionOf (n := revision.main + 1) hlt
      have harith : revision.main + (m :: rest).length = revision.main + 1 + rest.length := by
        rw [List.length_cons]; omega
      refine Reads.bind (reads_onEngine' (reads_insert txn _ _)) fun txn' s' htxn _ => ?_
      rw [harith, stampedFrom_cons]
      have hrest := ih txn' (revisionOf (revision.main + 1))
        (revisions ++ [revisionOf (revision.main + 1)]) s'
      rw [hmain] at hrest
      refine Ends.mono hrest (fun r t h => ⟨⟨h.1.1, ?_⟩, h.2⟩) (fun _ _ h => h) fun _ h => h
      have hafter : (revisionOf (revision.main + 1)).after rest.length =
          revision.after (m :: rest).length := by
        rw [revisionOf_after hlt, Revision.after, if_neg (by simp), harith]
      rw [h.1.2, htxn, hafter]
      simp [enteredContents, Event.entry, Event.dies]
    · rw [if_neg hlt]
      refine Reads.panicking ?_
      rw [List.length_cons]
      omega

/-- The state once a batch was accepted. -/
def State.entered (state : State) (batch : List Event) (current : Revision) (upto : ℕ) : State :=
  { state with
    index := batch.foldl (fun index e => index.enter e.2 e.1) state.index
    current := current
    applied := upto }

/-- The two loops of `apply` number the mutations alike. -/
theorem foldl_enter_zip (n : ℕ) (batch : List Mutation) (index : Index) :
    (batch.zip ((stampedFrom n batch).map (·.1))).foldl (fun index p => index.enter p.1 p.2) index =
      (stampedFrom n batch).foldl (fun index e => index.enter e.2 e.1) index := by
  induction batch generalizing n index with
  | nil => rfl
  | cons m rest ih => simp only [stampedFrom_cons, List.map_cons, List.zip_cons_cons,
      List.foldl_cons, ih]

/-- On any store `apply` commits the batch's entries and the marker at once, enters the batch in
the index and answers with the revisions that follow the store's own, or changes nothing.
SOURCE: crates/mvcc/src/store.rs:171-213 -/
theorem ends_apply_any (batch : List Mutation) (upto : ℕ) :
    Ends (apply batch upto) s
      (fun revisions s' => s.state.current.main + batch.length ≤ i64Max ∧
        revisions = (stampedFrom s.state.current.main batch).map (·.1) ∧
        s'.state = s.state.entered (stampedFrom s.state.current.main batch)
          (s.state.current.after batch.length) upto ∧
        s'.engine.commits = (enteredContents s.engine.committed
          (stampedFrom s.state.current.main batch)).insert appliedKey (encodePosition upto) ::
            s.engine.commits ∧
        s'.engine.durable = s.engine.durable ∧ s'.engine.replies <:+ s.engine.replies)
      (Fails False s) (Stops (i64Max < s.state.current.main + batch.length) s) := by
  refine ends_bind.mpr (ends_get.mpr ?_)
  refine Reads.andThen (reads_onEngine' reads_beginWrite) fun txn s1 htxn h1 => ?_
  refine Reads.andThen (reads_writeBatch batch txn s.state.current [] s1) fun r s2 hr h2 => ?_
  obtain ⟨hfits, rfl⟩ := hr
  refine Reads.andThen (reads_onEngine' (reads_insert _ _ _)) fun txn' s3 htxn' h3 => ?_
  subst htxn htxn'
  have hlater : s.Later s3 := Faults.trans h1 (Faults.trans h2 h3)
  refine ends_bind.mpr (ends_zoom.mpr (Ends.mono (ends_commit _) (fun _ e' h => ?_)
    (fun _ e' h => ⟨⟨rfl, h.1⟩, h.2⟩) fun e' h => ⟨⟨rfl, h.1⟩, h.2.imp_right False.elim⟩))
  obtain ⟨hcommits, hdurable, hreplies⟩ := h
  refine ends_bind.mpr (ends_modify.mpr (ends_pure.mpr ?_))
  refine ⟨hfits, rfl, ?_, ?_, ?_, hreplies.trans hlater.engine.replies⟩
  · rw [List.nil_append, foldl_enter_zip]
    simp only [State.entered, hlater.state]
  · rw [hcommits, hlater.engine.commits]
  · rw [hdurable, hlater.engine.durable]

/-- On a store whose newest revision is a mutation's. -/
theorem ends_apply {n : ℕ} (hcurrent : s.state.current = revisionOf n) (hn : n ≤ i64Max)
    (batch : List Mutation) (upto : ℕ) :
    Ends (apply batch upto) s
      (fun revisions s' => n + batch.length ≤ i64Max ∧
        revisions = (stampedFrom n batch).map (·.1) ∧
        s'.state = s.state.entered (stampedFrom n batch) (revisionOf (n + batch.length)) upto ∧
        s'.engine.commits = (enteredContents s.engine.committed (stampedFrom n batch)).insert
          appliedKey (encodePosition upto) :: s.engine.commits ∧
        s'.engine.durable = s.engine.durable ∧ s'.engine.replies <:+ s.engine.replies)
      (Fails False s) (Stops (i64Max < n + batch.length) s) := by
  have hends := ends_apply_any (s := s) batch upto
  rwa [hcurrent, main_revisionOf hn, revisionOf_after hn] at hends

theorem counters_of_apply {batch : List Mutation} {upto : ℕ} {s' : KvStore}
    {revisions : List Revision} (h : (apply batch upto).exec s = (.ok revisions, s')) :
    s'.state.current.main = s.state.current.main + batch.length ∧ s'.state.applied = upto := by
  obtain ⟨hfits, -, hstate, -⟩ := (ends_apply_any batch upto).of_ok h
  rw [hstate]
  exact ⟨Revision.main_after hfits, rfl⟩

/-- `checkpoint` commits the marker durably and answers with what it recorded. Refused, it
may still have committed it.
SOURCE: crates/mvcc/src/store.rs:148-160 -/
theorem ends_checkpoint : Ends checkpoint s
    (fun position s' => position = s.state.applied ∧ s'.state = s.state ∧
      s'.engine.commits = s.engine.committed.insert appliedKey
        (encodePosition s.state.applied) :: s.engine.commits ∧
      s'.engine.durable = s.engine.commits.length + 1 ∧
      s'.engine.replies <:+ s.engine.replies)
    (fun _ s' => (s.Later s' ∨ (s'.state = s.state ∧
      s'.engine.commits = s.engine.committed.insert appliedKey
        (encodePosition s.state.applied) :: s.engine.commits ∧
      s'.engine.durable = s.engine.durable ∧ s'.engine.replies <:+ s.engine.replies)) ∧
      Faults.Refuses s)
    (Stops False s) := by
  refine ends_bind.mpr (ends_get.mpr (ends_bind.mpr ?_))
  refine Ends.mono (reads_onEngine reads_beginWrite) (fun txn s1 h => ?_)
    (fun _ _ h => ⟨.inl h.1, h.2.resolve_right id⟩) fun _ h => h
  obtain ⟨rfl, h1⟩ := h
  refine ends_bind.mpr (Ends.mono (reads_onEngine (reads_insert _ _ _)) (fun txn s2 h => ?_)
    (fun _ _ h => ⟨.inl (Faults.trans h1 h.1), Faults.refuses h1 (h.2.resolve_right id)⟩)
    fun _ h => ⟨Faults.trans h1 h.1, h.2.imp_left (Faults.crashes h1)⟩)
  obtain ⟨rfl, h2⟩ := h
  have hlater : s.Later s2 := Faults.trans h1 h2
  refine ends_bind.mpr (ends_zoom.mpr (Ends.mono (ends_commitDurable _) (fun _ e' h => ?_)
    (fun _ e' h => ?_)
    fun e' h => ⟨Faults.trans hlater ⟨rfl, h.1⟩, h.2.imp_left (Faults.crashes hlater)⟩))
  · obtain ⟨hcommits, hdurable, hreplies⟩ := h
    refine ends_pure.mpr ⟨rfl, hlater.state, ?_, ?_, hreplies.trans hlater.engine.replies⟩
    · rw [hcommits, hlater.engine.commits]
    · rw [hdurable, hlater.engine.commits]
  · refine ⟨?_, Faults.refuses hlater h.2⟩
    rcases h.1 with h | ⟨hcommits, hdurable, hreplies⟩
    · exact .inl (KvStore.Later.trans hlater ⟨rfl, h⟩)
    · refine .inr ⟨hlater.state, ?_, ?_, hreplies.trans hlater.engine.replies⟩
      · rw [hcommits, hlater.engine.commits]
      · rw [hdurable, hlater.engine.durable]

end Hadar.Mvcc
