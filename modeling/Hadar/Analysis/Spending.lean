import Hadar.Model.Writer

/-!
# The operations a run uses up

How the coming operations of the directory and the coming calls of the engine turn out is given
in advance, and each that runs takes the first of its list. So what a run of the writer leaves of
either list is a suffix of what it began with, wherever the run stops; and where it crashes, one of
what it began with was a crash.
-/

set_option autoImplicit false

namespace Hadar.Wal

open Hadar.Lib Hadar.Lib.Prog Hadar.Storage Hadar.Mvcc

/-! ## What is still to come -/

/-- The operations on a directory and the calls of an engine that are still to come. -/
structure Outlook where
  replies : List Reply
  calls : List Storage.Reply

/-- Some of them were used up. -/
structure Outlook.Spent (o o' : Outlook) : Prop where
  replies : o'.replies <:+ o.replies
  calls : o'.calls <:+ o.calls

theorem Outlook.Spent.refl (o : Outlook) : o.Spent o := ⟨List.suffix_refl _, List.suffix_refl _⟩

/-- The process may stop at some of them. -/
def Outlook.Crashes (o : Outlook) : Prop := (∃ cut, .crash cut ∈ o.replies) ∨ .crash ∈ o.calls

theorem Outlook.Spent.crashes {o o' : Outlook} (h : o.Spent o') (hcrash : o'.Crashes) : o.Crashes :=
  hcrash.imp (fun ⟨cut, hmem⟩ => ⟨cut, h.replies.subset hmem⟩) fun hmem => h.calls.subset hmem

variable {σ τ ε δ α β : Type}

/-- A program uses up some of what is to come and leaves the rest, and it crashes only where some of
it is a crash. -/
structure Spends (outlook : σ → Outlook) (p : Prog σ ε α) : Prop where
  spent : Moves (fun s s' => (outlook s).Spent (outlook s')) p
  crashes : ∀ s s', p.exec s = (.error .crash, s') → (outlook s).Crashes

section Rules

variable {outlook : σ → Outlook}

theorem spends_pure (a : α) : Spends outlook (pure a : Prog σ ε α) :=
  ⟨fun _ => Outlook.Spent.refl _, nofun⟩

theorem spends_fail (e : ε) : Spends outlook (fail e : Prog σ ε α) :=
  ⟨fun _ => Outlook.Spent.refl _, nofun⟩

theorem spends_panicking : Spends outlook (panicking : Prog σ ε α) :=
  ⟨fun _ => Outlook.Spent.refl _, nofun⟩

theorem spends_get : Spends outlook (get : Prog σ ε σ) := ⟨fun _ => Outlook.Spent.refl _, nofun⟩

theorem moves_spent_modify {f : σ → σ} (h : ∀ s, outlook (f s) = outlook s) :
    Moves (fun s s' => (outlook s).Spent (outlook s')) (modify f : Prog σ ε Unit) := fun s => by
  show (outlook s).Spent (outlook (f s))
  rw [h s]
  exact Outlook.Spent.refl _

theorem spends_modify {f : σ → σ} (h : ∀ s, outlook (f s) = outlook s) :
    Spends outlook (modify f : Prog σ ε Unit) := ⟨moves_spent_modify h, nofun⟩

theorem moves_spent_bind {p : Prog σ ε α} {f : α → Prog σ ε β}
    (hp : Moves (fun s s' => (outlook s).Spent (outlook s')) p)
    (hf : ∀ a, Moves (fun s s' => (outlook s).Spent (outlook s')) (f a)) :
    Moves (fun s s' => (outlook s).Spent (outlook s')) (p >>= f) :=
  Moves.bind (fun h h' => ⟨h'.1.trans h.1, h'.2.trans h.2⟩) hp hf

theorem Spends.bind {p : Prog σ ε α} {f : α → Prog σ ε β} (hp : Spends outlook p)
    (hf : ∀ a, Spends outlook (f a)) : Spends outlook (p >>= f) := by
  refine ⟨moves_spent_bind hp.spent fun a => (hf a).spent, fun s s' hexec => ?_⟩
  rw [exec_bind] at hexec
  have hspent := hp.spent s
  rcases h : p.exec s with ⟨(e | _ | _) | a, t⟩ <;> rw [h] at hexec hspent
  · cases hexec
  · cases hexec
  · exact hp.crashes s t h
  · exact hspent.crashes ((hf a).crashes t s' hexec)

theorem Spends.attempt {p : Prog σ ε α} (hp : Spends outlook p) : Spends outlook p.attempt := by
  refine ⟨Moves.attempt hp.spent, fun s s' hexec => ?_⟩
  rw [exec_attempt] at hexec
  rcases h : p.exec s with ⟨(e | _ | _) | a, t⟩ <;> rw [h] at hexec
  · cases hexec
  · cases hexec
  · exact hp.crashes s t h
  · cases hexec

/-- A program on a part of the state, where what that part uses up the whole does. -/
theorem Spends.zoom {whole : τ → Outlook} {p : Prog σ ε α} (hp : Spends outlook p) {get : τ → σ}
    {put : σ → τ → τ} {wrap : ε → δ}
    (h : ∀ t s, (outlook (get t)).Spent (outlook s) → (whole t).Spent (whole (put s t)))
    (hcrash : ∀ t, (outlook (get t)).Crashes → (whole t).Crashes) :
    Spends whole (zoom get put wrap p) := by
  refine ⟨Moves.zoom hp.spent wrap h, fun t t' hexec => hcrash t ?_⟩
  rw [exec_zoom] at hexec
  rcases hrun : p.exec (get t) with ⟨(e | _ | _) | a, s⟩ <;> rw [hrun] at hexec
  · cases hexec
  · cases hexec
  · exact hp.crashes _ _ hrun
  · cases hexec

theorem Spends.ends {p : Prog σ ε α} (hp : Spends outlook p) (s : σ) :
    Ends p s (fun _ t => (outlook s).Spent (outlook t)) (fun _ t => (outlook s).Spent (outlook t))
      fun t => (outlook s).Spent (outlook t) :=
  Ends.mono (ends_left p s) (fun _ _ h => h ▸ hp.spent s) (fun _ _ h => h ▸ hp.spent s)
    fun _ h => h ▸ hp.spent s

end Rules

/-! ## The store -/

def engineOutlook (e : Engine) : Outlook := ⟨[], e.replies⟩

def storeOutlook (s : KvStore) : Outlook := engineOutlook s.engine

theorem spends_nextCall : Spends engineOutlook Storage.nextReply := by
  constructor
  · rintro ⟨commits, durable, _ | ⟨r, rest⟩⟩
    · exact Outlook.Spent.refl _
    · exact ⟨List.suffix_refl _, List.suffix_cons _ _⟩
  · rintro ⟨commits, durable, _ | ⟨r, rest⟩⟩ s' hexec <;> cases hexec

/-- What is done on the reply to a call crashes only on a crash. -/
theorem spends_onReply {f : Storage.Reply → Prog Engine Storage.Error α}
    (h : ∀ r, r ≠ .crash → Spends engineOutlook (f r))
    (hcrash : Moves (fun s s' => (engineOutlook s).Spent (engineOutlook s')) (f .crash)) :
    Spends engineOutlook (Storage.nextReply >>= f) := by
  refine ⟨moves_spent_bind spends_nextCall.spent fun r => ?_, ?_⟩
  · cases r with
    | crash => exact hcrash
    | done => exact (h .done nofun).spent
    | refused e applied => exact (h (.refused e applied) nofun).spent
  · rintro ⟨commits, durable, _ | ⟨r, rest⟩⟩ s' hexec
    · exact (h .done nofun).crashes _ _ hexec
    · cases r with
      | crash => exact .inr (List.mem_cons_self ..)
      | done => exact ((h .done nofun).crashes _ _ hexec).imp_right (List.mem_cons_of_mem _)
      | refused e applied =>
        exact ((h (.refused e applied) nofun).crashes _ _ hexec).imp_right (List.mem_cons_of_mem _)

theorem spends_call {effect : Prog Engine Storage.Error α} (h : Spends engineOutlook effect) :
    Spends engineOutlook (call effect) := by
  refine spends_onReply (fun r hr => ?_) fun _ => Outlook.Spent.refl _
  cases r with
  | done => exact h
  | refused e applied => exact spends_fail e
  | crash => exact absurd rfl hr

theorem spends_beginWrite : Spends engineOutlook beginWrite :=
  spends_call (spends_get.bind fun _ => spends_pure _)

theorem spends_commitDurable (txn : WriteTxn) : Spends engineOutlook txn.commitDurable := by
  refine spends_onReply (fun r hr => ?_) fun _ => Outlook.Spent.refl _
  cases r with
  | done => exact spends_modify fun _ => rfl
  | refused e applied =>
    cases applied with
    | false => exact spends_fail e
    | true => exact Spends.bind (spends_modify fun _ => rfl) fun _ => spends_fail e
  | crash => exact absurd rfl hr

theorem spends_onEngine {p : Prog Engine Storage.Error α} (h : Spends engineOutlook p) :
    Spends storeOutlook (onEngine p) := h.zoom (fun _ _ hspent => hspent) fun _ hcrash => hcrash

theorem spends_checkpoint : Spends storeOutlook checkpoint :=
  spends_get.bind fun _ => (spends_onEngine spends_beginWrite).bind fun _ =>
    (spends_onEngine (spends_call (spends_pure _))).bind fun txn =>
      (spends_onEngine (spends_commitDurable txn)).bind fun _ => spends_pure _

theorem spends_writeBatch (batch : List Mutation) (txn : WriteTxn) (revision : Revision)
    (revisions : List Revision) : Spends storeOutlook (writeBatch batch txn revision revisions) := by
  induction batch generalizing txn revision revisions with
  | nil => exact spends_pure _
  | cons m rest ih =>
    rw [writeBatch]
    split
    · exact spends_panicking
    · exact (spends_onEngine (spends_call (spends_pure _))).bind fun _ => ih _ _ _

theorem spends_apply (batch : List Mutation) (upto : ℕ) : Spends storeOutlook (Mvcc.apply batch upto) :=
  spends_get.bind fun _ => (spends_onEngine spends_beginWrite).bind fun _ =>
    (spends_writeBatch _ _ _ _).bind fun _ =>
      (spends_onEngine (spends_call (spends_pure _))).bind fun _ =>
        Spends.bind (spends_onEngine (spends_call (spends_modify fun _ => rfl))) fun _ =>
          Spends.bind (spends_modify fun _ => rfl) fun _ => spends_pure _

/-! ## The directory -/

def diskOutlook (d : Disk) : Outlook := ⟨d.replies, []⟩

def targetOutlook (t : Target) : Outlook := diskOutlook t.disk

theorem diskOutlook_update (d : Disk) (sink : ℕ) (f : File → File) :
    diskOutlook (d.update sink f) = diskOutlook d := by
  unfold Disk.update
  split <;> rfl

theorem spends_nextReply : Spends diskOutlook nextReply := by
  constructor
  · rintro ⟨files, _ | ⟨r, rest⟩⟩
    · exact Outlook.Spent.refl _
    · exact ⟨List.suffix_cons _ _, List.suffix_refl _⟩
  · rintro ⟨files, _ | ⟨r, rest⟩⟩ s' hexec <;> cases hexec

/-- What is done on the reply to an operation crashes only on a crash. -/
theorem spends_onOutcome {f : Reply → Prog Disk Error α}
    (h : ∀ r, (∀ cut, r ≠ .crash cut) → Spends diskOutlook (f r))
    (hcrash : ∀ cut, Moves (fun s s' => (diskOutlook s).Spent (diskOutlook s')) (f (.crash cut))) :
    Spends diskOutlook (nextReply >>= f) := by
  refine ⟨moves_spent_bind spends_nextReply.spent fun r => ?_, ?_⟩
  · cases r with
    | crash cut => exact hcrash cut
    | done => exact (h .done nofun).spent
    | refused cut => exact (h (.refused cut) nofun).spent
  · rintro ⟨files, _ | ⟨r, rest⟩⟩ s' hexec
    · exact (h .done nofun).crashes _ _ hexec
    · have hrest : ∀ o : Outlook, (∃ cut, .crash cut ∈ rest) ∨ .crash ∈ o.calls →
          (∃ cut, .crash cut ∈ r :: rest) ∨ .crash ∈ o.calls := fun _ hin =>
        hin.imp_left fun ⟨cut, hmem⟩ => ⟨cut, List.mem_cons_of_mem _ hmem⟩
      cases r with
      | crash cut => exact .inl ⟨cut, List.mem_cons_self ..⟩
      | done => exact hrest (diskOutlook ⟨files, rest⟩) ((h .done nofun).crashes _ _ hexec)
      | refused cut =>
        exact hrest (diskOutlook ⟨files, rest⟩) ((h (.refused cut) nofun).crashes _ _ hexec)

theorem spends_operation (context : String) {effect : Prog Disk Error α}
    (h : Spends diskOutlook effect) : Spends diskOutlook (operation context effect) := by
  refine spends_onOutcome (fun r hr => ?_) fun _ _ => Outlook.Spent.refl _
  cases r with
  | done => exact h
  | refused cut => exact spends_fail _
  | crash cut => exact absurd rfl (hr cut)

theorem spends_update (sink : ℕ) (f : File → File) :
    Spends diskOutlook (modify (·.update sink f) : Prog Disk Error Unit) :=
  spends_modify fun d => diskOutlook_update d sink f

theorem spends_writeAll (sink : ℕ) (bytes : Bytes) : Spends diskOutlook (writeAll sink bytes) := by
  refine spends_onOutcome (fun r hr => ?_) fun cut => ?_
  · cases r with
    | done => exact spends_update _ _
    | refused cut => exact (spends_update _ _).bind fun _ => spends_fail _
    | crash cut => exact absurd rfl (hr cut)
  · exact moves_spent_bind (spends_update _ _).spent fun _ _ => Outlook.Spent.refl _

theorem spends_truncate (sink len : ℕ) : Spends diskOutlook (truncate sink len) :=
  (spends_operation _ (spends_update _ _)).bind fun _ => spends_operation _ (spends_update _ _)

theorem spends_create (first limit : ℕ) : Spends diskOutlook (Segment.create first limit) := by
  refine (spends_operation _ ⟨fun d => ?_, fun d s' hexec => ?_⟩).bind fun _ => spends_pure _
  · rw [exec_bind_ok (exec_get d)]
    split
    · exact Outlook.Spent.refl _
    · exact Outlook.Spent.refl _
  · rw [exec_bind_ok (exec_get d)] at hexec
    split at hexec <;> cases hexec

theorem spends_onTarget {p : Prog Disk Error α} (h : Spends diskOutlook p) :
    Spends targetOutlook (onDisk p) := h.zoom (fun _ _ hspent => hspent) fun _ hcrash => hcrash

theorem spends_append (bytes : Bytes) : Spends targetOutlook (Segment.append bytes) := by
  refine spends_get.bind fun t => ?_
  split
  · exact spends_fail _
  · refine (spends_onTarget (spends_writeAll _ _)).attempt.bind fun written => ?_
    cases written with
    | error error =>
      refine (spends_onTarget (spends_truncate _ _)).attempt.bind fun rewound => ?_
      cases rewound with
      | error rewind => exact Spends.bind (spends_modify fun _ => rfl) fun _ => spends_fail _
      | ok _ => exact spends_fail _
    | ok _ =>
      exact Spends.bind (spends_modify fun _ => rfl) fun _ =>
        spends_onTarget (spends_operation _ (spends_update _ _))

theorem spends_removeCovered (durable : ℕ) (segments : List ℕ) (removed : ℕ) :
    Spends diskOutlook (removeCovered durable segments removed) := by
  induction segments generalizing removed with
  | nil => exact spends_pure _
  | cons first rest ih =>
    cases rest with
    | nil => exact spends_pure _
    | cons next rest =>
      rw [removeCovered]
      split
      · exact spends_pure _
      · exact Spends.bind (spends_operation _ (spends_modify fun _ => rfl)) fun _ => ih _

/-! ## The writer -/

/-- What is to come of either. -/
def Host.outlook (h : Host) : Outlook := ⟨h.disk.replies, h.store.engine.replies⟩

def Writer.outlook (w : Writer) : Outlook := w.host.outlook

theorem spends_onDisk {p : Prog Disk Error α} (h : Spends diskOutlook p) :
    Spends Host.outlook (Host.onDisk p) :=
  h.zoom (fun _ _ hspent => ⟨hspent.1, List.suffix_refl _⟩) fun _ hcrash =>
    .inl (hcrash.resolve_right List.not_mem_nil)

theorem spends_onStore {p : Prog KvStore Mvcc.Error α} (h : Spends storeOutlook p) :
    Spends Host.outlook (Host.onStore p) :=
  h.zoom (fun _ _ hspent => ⟨List.suffix_refl _, hspent.2⟩) fun _ hcrash =>
    .inr (hcrash.resolve_left fun ⟨_, hmem⟩ => absurd hmem List.not_mem_nil)

theorem spends_onHost {p : Prog Host Error α} (h : Spends Host.outlook p) :
    Spends Writer.outlook (Writer.onHost p) := h.zoom (fun _ _ hspent => hspent) fun _ hcrash => hcrash

theorem spends_onSegment {p : Prog Target Error α} (h : Spends targetOutlook p) :
    Spends Writer.outlook (Writer.onSegment p) :=
  h.zoom (fun _ _ hspent => ⟨hspent.1, List.suffix_refl _⟩) fun _ hcrash =>
    .inl (hcrash.resolve_right List.not_mem_nil)

/-- SOURCE: crates/wal/src/wal.rs:265-285 -/
theorem spends_compact : Spends Writer.outlook (Writer.onHost compact) :=
  spends_onHost ((spends_onStore spends_checkpoint).bind fun _ =>
    (spends_onDisk (spends_operation _ (spends_get.bind fun _ => spends_pure _))).bind fun _ =>
      spends_onDisk (spends_removeCovered _ _ _))

/-- SOURCE: crates/wal/src/writer.rs:175-208 -/
theorem spends_retire [Crc32] (batch : List Request) : Spends Writer.outlook (retire batch) := by
  unfold retire
  split
  · exact spends_fail _
  · refine Spends.bind (spends_get.bind fun w => ?_) fun _ =>
      Spends.bind (spends_onSegment (spends_append _)) fun _ =>
        Spends.bind (spends_modify fun _ => rfl) fun _ => spends_get.bind fun _ =>
          spends_onHost (spends_onStore (spends_apply _ _))
    split
    · exact (spends_onHost (spends_onDisk (spends_create _ _))).bind fun _ =>
        spends_modify fun _ => rfl
    · exact spends_pure _

end Hadar.Wal
