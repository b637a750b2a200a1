import Hadar.Interface.Paging
import Hadar.Interface.Transactions
import Hadar.Lib.Exclusion

/-!
# The in-memory engine keeps the transaction contract

The invariant of the clients' steps: the gate guards the one write transaction that is not
over, the committed map is what the committed transactions wrote, and every open
transaction holds the map its ledger gives it. A commit replaces the whole map, and loses
nothing since whoever holds the gate is the only one to commit until it releases it.
-/

set_option autoImplicit false

namespace Hadar.Mem

open Hadar.Storage Hadar.Lib

variable {s s' : System} {l l' : Ledger} {id : ℕ}

/-! ## Maps and their roots -/

/-- The map has these entries, and a root where it was filled. -/
structure Map.Shows (map : Map) (entries : Keyspace) (filled : Prop) : Prop where
  entries : map.entries = entries
  rooted : map.rooted = true ↔ filled

theorem Map.shows_clone (map : Map) : map.clone.Shows map.entries (map.entries ≠ ∅) := by
  unfold Map.clone
  split
  · rename_i hempty
    have hnone : map.entries = ∅ := Std.ExtTreeMap.isEmpty_iff.mp hempty
    exact ⟨hnone.symm, iff_of_false Bool.false_ne_true fun hne => hne hnone⟩
  · rename_i hfull
    have hne : map.entries ≠ ∅ := fun hnone => hfull (Std.ExtTreeMap.isEmpty_iff.mpr hnone)
    refine ⟨rfl, iff_of_true ?_ hne⟩
    cases hrooted : map.rooted with
    | true => rfl
    | false => exact absurd (map.unrooted hrooted) hne

/-- A range answers from the entries.
SOURCE: crates/storage-api/src/mem.rs:170-179 -/
theorem Map.Shows.collect {map : Map} {entries : Keyspace} {filled : Prop}
    (h : map.Shows entries filled) (bounds : Bounds) (limit : Option ℕ) :
    Ranged entries filled bounds limit (.pairs (Mem.collect map bounds limit)) := by
  cases hcross : map.rooted && bounds.panics with
  | true =>
    obtain ⟨hrooted, hpanics⟩ := Bool.and_eq_true_iff.mp hcross
    rw [Mem.collect, if_pos hcross]
    exact .panicked (h.rooted.mp hrooted) hpanics
  | false =>
    have hcapped : ∀ all : List (Bytes × Bytes), capped limit all = limit.elim all all.take := by
      cases limit <;> exact fun _ => rfl
    rw [Mem.collect, if_neg (Bool.not_eq_true _ ▸ hcross), h.entries, hcapped]
    refine .found (ascending_entriesIn entries bounds) (fun key value => ?_) fun hboth => ?_
    · rw [entriesIn, List.mem_filter, Std.ExtTreeMap.mem_toList_iff_getElem?_eq_some]
    · exact Bool.false_ne_true (hcross.symm.trans
        (Bool.and_eq_true_iff.mpr ⟨h.rooted.mpr hboth.1, hboth.2⟩))

/-! ## What a step can do -/

theorem unfinished_setWrite {stage : Stage} {j : ℕ} :
    (s.setWrite id stage).Unfinished j ↔ if j = id then stage.Unfinished else s.Unfinished j := by
  by_cases hj : j = id
  · subst hj
    simp [System.Unfinished, System.setWrite]
  · simp [System.Unfinished, System.setWrite, hj]

/-- A stage of a write transaction that fits the ledger. -/
def Stands (l : Ledger) (id : ℕ) : Option Stage → Prop
  | none => l.written id = [] ∧ l.releases id = 0
  | some .entered => l.writing id = l.commits ∧ l.written id = [] ∧ l.releases id = 0
  | some (.opened txn) =>
    txn.finished = false ∧ l.writing id = l.commits ∧ txn.working.Shows (l.view id) (l.Filled id) ∧
      l.releases id = 0
  | some (.replaced txn) => txn.finished = false ∧ l.releases id = 0
  | some (.ended txn) => txn.finished = true ∧ l.releases id = 1
  | some .dropped => l.releases id = 1

/-- The invariant of the clients' steps. -/
structure Sound (s : System) (l : Ledger) : Prop where
  committed : s.shared.committed.entries = contents l.commits
  gate : Guards s.shared.held s.Unfinished
  reads : ∀ id txn, s.reads id = some txn →
    txn.snapshot.Shows (l.snapshot id) (l.snapshot id ≠ ∅)
  stands : ∀ id, Stands l id (s.writes id)

theorem sound_new : Sound System.new Ledger.blank := by
  refine ⟨rfl, Guards.nobody.congr fun j => ?_, ?_, fun _ => ⟨rfl, rfl⟩⟩
  · simp [System.Unfinished, System.new]
  · intro id txn h
    cases h

/-- A ledger that differs in another transaction's entries alone. -/
structure SameFor (l l' : Ledger) (id : ℕ) : Prop where
  writing : l'.writing id = l.writing id
  written : l'.written id = l.written id
  releases : l'.releases id = l.releases id

theorem SameFor.view (h : SameFor l l' id) : l'.view id = l.view id := by
  rw [Ledger.view, Ledger.view, h.writing, h.written]

theorem SameFor.filled (h : SameFor l l' id) : l'.Filled id = l.Filled id := by
  rw [Ledger.Filled, Ledger.Filled, h.writing, h.written]

/-- What others note does not touch where a transaction stands, as long as none of them
commits while it is between the gate and its own commit. -/
theorem Stands.frame {stage : Option Stage} (h : Stands l id stage) (hsame : SameFor l l' id)
    (hcommits : l'.commits = l.commits ∨ ∀ st, stage = some st → ¬ st.Unfinished) :
    Stands l' id stage := by
  have hkept : ∀ st, stage = some st → st.Unfinished → l'.commits = l.commits := by
    intro st hst hunfinished
    rcases hcommits with heq | hnone
    · exact heq
    · exact absurd hunfinished (hnone st hst)
  match stage with
  | none => exact ⟨hsame.written.trans h.1, hsame.releases.trans h.2⟩
  | some .entered =>
    obtain ⟨hwriting, hwritten, hreleases⟩ := h
    refine ⟨?_, hsame.written.trans hwritten, hsame.releases.trans hreleases⟩
    rw [hsame.writing, hwriting, hkept _ rfl trivial]
  | some (.opened txn) =>
    obtain ⟨hfinished, hwriting, hworking, hreleases⟩ := h
    refine ⟨hfinished, ?_, ?_, hsame.releases.trans hreleases⟩
    · rw [hsame.writing, hwriting, hkept _ rfl hfinished]
    · rw [hsame.view, hsame.filled]
      exact hworking
  | some (.replaced txn) => exact ⟨h.1, hsame.releases.trans h.2⟩
  | some (.ended txn) => exact ⟨h.1, hsame.releases.trans h.2⟩
  | some .dropped => exact hsame.releases.trans h

/-- A step of the write transaction `id`. -/
theorem Sound.setWrite {shared : Shared} {stage : Stage} (h : Sound s l)
    (hcommitted : shared.committed.entries = contents l'.commits)
    (hgate : Guards shared.held ({ s with shared := shared }.setWrite id stage).Unfinished)
    (hreading : l'.reading = l.reading) (hother : ∀ j, j ≠ id → SameFor l l' j)
    (hcommits : l'.commits = l.commits ∨ s.Unfinished id)
    (hstands : Stands l' id (some stage)) :
    Sound ({ s with shared := shared }.setWrite id stage) l' := by
  refine ⟨hcommitted, hgate, fun j txn hj => ?_, fun j => ?_⟩
  · rw [Ledger.snapshot, hreading]
    exact h.reads j txn hj
  · by_cases hj : j = id
    · subst hj
      simpa [System.setWrite] using hstands
    · have hat : ({ s with shared := shared }.setWrite id stage).writes j = s.writes j := by
        simp [System.setWrite, hj]
      rw [hat]
      refine (h.stands j).frame (hother j hj) (hcommits.imp_right fun hown st hst hunfinished => ?_)
      exact hj (h.gate.exclusive j id ⟨st, hst, hunfinished⟩ hown)

/-- A step of `id` that neither takes nor releases the gate. -/
theorem Sound.stay {shared : Shared} {stage stage' : Stage} (h : Sound s l)
    (hat : s.writes id = some stage) (hsame : stage'.Unfinished ↔ stage.Unfinished)
    (hheld : shared.held = s.shared.held) :
    Guards shared.held ({ s with shared := shared }.setWrite id stage').Unfinished := by
  rw [hheld]
  refine h.gate.congr fun j => ?_
  rw [unfinished_setWrite]
  by_cases hj : j = id
  · subst hj
    simp [System.Unfinished, hat, hsame]
  · rw [if_neg hj]
    rfl

/-- Where an open write transaction stands. -/
theorem Sound.opened {txn : MemWrite} (h : Sound s l) (hat : s.writes id = some (.opened txn)) :
    txn.finished = false ∧ l.writing id = l.commits ∧ txn.working.Shows (l.view id) (l.Filled id) ∧
      l.releases id = 0 := by
  simpa [hat, Stands] using h.stands id

/-! ## Each step keeps the invariant -/

theorem Sound.beginRead (h : Sound s l) :
    Sound { s with reads := Function.update s.reads id (some (MemEngine.beginRead s.shared)) }
      (l.record (.beginRead id) .nothing) := by
  refine ⟨h.committed, h.gate, fun j txn hj => ?_, fun j => ?_⟩
  · by_cases hid : j = id
    · subst hid
      simp only [Function.update_self, Option.some.injEq] at hj
      subst hj
      have hclone := s.shared.committed.shows_clone
      rw [h.committed] at hclone
      simpa [Ledger.snapshot, Ledger.record, MemEngine.beginRead] using hclone
    · simp only [Function.update_of_ne hid] at hj
      simpa [Ledger.snapshot, Ledger.record, hid] using h.reads j txn hj
  · exact (h.stands j).frame ⟨rfl, rfl, rfl⟩ (.inl rfl)

theorem Sound.dropRead (h : Sound s l) :
    Sound { s with reads := Function.update s.reads id none } l := by
  refine ⟨h.committed, h.gate, fun j txn hj => ?_, h.stands⟩
  by_cases hid : j = id
  · subst hid
    simp at hj
  · simp only [Function.update_of_ne hid] at hj
    exact h.reads j txn hj

theorem Sound.acquire {shared : Shared} (h : Sound s l) (hat : s.writes id = none)
    (hfree : Gate.acquire s.shared = some shared) :
    Sound ({ s with shared := shared }.setWrite id .entered)
      (l.record (.acquire id) .nothing) := by
  have hdown : s.shared.held = false := by
    by_contra hup
    simp [Gate.acquire, hup] at hfree
  obtain rfl : shared = { s.shared with held := true } := by
    simpa [Gate.acquire, hdown, eq_comm] using hfree
  have hgate : Guards false s.Unfinished := hdown ▸ h.gate
  obtain ⟨hwritten, hreleases⟩ : l.written id = [] ∧ l.releases id = 0 := by
    simpa [hat, Stands] using h.stands id
  refine h.setWrite h.committed (hgate.take (i := id) fun j => ?_) rfl (fun j hj => ?_) (.inl rfl) ?_
  · rw [unfinished_setWrite]
    by_cases hj : j = id
    · simp [hj, Stage.Unfinished]
    · rw [if_neg hj]
      simp only [hj, or_false]
      rfl
  · exact ⟨by simp [Ledger.record, hj], rfl, rfl⟩
  · exact ⟨by simp [Ledger.record], hwritten, hreleases⟩

theorem Sound.copy (h : Sound s l) (hat : s.writes id = some .entered) :
    Sound (s.setWrite id (.opened (MemEngine.copy s.shared))) l := by
  obtain ⟨hwriting, hwritten, hreleases⟩ :
      l.writing id = l.commits ∧ l.written id = [] ∧ l.releases id = 0 := by
    simpa [hat, Stands] using h.stands id
  refine h.setWrite h.committed (h.stay hat ?_ rfl) rfl (fun j _ => ⟨rfl, rfl, rfl⟩) (.inl rfl) ?_
  · simp [Stage.Unfinished, MemEngine.copy]
  · refine ⟨rfl, hwriting, ?_, hreleases⟩
    have hclone := s.shared.committed.shows_clone
    rw [h.committed] at hclone
    rw [Ledger.view, Ledger.Filled, hwriting, hwritten]
    simpa [overlay, MemEngine.copy] using hclone

/-- An `insert` or a `remove`. -/
theorem Sound.write {txn txn' : MemWrite} (h : Sound s l) (hat : s.writes id = some (.opened txn))
    (w : Write) (hfinished : txn'.finished = txn.finished)
    (hentries : txn'.working.entries = w.on txn.working.entries)
    (hrooted : txn'.working.rooted = true ↔
      txn.working.rooted = true ∨ ∃ key value, w = .insert key value) :
    Sound (s.setWrite id (.opened txn')) (l.write id w) := by
  obtain ⟨hopen, hwriting, hview, hreleases⟩ := h.opened hat
  refine h.setWrite h.committed (h.stay hat ?_ rfl) rfl (fun j hj => ?_) (.inl rfl) ?_
  · simp [Stage.Unfinished, hfinished]
  · exact ⟨rfl, by simp [Ledger.write, hj], rfl⟩
  · refine ⟨hfinished.trans hopen, hwriting, ?_, hreleases⟩
    have hwritten : (l.write id w).written id = l.written id ++ [w] := by simp [Ledger.write]
    constructor
    · calc txn'.working.entries = w.on (l.view id) := by rw [hentries, hview.entries]
        _ = (l.write id w).view id := by
          rw [Ledger.view, Ledger.view, hwritten, overlay, overlay, List.foldl_append]
          rfl
    · have hsame : (l.write id w).writing = l.writing := rfl
      rw [hrooted, hview.rooted, Ledger.Filled, Ledger.Filled, hwritten, hsame, or_assoc]
      simp only [List.mem_append, List.mem_singleton, exists_or, eq_comm]

/-- The first line of `commit`: the map becomes what the transaction read, and nobody has
committed since it got through the gate. -/
theorem Sound.replace {txn : MemWrite} (h : Sound s l) (hat : s.writes id = some (.opened txn)) :
    Sound ({ s with shared := (txn.replace s.shared).2 }.setWrite id
      (.replaced (txn.replace s.shared).1)) (l.record (.replace id) .nothing) := by
  obtain ⟨hopen, hwriting, hview, hreleases⟩ := h.opened hat
  have hcommitted : txn.working.entries = contents (l.commits ++ [l.written id]) := by
    rw [hview.entries, Ledger.view, hwriting, contents, contents, overlay, overlay, overlay,
      List.flatten_append, List.foldl_append, List.flatten_singleton]
  refine h.setWrite hcommitted (h.stay hat Iff.rfl rfl) rfl (fun j _ => ⟨rfl, rfl, rfl⟩)
    (.inr ⟨_, hat, hopen⟩) ⟨hopen, hreleases⟩

theorem finished_finish (txn : MemWrite) (shared : Shared) :
    (txn.finish shared).1.finished = true := by
  unfold MemWrite.finish
  split
  · assumption
  · rfl

/-- The call of `finish` by `commit`, by `abort` or by the drop of an open transaction: it
releases the gate. -/
theorem Sound.finish {txn : MemWrite} {stage stage' : Stage} (h : Sound s l)
    (hat : s.writes id = some stage) (hopen : stage.Unfinished) (hfinished : txn.finished = false)
    (hreleases : l.releases id = 0) (hdone : ¬ stage'.Unfinished)
    (hstands : ∀ l', l'.releases id = 1 → Stands l' id (some stage')) :
    Sound ({ s with shared := (txn.finish s.shared).2.1 }.setWrite id stage')
      (l.finish id (.finished (txn.finish s.shared).2.2)) := by
  have hfinish : txn.finish s.shared = ({ txn with finished := true }, Gate.release s.shared, true) := by
    simp [MemWrite.finish, hfinished]
  have hledger : l.finish id (.finished (txn.finish s.shared).2.2) =
      { l with releases := Function.update l.releases id 1 } := by
    simp [hfinish, Ledger.finish, hreleases]
  rw [hledger, hfinish]
  refine h.setWrite h.committed (h.gate.release ⟨stage, hat, hopen⟩ fun j => ?_) rfl
    (fun j hj => ⟨rfl, rfl, by simp [hj]⟩) (.inl rfl) (hstands _ (by simp))
  rw [unfinished_setWrite]
  by_cases hj : j = id
  · simp [hj, hdone]
  · rw [if_neg hj]
    simp only [ne_eq, hj, not_false_eq_true, and_true]
    rfl

/-- The drop of a transaction that `commit` or `abort` has finished: the flag keeps it from
releasing a gate that may be another's by now. -/
theorem Sound.drop {txn : MemWrite} (h : Sound s l) (hat : s.writes id = some (.ended txn)) :
    Sound ({ s with shared := (txn.finish s.shared).2.1 }.setWrite id .dropped)
      (l.finish id (.finished (txn.finish s.shared).2.2)) := by
  obtain ⟨hfinished, hreleases⟩ : txn.finished = true ∧ l.releases id = 1 := by
    simpa [hat, Stands] using h.stands id
  have hfinish : txn.finish s.shared = (txn, s.shared, false) := by
    simp [MemWrite.finish, hfinished]
  rw [hfinish]
  refine h.setWrite h.committed (h.stay hat ?_ rfl) rfl (fun j _ => ⟨rfl, rfl, rfl⟩) (.inl rfl)
    hreleases
  simp [Stage.Unfinished, hfinished]

/-- A step keeps the invariant and answers what the contract asks. -/
theorem Sound.perform {action : Action} {answer : Answer} (h : Sound s l)
    (hstep : s.perform action = some (s', answer)) :
    Sound s' (l.record action answer) ∧ l.Expects action answer := by
  cases action with
  | beginRead id =>
    simp only [System.perform] at hstep
    split at hstep
    · cases hstep
      exact ⟨h.beginRead, trivial⟩
    · cases hstep
  | readGet id key =>
    simp only [System.perform] at hstep
    split at hstep
    · rename_i txn hat
      cases hstep
      exact ⟨h, congrArg (fun entries => Answer.value entries[key]?) (h.reads id txn hat).entries⟩
    · cases hstep
  | readRange id bounds limit =>
    simp only [System.perform] at hstep
    split at hstep
    · rename_i txn hat
      cases hstep
      exact ⟨h, (h.reads id txn hat).collect bounds limit⟩
    · cases hstep
  | dropRead id =>
    simp only [System.perform] at hstep
    split at hstep
    · cases hstep
      exact ⟨h.dropRead, trivial⟩
    · cases hstep
  | acquire id =>
    simp only [System.perform] at hstep
    split at hstep
    · rename_i hat hfree
      cases hstep
      exact ⟨h.acquire hat hfree, trivial⟩
    · cases hstep
  | copy id =>
    simp only [System.perform] at hstep
    split at hstep
    · rename_i hat
      cases hstep
      exact ⟨h.copy hat, trivial⟩
    · cases hstep
  | get id key =>
    simp only [System.perform] at hstep
    split at hstep
    · rename_i txn hat
      cases hstep
      exact ⟨h, congrArg (fun entries => Answer.value entries[key]?) (h.opened hat).2.2.1.entries⟩
    · cases hstep
  | range id bounds limit =>
    simp only [System.perform] at hstep
    split at hstep
    · rename_i txn hat
      cases hstep
      exact ⟨h, (h.opened hat).2.2.1.collect bounds limit⟩
    · cases hstep
  | insert id key value =>
    simp only [System.perform] at hstep
    split at hstep
    · rename_i txn hat
      cases hstep
      exact ⟨h.write hat (.insert key value) rfl rfl
        (iff_of_true rfl (.inr ⟨key, value, rfl⟩)), trivial⟩
    · cases hstep
  | remove id key =>
    simp only [System.perform] at hstep
    split at hstep
    · rename_i txn hat
      cases hstep
      refine ⟨h.write hat (.remove key) rfl rfl (or_iff_left ?_).symm, ?_⟩
      · rintro ⟨key, value, hremove⟩
        cases hremove
      · exact congrArg (fun entries => Answer.value entries[key]?) (h.opened hat).2.2.1.entries
    · cases hstep
  | replace id =>
    simp only [System.perform] at hstep
    split at hstep
    · rename_i txn hat
      cases hstep
      exact ⟨h.replace hat, trivial⟩
    · cases hstep
  | finish id =>
    simp only [System.perform] at hstep
    split at hstep
    · rename_i txn hat
      cases hstep
      obtain ⟨hopen, hreleases⟩ : txn.finished = false ∧ l.releases id = 0 := by
        simpa [hat, Stands] using h.stands id
      have hfinished := finished_finish txn s.shared
      exact ⟨h.finish hat hopen hopen hreleases (fun hnot => Bool.noConfusion (hfinished.symm.trans hnot))
        fun l' hl' => ⟨hfinished, hl'⟩, trivial⟩
    · cases hstep
  | abort id =>
    simp only [System.perform] at hstep
    split at hstep
    · rename_i txn hat
      cases hstep
      obtain ⟨hopen, -, -, hreleases⟩ := h.opened hat
      have hfinished := finished_finish txn s.shared
      exact ⟨h.finish hat hopen hopen hreleases (fun hnot => Bool.noConfusion (hfinished.symm.trans hnot))
        fun l' hl' => ⟨hfinished, hl'⟩, trivial⟩
    · cases hstep
  | drop id =>
    simp only [System.perform] at hstep
    split at hstep
    · rename_i txn hat
      cases hstep
      obtain ⟨hopen, -, -, hreleases⟩ := h.opened hat
      exact ⟨h.finish hat hopen hopen hreleases (fun hgone => hgone) fun l' hl' => hl',
        trivial⟩
    · rename_i txn hat
      cases hstep
      exact ⟨h.drop hat, trivial⟩
    · cases hstep

theorem Interleaving.sound (h : Interleaving s l) : Sound s l := by
  induction h with
  | start => exact sound_new
  | step action _ hstep ih => exact (ih.perform hstep).1

/-- A transaction that is over has released the gate once, any other has not. -/
theorem Sound.releases (h : Sound s l) (id : ℕ) :
    (s.Finished id → l.releases id = 1) ∧ (¬ s.Finished id → l.releases id = 0) := by
  have hstands := h.stands id
  constructor
  · rintro ⟨stage, hat, hdone⟩
    rw [hat] at hstands
    match stage with
    | .entered => exact absurd trivial hdone
    | .opened txn => exact absurd hstands.1 hdone
    | .replaced txn => exact absurd hstands.1 hdone
    | .ended txn => exact hstands.2
    | .dropped => exact hstands
  · intro hnot
    match hat : s.writes id with
    | none => exact (hat ▸ hstands).2
    | some .entered => exact (hat ▸ hstands).2.2
    | some (.opened txn) => exact (hat ▸ hstands).2.2.2
    | some (.replaced txn) => exact (hat ▸ hstands).2
    | some (.ended txn) =>
      have hover : txn.finished = true := (hat ▸ hstands).1
      exact absurd ⟨_, hat, by simp [Stage.Unfinished, hover]⟩ hnot
    | some .dropped => exact absurd ⟨_, hat, fun hgone => hgone⟩ hnot

/-- **The transaction contract.** After any interleaving of any number of clients: the gate
guards at most one write transaction and is held exactly while one is not over; each write
transaction releases it once when it is over and never before; the committed map is the
committed transactions' writes in commit order; and whatever step comes next is answered
from the commits there were when its transaction began, overlaid with its own writes. -/
theorem interleaving_contract (h : Interleaving s l) :
    (∀ i j, s.Unfinished i → s.Unfinished j → i = j) ∧
      (s.shared.held = true ↔ ∃ i, s.Unfinished i) ∧
      (∀ i, (s.Finished i → l.releases i = 1) ∧ (¬ s.Finished i → l.releases i = 0)) ∧
      s.shared.committed.entries = contents l.commits ∧
      ∀ action s' answer, s.perform action = some (s', answer) → l.Expects action answer := by
  have hsound := h.sound
  refine ⟨hsound.gate.exclusive, hsound.gate.held_iff, hsound.releases, hsound.committed, ?_⟩
  intro action s' answer hstep
  exact (hsound.perform hstep).2

/-- A second writer gets through the gate between the first one's commit and its drop: the
drop leaves the gate with it. -/
theorem interleaving_contract_lateDrop :
    ∃ s l, Interleaving s l ∧ l.commits = [[.insert [1] [2]]] ∧ s.Finished 0 ∧ s.Unfinished 1 ∧
      s.shared.held = true ∧ l.releases 0 = 1 ∧ l.releases 1 = 0 ∧
      s.shared.committed.entries = contents [[.insert [1] [2]]] := by
  have h := Interleaving.start
    |>.step (.acquire 0) rfl
    |>.step (.copy 0) rfl
    |>.step (.insert 0 [1] [2]) rfl
    |>.step (.replace 0) rfl
    |>.step (.finish 0) rfl
    |>.step (.acquire 1) rfl
    |>.step (.drop 0) rfl
  refine ⟨_, _, h, rfl, ⟨.dropped, rfl, fun hgone => hgone⟩, ⟨.entered, rfl, trivial⟩, ?_⟩
  obtain ⟨-, hheld, hreleases, hcommitted, -⟩ := interleaving_contract h
  refine ⟨hheld.mpr ⟨1, .entered, rfl, trivial⟩, ?_, ?_, hcommitted⟩
  · exact (hreleases 0).1 ⟨.dropped, rfl, fun hgone => hgone⟩
  · refine (hreleases 1).2 ?_
    rintro ⟨stage, hat, hdone⟩
    obtain rfl : stage = .entered := (Option.some.inj hat).symm
    exact hdone trivial

end Hadar.Mem
