import Hadar.Lib.OrderedMap
import Hadar.Model.Mem

/-!
# The transaction contract

What a run of the engine's clients is to show, told from the steps and their answers alone:
a `Ledger` notes which writes were committed, in which order, which commits there were when
each transaction began, and what each has written since. The contract reads every answer
off the ledger, with no map of the engine in sight.
-/

set_option autoImplicit false

namespace Hadar.Mem

open Hadar.Lib Hadar.Storage

inductive Write where
  | insert (key value : Bytes)
  | remove (key : Bytes)
  deriving DecidableEq, Repr

def Write.on (map : Keyspace) : Write → Keyspace
  | insert key value => map.insert key value
  | remove key => map.erase key

/-- A map overlaid with writes, the earliest first. -/
def overlay (map : Keyspace) (writes : List Write) : Keyspace := writes.foldl Write.on map

/-- What committed transactions leave of an empty engine. -/
def contents (commits : List (List Write)) : Keyspace := overlay ∅ commits.flatten

/-- What is to be answered to a range over a map: its pairs within the bounds, ascending, as far as
the limit goes. Only bounds that cross make it panic instead, and only once the map has been
filled. -/
inductive Ranged (map : Keyspace) (filled : Prop) (bounds : Bounds) (limit : Option ℕ) :
    Answer → Prop where
  | found {all : List (Bytes × Bytes)} (ascending : Ascending compare all)
    (mem : ∀ key value, (key, value) ∈ all ↔ map[key]? = some value ∧ bounds.contains key = true)
    (accepted : ¬ (filled ∧ bounds.panics = true)) :
    Ranged map filled bounds limit (.pairs (some (limit.elim all all.take)))
  | panicked (was : filled) (crossed : bounds.panics = true) :
    Ranged map filled bounds limit (.pairs none)

/-- What the steps so far tell. -/
structure Ledger where
  /-- the writes of each committed transaction, in commit order -/
  commits : List (List Write)
  /-- the commits there were when each read transaction was opened -/
  reading : ℕ → List (List Write)
  /-- the commits there were when each write transaction got through the gate -/
  writing : ℕ → List (List Write)
  /-- what each write transaction has written -/
  written : ℕ → List Write
  /-- how often each write transaction released the gate -/
  releases : ℕ → ℕ

namespace Ledger

def blank : Ledger := ⟨[], fun _ => [], fun _ => [], fun _ => [], fun _ => 0⟩

/-- The write transaction `id` writes. -/
def write (l : Ledger) (id : ℕ) (w : Write) : Ledger :=
  { l with written := Function.update l.written id (l.written id ++ [w]) }

/-- The write transaction `id` calls `finish`. -/
def finish (l : Ledger) (id : ℕ) (answer : Answer) : Ledger :=
  if answer = .finished true then
    { l with releases := Function.update l.releases id (l.releases id + 1) }
  else l

def record (l : Ledger) (action : Action) (answer : Answer) : Ledger :=
  match action with
  | .beginRead id => { l with reading := Function.update l.reading id l.commits }
  | .acquire id => { l with writing := Function.update l.writing id l.commits }
  | .insert id key value => l.write id (.insert key value)
  | .remove id key => l.write id (.remove key)
  | .replace id => { l with commits := l.commits ++ [l.written id] }
  | .finish id | .abort id | .drop id => l.finish id answer
  | _ => l

/-- What a read transaction reads. -/
def snapshot (l : Ledger) (id : ℕ) : Keyspace := contents (l.reading id)

/-- What a write transaction reads. -/
def view (l : Ledger) (id : ℕ) : Keyspace := overlay (contents (l.writing id)) (l.written id)

/-- Whether the map of a write transaction ever had an entry. -/
def Filled (l : Ledger) (id : ℕ) : Prop :=
  contents (l.writing id) ≠ ∅ ∨ ∃ key value, .insert key value ∈ l.written id

/-- The answers that the contract allows to a step: one, or any where the step tells its client
nothing. -/
def Expects (l : Ledger) : Action → Answer → Prop
  | .readGet id key, answer => answer = .value (l.snapshot id)[key]?
  | .readRange id bounds limit, answer =>
    Ranged (l.snapshot id) (l.snapshot id ≠ ∅) bounds limit answer
  | .get id key, answer => answer = .value (l.view id)[key]?
  | .range id bounds limit, answer => Ranged (l.view id) (l.Filled id) bounds limit answer
  | .remove id key, answer => answer = .value (l.view id)[key]?
  | _, _ => True

end Ledger

/-- The system and what its steps tell, after any interleaving of its clients' steps. -/
inductive Interleaving : System → Ledger → Prop where
  | start : Interleaving System.new Ledger.blank
  | step {s s' : System} {l : Ledger} (action : Action) {answer : Answer} :
      Interleaving s l → s.perform action = some (s', answer) →
        Interleaving s' (l.record action answer)

/-- Past the gate, with `finish` still to come. -/
def Stage.Unfinished : Stage → Prop
  | entered => True
  | opened txn | replaced txn | ended txn => txn.finished = false
  | dropped => False

namespace System

/-- A write transaction that has passed the gate and has not finished. -/
def Unfinished (s : System) (id : ℕ) : Prop := ∃ stage, s.writes id = some stage ∧ stage.Unfinished

/-- A write transaction whose `commit`, `abort` or drop has called `finish`. -/
def Finished (s : System) (id : ℕ) : Prop := ∃ stage, s.writes id = some stage ∧ ¬ stage.Unfinished

end System

end Hadar.Mem
