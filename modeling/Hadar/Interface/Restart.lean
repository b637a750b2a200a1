import Hadar.Interface.MultiVersion

/-!
# Stores that are opened again

What a store rebuilt by `open` over the contents of another one is expected to agree with
it on: the revision counter, the ages of the records it shows, and the watermark below
which it refuses to read.
-/

set_option autoImplicit false

namespace Hadar.Mvcc

open Hadar.Lib Hadar.Storage

/-- The newest mutation deletes a key that existed just before, and everything up to it was
compacted. -/
def NewestForgotten (m : MultiVersion) : Prop :=
  m.watermark = m.current ∧ ∃ earlier key, m.mutations = earlier ++ [.delete key] ∧
    (view (stamped earlier) earlier.length key).isSome = true

/-- Reads at a revision agree on the age of every record: on its creation and its version. -/
def SameAges (live reopened : KvStore) (at_ : ℕ) : Prop :=
  ∀ bounds limit, Bounds.Built bounds → ∃ records records',
    (range bounds (some at_) limit).exec live = (.ok records, live) ∧
    (range bounds (some at_) limit).exec reopened = (.ok records', reopened) ∧
    records.map (fun r => (r.key, r.created, r.version)) =
      records'.map fun r => (r.key, r.created, r.version)

/-! ## Runs that reopen -/

/-- A call, or a restart of the process. -/
inductive Step where
  | call (call : Call)
  | reopen
  deriving DecidableEq, Repr

/-- A store, the largest watermark it ever accepted, and the largest one since it was last
opened. -/
structure Watched where
  store : KvStore
  largest : ℕ
  sinceOpen : ℕ

namespace Watched

/-- A call. A compaction that returns a count was accepted. -/
def afterCall (w : Watched) (call : Call) : Watched :=
  match call with
  | .apply _ _ => { w with store := w.store.after call }
  | .compact at_ =>
    match (compact at_).exec w.store with
    | (.ok _, store) => ⟨store, max w.largest at_, max w.sinceOpen at_⟩
    | (.error _, store) => { w with store := store }

/-- A restart: the store is opened over what the engine holds. -/
def afterReopen (w : Watched) : Watched :=
  match openStore w.store.engine with
  | (.ok state, engine) => ⟨⟨engine, state⟩, w.largest, 0⟩
  | (.error _, _) => w

def after (w : Watched) : Step → Watched
  | .call call => w.afterCall call
  | .reopen => w.afterReopen

/-- The store after a run of calls and restarts. -/
def run (steps : List Step) : Watched := steps.foldl after ⟨KvStore.fresh, 0, 0⟩

end Watched

/-- Reads below a revision are refused as compacted, and so are compactions below it. -/
def RefusesBelow (s : KvStore) (watermark : ℕ) : Prop :=
  ∀ at_ < watermark,
    (∀ bounds limit, ∃ oldest,
      (range bounds (some at_) limit).exec s = (.error (.error (.compacted at_ oldest)), s)) ∧
    ∃ e, (compact at_).exec s = (.error (.error e), s)

end Hadar.Mvcc
