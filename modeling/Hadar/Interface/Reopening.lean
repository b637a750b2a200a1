import Hadar.Interface.MultiVersion

/-!
# A store and the one opened in its place

Runs of a store in which any call of the engine may be refused, in any pattern, and what it means
that a store opened over what the engine has committed cannot be told from the live one.
-/

set_option autoImplicit false

namespace Hadar.Mvcc

open Hadar.Lib Hadar.Lib.Prog Hadar.Storage

/-- The engine, with every call to come succeeding. -/
def Engine.calmed (e : Engine) : Engine := { e with replies := [] }

/-- Contents that hold the same records. -/
def SameRecords (contents contents' : Keyspace) : Prop :=
  ∀ rev tombstone, contents[backendKey rev tombstone]? = contents'[backendKey rev tombstone]?

/-- A call that writes to the store. -/
inductive Move where
  | apply (batch : List Mutation) (upto : ℕ)
  | checkpoint

namespace Move

def prog : Move → Prog KvStore Error Unit
  | apply batch upto => do let _ ← Mvcc.apply batch upto
  | checkpoint => do let _ ← Mvcc.checkpoint

/-- Keys fit the record format, and a position fits its type. -/
def Allowed : Move → Prop
  | apply batch upto => (∀ m ∈ batch, m.key.length ≤ u32Max) ∧ upto < 2 ^ 64
  | checkpoint => True

end Move

/-- The stores that runs lead to from an empty engine, however its calls turn out. -/
inductive Trial : KvStore → Prop where
  | opened {replies : List Reply} {state : State} {e : Engine}
    (ran : openState.exec ⟨[], 0, replies⟩ = (.ok state, e)) : Trial ⟨e, state⟩
  | moved {s : KvStore} (move : Move) (before : Trial s) (allowed : move.Allowed) :
    Trial (move.prog.exec s).2

/-- Two stores show the same: their newest revision, the position applied, and, where no call is
refused, whatever a range returns or fails with. -/
structure SameView (s s' : KvStore) : Prop where
  current : s.state.current = s'.state.current
  applied : s.state.applied = s'.state.applied
  range : ∀ bounds at_ limit, Bounds.Built bounds →
    ((range bounds at_ limit).exec ⟨Engine.calmed s.engine, s.state⟩).1 =
      ((range bounds at_ limit).exec ⟨Engine.calmed s'.engine, s'.state⟩).1

end Hadar.Mvcc
