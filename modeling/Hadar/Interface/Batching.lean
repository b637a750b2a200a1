import Hadar.Model.Store

/-!
# A list of mutations in batches

The same mutations given to a store in consecutive batches, each with the position it is
applied up to, and what two stores have to agree in to be the same store.
-/

set_option autoImplicit false

namespace Hadar.Mvcc

open Hadar.Lib Hadar.Storage

/-- `apply` on one batch after another, with the revisions of all of them. -/
def applyAll : List (List Mutation × ℕ) → Prog KvStore Error (List Revision)
  | [] => pure []
  | (batch, upto) :: rest => do
    let revisions ← Mvcc.apply batch upto
    let more ← applyAll rest
    pure (revisions ++ more)

/-- The stores have the same contents and the same state: index, current revision, watermark
and applied position. How the calls of their engines turn out may differ. -/
structure SameStore (s t : KvStore) : Prop where
  contents : t.engine.committed = s.engine.committed
  state : t.state = s.state

end Hadar.Mvcc
