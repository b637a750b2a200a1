import Hadar.Model.Sharing

/-!
# The store as one object

What a store that threads share is for: each of its methods does what it does when no other thread
is there.
-/

set_option autoImplicit false

namespace Hadar.Mvcc

open Hadar.Lib Hadar.Storage

/-- A call run in one go. -/
def Op.run : Op → Prog KvStore Error Returned
  | .apply batch upto => .revisions <$> Mvcc.apply batch upto
  | .checkpoint => .position <$> Mvcc.checkpoint
  | .range bounds at_ limit => .records <$> Mvcc.range bounds at_ limit
  | .compact at_ => .removed <$> Mvcc.compact at_
  | .currentRevision => do
    let s ← get
    pure (.revision s.state.current)
  | .applied => do
    let s ← get
    pure (.position s.state.applied)

/-- What a call may return, however the calls it makes of the engine turn out, and what it leaves
then; a crash is no result. -/
def OpStep (contents : Contents) (op : Op) (result : Except (Stop Error) Returned)
    (contents' : Contents) : Prop :=
  ∃ replies, (op.run.exec (Contents.view.join contents replies)).1 = result ∧
    Contents.view.seen (op.run.exec (Contents.view.join contents replies)).2 = contents' ∧
      result ≠ .error .crash

/-- The store, called by one thread. -/
def storeObject (start : Contents) : Sequential Contents Op (Except (Stop Error) Returned) :=
  ⟨start, OpStep⟩

end Hadar.Mvcc
