import Hadar.Model.Index

/-!
# The index with its assertions

`locate`, `at` and `compact` (crates/mvcc/src/index.rs) as a build with debug assertions and
overflow checks runs them: a subtraction that would underflow panics, and so does the assertion
that no generation is without revisions. `none` stands for the panic.
-/

set_option autoImplicit false

namespace Hadar.Mvcc

/-- `a - b` on an unsigned type. -/
def checkedSub (a b : ℕ) : Option ℕ := if b ≤ a then some (a - b) else none

namespace History

/-- The loop of `locate`.
SOURCE: crates/mvcc/src/index.rs:139-164 -/
def locateInChecked (at_ : ℕ) : List (Generation × ℕ) → Option (Option (ℕ × ℕ))
  | [] => some none
  | (generation, index) :: earlier =>
    if generation.revs.isEmpty then none
    else
      match generation.revs.head?, generation.revs.getLast? with
      | some first, some last =>
        if generation.closed ∧ last.main ≤ at_ then some none
        else if first.main ≤ at_ then
          let visible := partitionPoint generation.revs at_
          (checkedSub visible 1).map fun revIndex => some (index, revIndex)
        else locateInChecked at_ earlier
      | _, _ => locateInChecked at_ earlier

def locateChecked (h : History) (at_ : ℕ) : Option (Option (ℕ × ℕ)) :=
  locateInChecked at_ h.generations.zipIdx.reverse

/-- SOURCE: crates/mvcc/src/index.rs:166-180 -/
def readChecked (h : History) (at_ : ℕ) : Option (Option Found) :=
  match h.locateChecked at_ with
  | none => none
  | some none => some none
  | some (some (genIndex, revIndex)) =>
    match h.generations[genIndex]? with
    | none => some none
    | some generation =>
      match generation.revs[revIndex]? with
      | none => some none
      | some modified => do
        let lastIndex ← checkedSub generation.revs.length 1
        let trailing ← checkedSub lastIndex revIndex
        let version ← checkedSub generation.ver trailing
        pure (some ⟨modified, generation.created, version⟩)

/-- One turn of the loop of `compact`: the trimmed generation, and what it dropped.
SOURCE: crates/mvcc/src/index.rs:185-204 -/
def trimChecked (current : Option (ℕ × ℕ)) (at_ : ℕ) (p : Generation × ℕ) :
    Option (Generation × List Revision) := do
  let lastIndex ← checkedSub p.1.revs.length 1
  let keep (rev : Revision × ℕ) : Bool :=
    let isCurrent := current == some (p.2, rev.2)
    let isTombstone := p.1.closed && rev.2 == lastIndex
    rev.1.main > at_ || (isCurrent && !isTombstone)
  pure ({ p.1 with revs := (p.1.revs.zipIdx.filter keep).map (·.1) },
    (p.1.revs.zipIdx.filter (!keep ·)).map (·.1))

/-- SOURCE: crates/mvcc/src/index.rs:182-210 -/
def compactChecked (h : History) (at_ : ℕ) : Option (History × List Revision) := do
  let current ← h.locateChecked at_
  let trimmed ← h.generations.zipIdx.mapM (trimChecked current at_)
  pure (⟨(trimmed.map (·.1)).filter (!·.revs.isEmpty)⟩, trimmed.flatMap (·.2))

end History

end Hadar.Mvcc
