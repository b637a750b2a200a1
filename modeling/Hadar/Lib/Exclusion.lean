import Mathlib.Tactic.Common

/-!
# A flag that guards one owner

A binary semaphore is a flag, and whoever took it owns it until it is released. `Guards`
says that the flag and its owners agree: there is at most one owner, and the flag is up
exactly while there is one. The rules below are what taking, keeping and releasing it do.
-/

set_option autoImplicit false

namespace Hadar.Lib

variable {ι : Type}

/-- The flag is up exactly while there is an owner, and there is at most one. -/
structure Guards (held : Bool) (owns : ι → Prop) : Prop where
  exclusive : ∀ i j, owns i → owns j → i = j
  held_iff : held = true ↔ ∃ i, owns i

namespace Guards

variable {held : Bool} {owns owns' : ι → Prop} {i : ι}

theorem nobody : Guards false fun _ : ι => False :=
  ⟨fun _ _ h => h.elim, by simp⟩

theorem congr (h : Guards held owns) (hsame : ∀ j, owns' j ↔ owns j) : Guards held owns' := by
  obtain rfl : owns' = owns := funext fun j => propext (hsame j)
  exact h

/-- A flag that is down is taken by a new owner. -/
theorem take (h : Guards false owns) (hnew : ∀ j, owns' j ↔ owns j ∨ j = i) :
    Guards true owns' := by
  have hnone : ∀ j, ¬ owns j := fun j hj => Bool.false_ne_true (h.held_iff.mpr ⟨j, hj⟩)
  have honly : ∀ j, owns' j ↔ j = i := by
    intro j
    rw [hnew j]
    simp [hnone j]
  refine ⟨fun j k hj hk => ?_, ?_⟩
  · rw [(honly j).mp hj, (honly k).mp hk]
  · simp [honly]

/-- The owner releases it, and nobody owns it. -/
theorem release (h : Guards held owns) (hown : owns i) (hgone : ∀ j, owns' j ↔ owns j ∧ j ≠ i) :
    Guards false owns' := by
  have hnone : ∀ j, ¬ owns' j := by
    intro j hj
    obtain ⟨howns, hne⟩ := (hgone j).mp hj
    exact hne (h.exclusive j i howns hown)
  refine ⟨fun j _ hj => absurd hj (hnone j), ?_⟩
  simp [hnone]

end Guards

end Hadar.Lib
