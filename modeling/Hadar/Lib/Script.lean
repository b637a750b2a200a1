import Hadar.Lib.Prog

/-!
# Programs in sections

A script is a program cut into sections, between two of which others may run. Within some of them a
resource is taken or given back, of which there is only one. Run in one go, a script is a program;
`Nests` says of it that it does not take the resource while it has it, and `Spares` that it changes
nothing that others see.
-/

set_option autoImplicit false

namespace Hadar.Lib

/-- What a section does with the resource. -/
inductive Grip where
  | keeps
  | takes
  | gives
  deriving DecidableEq, Repr

/-- Whether the resource is held after a section that succeeded. -/
def Grip.after (held : Bool) : Grip → Bool
  | keeps => held
  | takes => true
  | gives => false

/-- A program in sections. -/
inductive Script (σ ε α : Type) : Type 1 where
  | done (a : α)
  | fail (e : ε)
  | panic
  | act {β : Type} (grip : Grip) (p : Prog σ ε β) (next : β → Script σ ε α)

namespace Script

variable {σ τ ε α β : Type}

def bind : Script σ ε α → (α → Script σ ε β) → Script σ ε β
  | done a, f => f a
  | fail e, _ => fail e
  | panic, _ => panic
  | act grip p next, f => act grip p fun b => (next b).bind f

instance : Monad (Script σ ε) where
  pure := done
  bind := bind

/-- One section. -/
def section_ (p : Prog σ ε α) : Script σ ε α := act .keeps p done

/-- One section, in which the resource is taken. -/
def taking (p : Prog σ ε α) : Script σ ε α := act .takes p done

/-- One section, in which it is given back. -/
def giving (p : Prog σ ε α) : Script σ ε α := act .gives p done

/-- The sections run in one go. -/
def whole : Script σ ε α → Prog σ ε α
  | done a => Pure.pure a
  | fail e => Prog.fail e
  | panic => Prog.panicking
  | act _ p next => p >>= fun b => (next b).whole

/-- What the script ends in, where it has. -/
def result? : Script σ ε α → Option (Except (Stop ε) α)
  | done a => some (.ok a)
  | fail e => some (.error (.error e))
  | panic => some (.error .panic)
  | act _ _ _ => none

/-- The resource is not taken while it is held; `held` tells whether it is at first. -/
def Nests : Bool → (α → Bool → Prop) → Script σ ε α → Prop
  | held, post, done a => post a held
  | _, _, fail _ => True
  | _, _, panic => True
  | held, post, act grip _ next =>
    (grip = .takes → held = false) ∧ ∀ b, (next b).Nests (grip.after held) post

/-- No section changes what `seen` shows of the state. -/
def Spares (seen : σ → τ) : Script σ ε α → Prop
  | done _ => True
  | fail _ => True
  | panic => True
  | act _ p next => (∀ s, seen (p.exec s).2 = seen s) ∧ ∀ b, (next b).Spares seen

theorem exec_of_result {x : Script σ ε α} {result : Except (Stop ε) α}
    (h : x.result? = some result) (s : σ) :
    x.whole.exec s = (result, s) ∧ result ≠ .error .crash := by
  cases x with
  | act => cases h
  | done | fail | panic =>
    cases h
    exact ⟨rfl, nofun⟩

/-! ### Composing scripts -/

section Rules

variable {seen : σ → τ} {held : Bool} {post : α → Bool → Prop} {x : Script σ ε α}
  {f : α → Script σ ε β}

@[simp] theorem whole_pure (a : α) : (pure a : Script σ ε α).whole = pure a := rfl

@[simp] theorem whole_section (p : Prog σ ε α) : (section_ p).whole = p := by
  exact bind_pure p

@[simp] theorem whole_taking (p : Prog σ ε α) : (taking p).whole = p := by
  exact bind_pure p

@[simp] theorem whole_giving (p : Prog σ ε α) : (giving p).whole = p := by
  exact bind_pure p

@[simp] theorem whole_bind (x : Script σ ε α) (f : α → Script σ ε β) :
    (x >>= f).whole = x.whole >>= fun a => (f a).whole := by
  induction x with
  | done a =>
    show (f a).whole = (pure a : Prog σ ε α) >>= fun a => (f a).whole
    rw [pure_bind]
  | fail e => rfl
  | panic => rfl
  | act grip p next ih =>
    show (p >>= fun b => (next b >>= f).whole) = (p >>= fun b => (next b).whole) >>= _
    simp only [ih, bind_assoc]

theorem nests_section {p : Prog σ ε α} : (section_ p).Nests held post ↔ ∀ a, post a held :=
  and_iff_right nofun

theorem nests_taking {p : Prog σ ε α} :
    (taking p).Nests held post ↔ held = false ∧ ∀ a, post a true :=
  and_congr_left' (imp_iff_right rfl)

theorem nests_giving {p : Prog σ ε α} : (giving p).Nests held post ↔ ∀ a, post a false :=
  and_iff_right nofun

theorem nests_bind {post : β → Bool → Prop} :
    (x >>= f).Nests held post ↔ x.Nests held fun a held => (f a).Nests held post := by
  induction x generalizing held with
  | done a => exact Iff.rfl
  | fail e => exact Iff.rfl
  | panic => exact Iff.rfl
  | act grip p next ih => exact and_congr_right' (forall_congr' fun b => ih b)

theorem Spares.bind (h : x.Spares seen) (hf : ∀ a, (f a).Spares seen) : (x >>= f).Spares seen := by
  induction x with
  | done a => exact hf a
  | fail e => trivial
  | panic => trivial
  | act grip p next ih => exact ⟨h.1, fun b => ih b (h.2 b)⟩

/-- Run in one go, such a script changes nothing of what is seen either. -/
theorem Spares.whole (h : x.Spares seen) (s : σ) : seen (x.whole.exec s).2 = seen s := by
  induction x generalizing s with
  | done a => rfl
  | fail e => rfl
  | panic => rfl
  | act grip p next ih =>
    have hfirst := h.1 s
    rw [Script.whole, Prog.exec_bind]
    split
    · rename_i b s' hran
      rw [hran] at hfirst
      exact (ih b (h.2 b) s').trans hfirst
    · rename_i e s' hran
      rw [hran] at hfirst
      exact hfirst

end Rules

end Script

end Hadar.Lib
