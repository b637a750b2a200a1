import Hadar.Lib.Prog

/-!
# Programs that end alike

Two programs over two kinds of state, run each from a state of its own.
`Alike p q s t ok stopped` says that they end alike: both return, and the values and the states
left satisfy `ok`, or both stop for the same reason, and the states left satisfy `stopped`. It is
for pairs of programs what `Ends` is for one, with a rule for each construct, so that two programs
are related by following their texts side by side.
-/

set_option autoImplicit false

namespace Hadar.Lib.Prog

variable {σ τ σ' τ' ε δ α β γ κ : Type}

/-- Run from `s` and from `t` the two programs end alike. -/
def Alike (p : Prog σ ε α) (q : Prog τ ε β) (s : σ) (t : τ) (ok : α → β → σ → τ → Prop)
    (stopped : Stop ε → σ → τ → Prop) : Prop :=
  match p.exec s, q.exec t with
  | (.ok a, s'), (.ok b, t') => ok a b s' t'
  | (.error e, s'), (.error e', t') => e = e' ∧ stopped e s' t'
  | _, _ => False

variable {s s' : σ} {t t' : τ} {ok ok' : α → β → σ → τ → Prop}
  {stopped stopped' : Stop ε → σ → τ → Prop}

/-- The two ways to end alike. -/
theorem alike_iff {p : Prog σ ε α} {q : Prog τ ε β} : Alike p q s t ok stopped ↔
    (∃ a b s' t', p.exec s = (.ok a, s') ∧ q.exec t = (.ok b, t') ∧ ok a b s' t') ∨
      ∃ e s' t', p.exec s = (.error e, s') ∧ q.exec t = (.error e, t') ∧ stopped e s' t' := by
  unfold Alike
  constructor
  · intro h
    split at h
    · rename_i a s' b t' hp hq
      exact .inl ⟨a, b, s', t', hp, hq, h⟩
    · rename_i e s' e' t' hp hq
      obtain ⟨rfl, h⟩ := h
      exact .inr ⟨e, s', t', hp, hq, h⟩
    · exact h.elim
  · rintro (⟨a, b, s', t', hp, hq, h⟩ | ⟨e, s', t', hp, hq, h⟩) <;> rw [hp, hq]
    · exact h
    · exact ⟨rfl, h⟩

theorem Alike.mono {p : Prog σ ε α} {q : Prog τ ε β} (h : Alike p q s t ok stopped)
    (hok : ∀ a b s' t', ok a b s' t' → ok' a b s' t')
    (hstopped : ∀ e s' t', stopped e s' t' → stopped' e s' t') : Alike p q s t ok' stopped' := by
  unfold Alike at *
  split at h
  · exact hok _ _ _ _ h
  · exact ⟨h.1, hstopped _ _ _ h.2⟩
  · exact h

/-! ## The rules -/

theorem alike_pure {a : α} {b : β} (h : ok a b s t) :
    Alike (pure a : Prog σ ε α) (pure b) s t ok stopped :=
  h

theorem alike_fail {e : ε} (h : stopped (.error e) s t) :
    Alike (fail e : Prog σ ε α) (fail e : Prog τ ε β) s t ok stopped :=
  ⟨rfl, h⟩

theorem alike_crashing (h : stopped .crash s t) :
    Alike (crashing : Prog σ ε α) (crashing : Prog τ ε β) s t ok stopped :=
  ⟨rfl, h⟩

/-- The rule of sequencing. -/
theorem Alike.bind {p : Prog σ ε α} {q : Prog τ ε β} {f : α → Prog σ ε γ} {g : β → Prog τ ε κ}
    {ok' : γ → κ → σ → τ → Prop} (h : Alike p q s t ok stopped)
    (hrest : ∀ a b s' t', ok a b s' t' → Alike (f a) (g b) s' t' ok' stopped) :
    Alike (p >>= f) (q >>= g) s t ok' stopped := by
  rcases alike_iff.mp h with ⟨a, b, s', t', hp, hq, h⟩ | ⟨e, s', t', hp, hq, h⟩
  · rw [Alike, exec_bind_ok hp, exec_bind_ok hq]
    exact hrest a b s' t' h
  · rw [Alike, exec_bind_error hp, exec_bind_error hq]
    exact ⟨rfl, h⟩

/-- Both programs begin by looking at their states. -/
theorem alike_get_bind {f : σ → Prog σ ε α} {g : τ → Prog τ ε β}
    (h : Alike (f s) (g t) s t ok stopped) : Alike (get >>= f) (get >>= g) s t ok stopped :=
  h

/-- The first one makes a change that the other one has no counterpart for. -/
theorem alike_modify_bind {f : σ → σ} {p : Unit → Prog σ ε α} {q : Prog τ ε β}
    (h : Alike (p ()) q (f s) t ok stopped) : Alike (modify f >>= p) q s t ok stopped :=
  h

theorem alike_modify_pure {f : σ → σ} {b : β} {ok : Unit → β → σ → τ → Prop} (h : ok () b (f s) t) :
    Alike (modify f : Prog σ ε Unit) (pure b) s t ok stopped :=
  h

/-- Where an error is turned into a value, it is the same on both sides. -/
theorem Alike.attempt {R : σ → τ → Prop} {p : Prog σ ε α} {q : Prog τ ε α}
    (h : Alike p q s t (fun a b s' t' => a = b ∧ R s' t') fun _ s' t' => R s' t') :
    Alike p.attempt q.attempt s t (fun x y s' t' => x = y ∧ R s' t') fun _ s' t' => R s' t' := by
  rcases alike_iff.mp h with ⟨a, b, s', t', hp, hq, rfl, h⟩ | ⟨e, s', t', hp, hq, h⟩ <;>
    rw [Alike, exec_attempt, exec_attempt, hp, hq]
  · exact ⟨rfl, h⟩
  · cases e <;> exact ⟨rfl, h⟩

/-- Programs on parts of the states that end alike do so on the whole. -/
theorem Alike.zoom {p : Prog σ' ε α} {q : Prog τ' ε β} {get₁ : σ → σ'} {put₁ : σ' → σ → σ}
    {get₂ : τ → τ'} {put₂ : τ' → τ → τ} {stopped : Stop δ → σ → τ → Prop} (wrap : ε → δ)
    (h : Alike p q (get₁ s) (get₂ t) (fun a b s' t' => ok a b (put₁ s' s) (put₂ t' t))
      fun e s' t' => stopped (e.map wrap) (put₁ s' s) (put₂ t' t)) :
    Alike (zoom get₁ put₁ wrap p) (zoom get₂ put₂ wrap q) s t ok stopped := by
  rcases alike_iff.mp h with ⟨a, b, s', t', hp, hq, h⟩ | ⟨e, s', t', hp, hq, h⟩ <;>
    rw [Alike, exec_zoom, exec_zoom, hp, hq]
  · exact h
  · exact ⟨rfl, h⟩

/-- A program on a part of the state ends as it does run on that part alone. -/
theorem alike_zoom_self {p : Prog τ ε α} {get : σ → τ} {put : τ → σ → σ}
    {ok : α → α → σ → τ → Prop} (hok : ∀ a t', ok a a (put t' s) t')
    (hstopped : ∀ e t', stopped e (put t' s) t') :
    Alike (zoom get put id p) p s (get s) ok stopped := by
  unfold Alike
  rw [exec_zoom]
  rcases p.exec (get s) with ⟨(e | _ | _) | a, t'⟩
  · exact ⟨rfl, hstopped _ _⟩
  · exact ⟨rfl, hstopped _ _⟩
  · exact ⟨rfl, hstopped _ _⟩
  · exact hok a t'

/-! ## Reading the runs back -/

/-- What is left, however the two end. -/
theorem Alike.left {p : Prog σ ε α} {q : Prog τ ε β} {P : σ → τ → Prop} (h : Alike p q s t ok stopped)
    (hok : ∀ a b s' t', ok a b s' t' → P s' t') (hstopped : ∀ e s' t', stopped e s' t' → P s' t') :
    P (p.exec s).2 (q.exec t).2 := by
  rcases alike_iff.mp h with ⟨a, b, s', t', hp, hq, h⟩ | ⟨e, s', t', hp, hq, h⟩ <;> rw [hp, hq]
  · exact hok a b s' t' h
  · exact hstopped e s' t' h

/-- Where the one returns, so does the other. -/
theorem Alike.returns {p : Prog σ ε α} {q : Prog τ ε β} {a : α} (h : Alike p q s t ok stopped)
    (hp : p.exec s = (.ok a, s')) : ∃ b t', q.exec t = (.ok b, t') ∧ ok a b s' t' := by
  rcases alike_iff.mp h with ⟨a', b, s'', t', hp', hq, h⟩ | ⟨e, s'', t', hp', hq, h⟩ <;>
    rw [hp] at hp' <;> cases hp'
  exact ⟨b, t', hq, h⟩

/-- Where the one stops, so does the other. -/
theorem Alike.stops {p : Prog σ ε α} {q : Prog τ ε β} {e : Stop ε}
    (h : Alike p q s t ok stopped) (hp : p.exec s = (.error e, s')) :
    ∃ t', q.exec t = (.error e, t') ∧ stopped e s' t' := by
  rcases alike_iff.mp h with ⟨a, b, s'', t', hp', hq, h⟩ | ⟨e, s'', t', hp', hq, h⟩ <;>
    rw [hp] at hp' <;> cases hp'
  exact ⟨t', hq, h⟩

/-! ## Programs that keep a relation -/

/-- Run from any two states that are related, the programs end alike: in related states and, where
they return, with related values. -/
def Shadows (R : σ → τ → Prop) (V : α → β → Prop) (p : Prog σ ε α) (q : Prog τ ε β) : Prop :=
  ∀ s t, R s t → Alike p q s t (fun a b s' t' => V a b ∧ R s' t') fun _ s' t' => R s' t'

section Shadows

variable {R : σ → τ → Prop} {V : α → β → Prop} {W : γ → κ → Prop}

theorem shadows_pure {a : α} {b : β} (h : V a b) :
    Shadows R V (pure a : Prog σ ε α) (pure b) := fun _ _ hR => ⟨h, hR⟩

theorem shadows_fail (e : ε) : Shadows R V (fail e : Prog σ ε α) (fail e : Prog τ ε β) :=
  fun _ _ hR => alike_fail hR

theorem shadows_crashing : Shadows R V (crashing : Prog σ ε α) (crashing : Prog τ ε β) :=
  fun _ _ hR => alike_crashing hR

theorem shadows_get : Shadows R R (get : Prog σ ε σ) (get : Prog τ ε τ) := fun _ _ hR => ⟨hR, hR⟩

theorem shadows_modify {f : σ → σ} {g : τ → τ} (h : ∀ s t, R s t → R (f s) (g t)) :
    Shadows R Eq (modify f : Prog σ ε Unit) (modify g : Prog τ ε Unit) :=
  fun s t hR => ⟨rfl, h s t hR⟩

/-- Every program shadows itself. -/
theorem shadows_self (p : Prog σ ε α) : Shadows Eq Eq p p := by
  rintro s _ rfl
  refine alike_iff.mpr ?_
  rcases h : p.exec s with ⟨e | a, s'⟩
  · exact .inr ⟨e, s', s', rfl, rfl, rfl⟩
  · exact .inl ⟨a, a, s', s', rfl, rfl, rfl, rfl⟩

theorem Shadows.bind {p : Prog σ ε α} {q : Prog τ ε β} {f : α → Prog σ ε γ} {g : β → Prog τ ε κ}
    (h : Shadows R V p q) (hrest : ∀ a b, V a b → Shadows R W (f a) (g b)) :
    Shadows R W (p >>= f) (q >>= g) :=
  fun s t hR => (h s t hR).bind fun a b s' t' hab => hrest a b hab.1 s' t' hab.2

theorem Shadows.attempt {p : Prog σ ε α} {q : Prog τ ε α} (h : Shadows R Eq p q) :
    Shadows R Eq p.attempt q.attempt := fun s t hR => (h s t hR).attempt

theorem Shadows.zoom {Q : σ' → τ' → Prop} {p : Prog σ' ε α} {q : Prog τ' ε β} {get₁ : σ → σ'}
    {put₁ : σ' → σ → σ} {get₂ : τ → τ'} {put₂ : τ' → τ → τ} (wrap : ε → δ) (h : Shadows Q V p q)
    (hget : ∀ s t, R s t → Q (get₁ s) (get₂ t))
    (hput : ∀ s t s' t', R s t → Q s' t' → R (put₁ s' s) (put₂ t' t)) :
    Shadows R V (Prog.zoom get₁ put₁ wrap p) (Prog.zoom get₂ put₂ wrap q) :=
  fun s t hR => Alike.zoom wrap ((h _ _ (hget s t hR)).mono
    (fun _ _ _ _ hab => ⟨hab.1, hput s t _ _ hR hab.2⟩) fun _ _ _ hQ => hput s t _ _ hR hQ)

end Shadows

end Hadar.Lib.Prog
