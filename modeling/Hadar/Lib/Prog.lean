import Mathlib.Tactic.Common

/-!
# Programs that may fail, panic or be cut short

A program over a state `σ` either returns a value, returns an error, panics, or is
stopped by a crash of the process, and in every case leaves a state behind. The last
two differ from an error in that no caller can handle them.

`Ends p s ok err dead` is the weakest precondition of `p` in this setting: run from `s`,
a returned value satisfies `ok`, a returned error satisfies `err`, and the state a crash
or a panic leaves satisfies `dead`. The rules below are one per construct, so that a
program is verified by following its text.
-/

set_option autoImplicit false

namespace Hadar.Lib

/-- Why a program returned no value. -/
inductive Stop (ε : Type) where
  | error (e : ε)
  | panic
  | crash
  deriving DecidableEq, Repr

/-- The same stop, with its error seen through `f`. -/
def Stop.map {ε δ : Type} (f : ε → δ) : Stop ε → Stop δ
  | .error e => .error (f e)
  | .panic => .panic
  | .crash => .crash

/-- Programs over the state `σ` with errors in `ε`. The state survives a failure. -/
abbrev Prog (σ ε : Type) := ExceptT (Stop ε) (StateM σ)

namespace Prog

variable {σ τ ε δ α β : Type}

/-- Runs a program. -/
def exec (p : Prog σ ε α) (s : σ) : Except (Stop ε) α × σ := p.run.run s

/-- Stops with an error. -/
def fail (e : ε) : Prog σ ε α := throw (Stop.error e)

/-- Stops with a panic. -/
def panicking : Prog σ ε α := throw Stop.panic

/-- Stops with a crash. -/
def crashing : Prog σ ε α := throw Stop.crash

/-- Turns a returned error into a value; a panic or a crash still stops the program. -/
def attempt (p : Prog σ ε α) : Prog σ ε (Except ε α) := ExceptT.mk fun s =>
  match p.exec s with
  | (.ok a, s') => (.ok (.ok a), s')
  | (.error (.error e), s') => (.ok (.error e), s')
  | (.error .panic, s') => (.error .panic, s')
  | (.error .crash, s') => (.error .crash, s')

/-- Runs a program on a part of the state, seeing its errors through `wrap`. -/
def zoom (get : σ → τ) (put : τ → σ → σ) (wrap : ε → δ) (p : Prog τ ε α) : Prog σ δ α :=
  ExceptT.mk fun s =>
    match p.exec (get s) with
    | (.ok a, t) => (.ok a, put t s)
    | (.error e, t) => (.error (e.map wrap), put t s)

/-! ## Running -/

@[simp] theorem exec_pure (a : α) (s : σ) : (pure a : Prog σ ε α).exec s = (.ok a, s) := rfl

@[simp] theorem exec_get (s : σ) : (get : Prog σ ε σ).exec s = (.ok s, s) := rfl

/-- Sequencing runs the second program from where the first one left the state. -/
theorem exec_bind (p : Prog σ ε α) (f : α → Prog σ ε β) (s : σ) :
    (p >>= f).exec s = match p.exec s with
      | (.ok a, s') => (f a).exec s'
      | (.error e, s') => (.error e, s') := by
  have hbind : (p >>= f).exec s = (ExceptT.bindCont f (p.exec s).1).run (p.exec s).2 := rfl
  rw [hbind]
  rcases p.exec s with ⟨_ | a, s'⟩ <;> rfl

theorem exec_bind_ok {p : Prog σ ε α} {f : α → Prog σ ε β} {s s' : σ} {a : α}
    (h : p.exec s = (.ok a, s')) : (p >>= f).exec s = (f a).exec s' := by
  rw [exec_bind, h]

theorem exec_bind_error {p : Prog σ ε α} {f : α → Prog σ ε β} {s s' : σ} {e : Stop ε}
    (h : p.exec s = (.error e, s')) : (p >>= f).exec s = (.error e, s') := by
  rw [exec_bind, h]

/-- What follows a program matters only from where that program leaves the state. -/
theorem exec_bind_congr {p q : Prog σ ε α} {f g : α → Prog σ ε β} {s : σ}
    (hpq : p.exec s = q.exec s)
    (h : ∀ a s', q.exec s = (.ok a, s') → (f a).exec s' = (g a).exec s') :
    (p >>= f).exec s = (q >>= g).exec s := by
  rw [exec_bind, exec_bind, hpq]
  cases hq : q.exec s with
  | mk outcome s' =>
    cases outcome with
    | ok a => exact h a s' hq
    | error e => rfl

theorem exec_attempt (p : Prog σ ε α) (s : σ) :
    p.attempt.exec s = match p.exec s with
      | (.ok a, s') => (.ok (.ok a), s')
      | (.error (.error e), s') => (.ok (.error e), s')
      | (.error .panic, s') => (.error .panic, s')
      | (.error .crash, s') => (.error .crash, s') := rfl

theorem exec_zoom (get : σ → τ) (put : τ → σ → σ) (wrap : ε → δ) (p : Prog τ ε α) (s : σ) :
    (zoom get put wrap p).exec s = match p.exec (get s) with
      | (.ok a, t) => (.ok a, put t s)
      | (.error e, t) => (.error (e.map wrap), put t s) := rfl

theorem exec_zoom_congr {get : σ → τ} {put : τ → σ → σ} {wrap : ε → δ} {p q : Prog τ ε α} {s : σ}
    (h : p.exec (get s) = q.exec (get s)) :
    (zoom get put wrap p).exec s = (zoom get put wrap q).exec s := by
  rw [exec_zoom, exec_zoom, h]

/-! ## What a run may end in -/

/-- Run from `s`, a value returned satisfies `ok`, an error returned satisfies `err`, and
the state left by a crash or a panic satisfies `dead`. -/
def Ends (p : Prog σ ε α) (s : σ) (ok : α → σ → Prop) (err : ε → σ → Prop)
    (dead : σ → Prop) : Prop :=
  match p.exec s with
  | (.ok a, s') => ok a s'
  | (.error (.error e), s') => err e s'
  | (.error .panic, s') => dead s'
  | (.error .crash, s') => dead s'

variable {ok ok' : α → σ → Prop} {err err' : ε → σ → Prop} {dead dead' : σ → Prop} {s s' : σ}

theorem Ends.mono {p : Prog σ ε α} (h : Ends p s ok err dead)
    (hok : ∀ a t, ok a t → ok' a t) (herr : ∀ e t, err e t → err' e t)
    (hdead : ∀ t, dead t → dead' t) : Ends p s ok' err' dead' := by
  unfold Ends at *
  split at h
  · exact hok _ _ h
  · exact herr _ _ h
  · exact hdead _ h
  · exact hdead _ h

/-- Two things said of one run hold of it together. -/
theorem Ends.and {p : Prog σ ε α} (h : Ends p s ok err dead) (h' : Ends p s ok' err' dead') :
    Ends p s (fun a t => ok a t ∧ ok' a t) (fun e t => err e t ∧ err' e t)
      fun t => dead t ∧ dead' t := by
  unfold Ends at *
  split <;> simp_all only [and_self]

theorem ends_pure {a : α} : Ends (pure a : Prog σ ε α) s ok err dead ↔ ok a s := Iff.rfl

theorem ends_fail {e : ε} : Ends (fail e : Prog σ ε α) s ok err dead ↔ err e s := Iff.rfl

theorem ends_panicking : Ends (panicking : Prog σ ε α) s ok err dead ↔ dead s := Iff.rfl

theorem ends_crashing : Ends (crashing : Prog σ ε α) s ok err dead ↔ dead s := Iff.rfl

theorem ends_get {ok : σ → σ → Prop} : Ends (get : Prog σ ε σ) s ok err dead ↔ ok s s := Iff.rfl

theorem ends_modify {f : σ → σ} {ok : Unit → σ → Prop} :
    Ends (modify f : Prog σ ε Unit) s ok err dead ↔ ok () (f s) := Iff.rfl

theorem ends_set {ok : Unit → σ → Prop} :
    Ends (set s' : Prog σ ε Unit) s ok err dead ↔ ok () s' := Iff.rfl

/-- The rule of sequencing: what the first program returns must let the second one end well. -/
theorem ends_bind {p : Prog σ ε α} {f : α → Prog σ ε β} {ok : β → σ → Prop} :
    Ends (p >>= f) s ok err dead ↔
      Ends p s (fun a t => Ends (f a) t ok err dead) err dead := by
  unfold Ends
  rw [exec_bind]
  rcases p.exec s with ⟨(_ | _ | _) | a, t⟩ <;> rfl

theorem ends_attempt {p : Prog σ ε α} {ok : Except ε α → σ → Prop} :
    Ends p.attempt s ok err dead ↔
      Ends p s (fun a t => ok (.ok a) t) (fun e t => ok (.error e) t) dead := by
  unfold Ends
  rw [exec_attempt]
  rcases p.exec s with ⟨(_ | _ | _) | a, t⟩ <;> rfl

theorem ends_zoom {get : σ → τ} {put : τ → σ → σ} {wrap : ε → δ} {p : Prog τ ε α}
    {err : δ → σ → Prop} :
    Ends (zoom get put wrap p) s ok err dead ↔
      Ends p (get s) (fun a t => ok a (put t s)) (fun e t => err (wrap e) (put t s))
        (fun t => dead (put t s)) := by
  unfold Ends
  rw [exec_zoom]
  rcases p.exec (get s) with ⟨(_ | _ | _) | a, t⟩ <;> rfl

/-! ## Reading a run back -/

/-- A run ends in what it ends in. -/
theorem ends_exec (p : Prog σ ε α) (s : σ) :
    Ends p s (fun a s' => p.exec s = (.ok a, s')) (fun e s' => p.exec s = (.error (.error e), s'))
      fun s' => ∃ e, p.exec s = (.error e, s') := by
  unfold Ends
  rcases h : p.exec s with ⟨(e | _ | _) | a, t⟩
  · rfl
  · exact ⟨.panic, rfl⟩
  · exact ⟨.crash, rfl⟩
  · rfl

/-- A run leaves what it leaves, whatever it ends in. -/
theorem ends_left (p : Prog σ ε α) (s : σ) : Ends p s (fun _ s' => s' = (p.exec s).2)
    (fun _ s' => s' = (p.exec s).2) fun s' => s' = (p.exec s).2 := by
  unfold Ends
  rcases p.exec s with ⟨(_ | _ | _) | a, t⟩ <;> rfl

theorem Ends.of_ok {p : Prog σ ε α} {a : α} (h : Ends p s ok err dead)
    (hr : p.exec s = (.ok a, s')) : ok a s' := by
  simpa [Ends, hr] using h

theorem Ends.of_error {p : Prog σ ε α} {e : ε} (h : Ends p s ok err dead)
    (hr : p.exec s = (.error (.error e), s')) : err e s' := by
  simpa [Ends, hr] using h

theorem Ends.of_dead {p : Prog σ ε α} {e : Stop ε} (h : Ends p s ok err dead)
    (hr : p.exec s = (.error e, s')) (he : e = .panic ∨ e = .crash) : dead s' := by
  rcases he with rfl | rfl <;> simpa [Ends, hr] using h

/-- What holds of the state whatever the end is holds of the state left. -/
theorem Ends.left {p : Prog σ ε α} {P : σ → Prop}
    (h : Ends p s (fun _ t => P t) (fun _ t => P t) P) : P (p.exec s).2 := by
  unfold Ends at h
  split at h <;> simp_all only

/-- A program that ends in nothing but `ok` returns a value. -/
theorem Ends.returns {p : Prog σ ε α}
    (h : Ends p s ok (fun _ _ => False) (fun _ => False)) :
    ∃ a t, p.exec s = (.ok a, t) ∧ ok a t := by
  unfold Ends at h
  split at h
  · exact ⟨_, _, by assumption, h⟩
  all_goals exact h.elim

/-! ## Programs that do not panic -/

/-- No run ends in a panic, but where it is doomed to. -/
def PanicsOnly (doomed : Prop) (p : Prog σ ε α) : Prop := ∀ s s', p.exec s = (.error .panic, s') → doomed

/-- No run ends in a panic. -/
abbrev NoPanic (p : Prog σ ε α) : Prop := PanicsOnly False p

section Panics

variable {doomed doomed' : Prop}

theorem panicsOnly_pure (a : α) : PanicsOnly doomed (pure a : Prog σ ε α) := nofun

theorem panicsOnly_fail (e : ε) : PanicsOnly doomed (fail e : Prog σ ε α) := nofun

theorem panicsOnly_crashing : PanicsOnly doomed (crashing : Prog σ ε α) := nofun

theorem panicsOnly_panicking (h : doomed) : PanicsOnly doomed (panicking : Prog σ ε α) :=
  fun _ _ _ => h

theorem panicsOnly_get : PanicsOnly doomed (get : Prog σ ε σ) := nofun

theorem panicsOnly_set (s : σ) : PanicsOnly doomed (set s : Prog σ ε Unit) := nofun

theorem panicsOnly_modify (f : σ → σ) : PanicsOnly doomed (modify f : Prog σ ε Unit) := nofun

theorem PanicsOnly.mono {p : Prog σ ε α} (h : PanicsOnly doomed p) (hd : doomed → doomed') :
    PanicsOnly doomed' p := fun s s' hexec => hd (h s s' hexec)

/-- The second program need not panic where the first one can lead it to. -/
theorem PanicsOnly.bind_of {p : Prog σ ε α} {f : α → Prog σ ε β} (hp : PanicsOnly doomed p)
    (hf : ∀ s a s', p.exec s = (.ok a, s') → PanicsOnly doomed (f a)) :
    PanicsOnly doomed (p >>= f) := by
  intro s s' hexec
  rw [exec_bind] at hexec
  rcases h : p.exec s with ⟨(e | _ | _) | a, t⟩
  · simp [h] at hexec
  · exact hp s t h
  · simp [h] at hexec
  · rw [h] at hexec
    exact hf s a t h t s' hexec

theorem PanicsOnly.bind {p : Prog σ ε α} {f : α → Prog σ ε β} (hp : PanicsOnly doomed p)
    (hf : ∀ a, PanicsOnly doomed (f a)) : PanicsOnly doomed (p >>= f) :=
  hp.bind_of fun _ a _ _ => hf a

theorem PanicsOnly.attempt {p : Prog σ ε α} (hp : PanicsOnly doomed p) :
    PanicsOnly doomed p.attempt := by
  intro s s' hexec
  rw [exec_attempt] at hexec
  rcases h : p.exec s with ⟨(e | _ | _) | a, t⟩
  · simp [h] at hexec
  · exact hp s t h
  · simp [h] at hexec
  · simp [h] at hexec

theorem PanicsOnly.zoom {p : Prog τ ε α} (hp : PanicsOnly doomed p) (get : σ → τ) (put : τ → σ → σ)
    (wrap : ε → δ) : PanicsOnly doomed (zoom get put wrap p) := by
  intro s s' hexec
  rw [exec_zoom] at hexec
  rcases h : p.exec (get s) with ⟨(e | _ | _) | a, t⟩
  · simp [h, Stop.map] at hexec
  · exact hp _ t h
  · simp [h, Stop.map] at hexec
  · simp [h] at hexec

end Panics

/-! ## What every error is -/

/-- Every error a run returns is of a kind. -/
def FailsOnly (kind : ε → Prop) (p : Prog σ ε α) : Prop :=
  ∀ s e s', p.exec s = (.error (.error e), s') → kind e

section FailsOnly

variable {kind : ε → Prop}

theorem failsOnly_any (p : Prog σ ε α) : FailsOnly (fun _ => True) p := fun _ _ _ _ => trivial

theorem failsOnly_pure (a : α) : FailsOnly kind (pure a : Prog σ ε α) := nofun

theorem failsOnly_fail {e : ε} (h : kind e) : FailsOnly kind (fail e : Prog σ ε α) := by
  intro s e' s' hexec
  cases hexec
  exact h

theorem failsOnly_crashing : FailsOnly kind (crashing : Prog σ ε α) := nofun

theorem failsOnly_get : FailsOnly kind (get : Prog σ ε σ) := nofun

theorem failsOnly_modify (f : σ → σ) : FailsOnly kind (modify f : Prog σ ε Unit) := nofun

theorem FailsOnly.bind {p : Prog σ ε α} {f : α → Prog σ ε β} (hp : FailsOnly kind p)
    (hf : ∀ a, FailsOnly kind (f a)) : FailsOnly kind (p >>= f) := by
  intro s e s' hexec
  rw [exec_bind] at hexec
  rcases h : p.exec s with ⟨(e' | _ | _) | a, t⟩
  · simp only [h, Prod.mk.injEq, Except.error.injEq, Stop.error.injEq] at hexec
    obtain ⟨rfl, -⟩ := hexec
    exact hp s e' t h
  · simp [h] at hexec
  · simp [h] at hexec
  · rw [h] at hexec
    exact hf a t e s' hexec

/-- An error that was turned into a value keeps its kind. -/
theorem FailsOnly.attempt_bind {p : Prog σ ε α} {f : Except ε α → Prog σ ε β}
    (hp : FailsOnly kind p) (hok : ∀ a, FailsOnly kind (f (.ok a)))
    (herr : ∀ e, kind e → FailsOnly kind (f (.error e))) : FailsOnly kind (p.attempt >>= f) := by
  intro s e s' hexec
  rw [exec_bind, exec_attempt] at hexec
  rcases h : p.exec s with ⟨(e' | _ | _) | a, t⟩ <;> simp only [h] at hexec
  · exact herr e' (hp s e' t h) t e s' hexec
  · cases hexec
  · cases hexec
  · exact hok a t e s' hexec

theorem FailsOnly.zoom {kind' : δ → Prop} {p : Prog τ ε α} (hp : FailsOnly kind p) (get : σ → τ)
    (put : τ → σ → σ) {wrap : ε → δ} (hwrap : ∀ e, kind e → kind' (wrap e)) :
    FailsOnly kind' (zoom get put wrap p) := by
  intro s e s' hexec
  rw [exec_zoom] at hexec
  rcases h : p.exec (get s) with ⟨(e' | _ | _) | a, t⟩
  · simp only [h, Stop.map, Prod.mk.injEq, Except.error.injEq, Stop.error.injEq] at hexec
    obtain ⟨rfl, -⟩ := hexec
    exact hwrap e' (hp _ e' t h)
  · simp [h, Stop.map] at hexec
  · simp [h, Stop.map] at hexec
  · simp [h] at hexec

/-- What is said of a run also says of what kind its errors are. -/
theorem Ends.kinded {p : Prog σ ε α} (h : Ends p s ok err dead) (hp : FailsOnly kind p) :
    Ends p s ok (fun e t => err e t ∧ kind e) dead := by
  unfold Ends at *
  split at h
  · exact h
  · exact ⟨h, hp s _ _ (by assumption)⟩
  · exact h
  · exact h

end FailsOnly

/-! ## Where every run leads -/

/-- Every run leads from a state to one it is related to, whatever it ends in. -/
def Moves (R : σ → σ → Prop) (p : Prog σ ε α) : Prop := ∀ s, R s (p.exec s).2

section Moves

variable {R : σ → σ → Prop}

theorem moves_pure (hrefl : ∀ s, R s s) (a : α) : Moves R (pure a : Prog σ ε α) := hrefl

theorem moves_get (hrefl : ∀ s, R s s) : Moves R (get : Prog σ ε σ) := hrefl

theorem moves_modify {f : σ → σ} (h : ∀ s, R s (f s)) : Moves R (modify f : Prog σ ε Unit) := h

theorem Moves.bind (htrans : ∀ {a b c}, R a b → R b c → R a c) {p : Prog σ ε α}
    {f : α → Prog σ ε β} (hp : Moves R p) (hf : ∀ a, Moves R (f a)) : Moves R (p >>= f) := by
  intro s
  have hfirst := hp s
  rw [exec_bind]
  rcases h : p.exec s with ⟨e | a, t⟩ <;> rw [h] at hfirst
  · exact hfirst
  · exact htrans hfirst (hf a t)

theorem Moves.attempt {p : Prog σ ε α} (hp : Moves R p) : Moves R p.attempt := by
  intro s
  have hfirst := hp s
  rw [exec_attempt]
  rcases h : p.exec s with ⟨(_ | _ | _) | a, t⟩ <;> rw [h] at hfirst <;> exact hfirst

theorem Moves.zoom {Q : τ → τ → Prop} {p : Prog τ ε α} (hp : Moves Q p) {get : σ → τ}
    {put : τ → σ → σ} (wrap : ε → δ) (h : ∀ s t, Q (get s) t → R s (put t s)) :
    Moves R (zoom get put wrap p) := by
  intro s
  have hfirst := hp (get s)
  rw [exec_zoom]
  rcases hexec : p.exec (get s) with ⟨e | a, t⟩ <;> rw [hexec] at hfirst <;> exact h s t hfirst

end Moves

/-! ## Programs that draw on a counter -/

/-- Every run adds at most `n` to a counter, and ends in a panic only where that takes the counter
past its limit. -/
structure Draws (counter : σ → ℕ) (limit n : ℕ) (p : Prog σ ε α) : Prop where
  adds : ∀ s, counter (p.exec s).2 ≤ counter s + n
  panics : ∀ s s', p.exec s = (.error .panic, s') → limit < counter s + n

section Draws

variable {counter : σ → ℕ} {limit n m : ℕ}

theorem draws_of_noPanic {p : Prog σ ε α} (hp : NoPanic p)
    (hmoves : Moves (fun s s' => counter s' = counter s) p) : Draws counter limit 0 p :=
  ⟨fun s => Nat.le_of_eq (hmoves s), fun s s' hexec => (hp s s' hexec).elim⟩

theorem draws_pure (a : α) : Draws counter limit 0 (pure a : Prog σ ε α) :=
  draws_of_noPanic (panicsOnly_pure a) fun _ => rfl

theorem draws_fail (e : ε) : Draws counter limit 0 (fail e : Prog σ ε α) :=
  draws_of_noPanic (panicsOnly_fail e) fun _ => rfl

theorem draws_get : Draws counter limit 0 (get : Prog σ ε σ) :=
  draws_of_noPanic panicsOnly_get fun _ => rfl

theorem draws_modify {f : σ → σ} (h : ∀ s, counter (f s) = counter s) :
    Draws counter limit 0 (modify f : Prog σ ε Unit) :=
  draws_of_noPanic (panicsOnly_modify f) h

theorem Draws.mono {p : Prog σ ε α} (hp : Draws counter limit n p) (h : n ≤ m) :
    Draws counter limit m p :=
  ⟨fun s => Nat.le_trans (hp.adds s) (by omega), fun s s' hexec => by
    have := hp.panics s s' hexec
    omega⟩

/-- The second program finds the counter where the first one left it. -/
theorem Draws.bind {p : Prog σ ε α} {f : α → Prog σ ε β} (hp : Draws counter limit n p)
    (hf : ∀ a, Draws counter limit m (f a)) : Draws counter limit (n + m) (p >>= f) := by
  have hfirst : ∀ s a t, p.exec s = (.ok a, t) → counter t ≤ counter s + n := by
    intro s a t hexec
    have hadds := hp.adds s
    rwa [hexec] at hadds
  constructor
  · intro s
    have hadds := hp.adds s
    rw [exec_bind]
    rcases h : p.exec s with ⟨e | a, t⟩ <;> rw [h] at hadds
    · exact Nat.le_trans hadds (by omega)
    · exact Nat.le_trans ((hf a).adds t) (by have := hfirst s a t h; omega)
  · intro s s' hexec
    rw [exec_bind] at hexec
    rcases h : p.exec s with ⟨(e | _ | _) | a, t⟩ <;> rw [h] at hexec
    · cases hexec
    · have := hp.panics s t h
      omega
    · cases hexec
    · have hlimit := (hf a).panics t s' hexec
      have := hfirst s a t h
      omega

/-- A first program that takes nothing. -/
theorem Draws.before {p : Prog σ ε α} {f : α → Prog σ ε β} (hp : Draws counter limit 0 p)
    (hf : ∀ a, Draws counter limit n (f a)) : Draws counter limit n (p >>= f) :=
  (hp.bind hf).mono (Nat.le_of_eq (Nat.zero_add n))

theorem Draws.attempt {p : Prog σ ε α} (hp : Draws counter limit n p) :
    Draws counter limit n p.attempt := by
  constructor
  · intro s
    have hadds := hp.adds s
    rw [exec_attempt]
    rcases h : p.exec s with ⟨(_ | _ | _) | a, t⟩ <;> rw [h] at hadds <;> exact hadds
  · intro s s' hexec
    rw [exec_attempt] at hexec
    rcases h : p.exec s with ⟨(_ | _ | _) | a, t⟩ <;> rw [h] at hexec
    · cases hexec
    · exact hp.panics s t h
    · cases hexec
    · cases hexec

/-- A program on the part of the state that has the counter. -/
theorem Draws.zoom {p : Prog τ ε α} {counter : τ → ℕ} {whole : σ → ℕ} (hp : Draws counter limit n p)
    {get : σ → τ} {put : τ → σ → σ} (wrap : ε → δ) (hget : ∀ s, whole s = counter (get s))
    (hput : ∀ s t, whole (put t s) = counter t) : Draws whole limit n (zoom get put wrap p) := by
  constructor
  · intro s
    have hadds := hp.adds (get s)
    rw [exec_zoom, hget s]
    rcases h : p.exec (get s) with ⟨e | a, t⟩ <;> rw [h] at hadds <;> dsimp only at hadds ⊢ <;>
      rwa [hput]
  · intro s s' hexec
    rw [exec_zoom] at hexec
    rw [hget]
    rcases h : p.exec (get s) with ⟨(_ | _ | _) | a, t⟩ <;> rw [h] at hexec
    · cases hexec
    · exact hp.panics _ t h
    · cases hexec
    · cases hexec

/-- A program on a part of the state that does not have it. -/
theorem draws_zoom_of_noPanic {p : Prog τ ε α} {whole : σ → ℕ} (hp : NoPanic p) {get : σ → τ}
    {put : τ → σ → σ} (wrap : ε → δ) (hput : ∀ s t, whole (put t s) = whole s) :
    Draws whole limit 0 (zoom get put wrap p) :=
  draws_of_noPanic (hp.zoom get put wrap)
    (Moves.zoom (Q := fun _ _ => True) (fun _ => trivial) wrap fun s t _ => hput s t)

end Draws

/-! ## Runs on fixed inputs -/

/-- Whether a run returns a value. -/
def returnsFrom (p : Prog σ ε α) (s : σ) : Bool :=
  match p.exec s with
  | (.ok _, _) => true
  | (.error _, _) => false

/-- Whether a run is cut short by a crash. -/
def crashesFrom (p : Prog σ ε α) (s : σ) : Bool :=
  match p.exec s with
  | (.error .crash, _) => true
  | _ => false

theorem Ends.returnsFrom {p : Prog σ ε α}
    (h : Ends p s ok (fun _ _ => False) (fun _ => False)) : p.returnsFrom s = true := by
  obtain ⟨a, t, hexec, -⟩ := h.returns
  rw [Prog.returnsFrom, hexec]

theorem exec_of_returnsFrom {p : Prog σ ε α} (h : p.returnsFrom s = true) :
    ∃ a, p.exec s = (.ok a, (p.exec s).2) := by
  unfold returnsFrom at h
  split at h
  · rename_i a t hexec
    exact ⟨a, by rw [hexec]⟩
  · cases h

theorem exec_of_not_returnsFrom {p : Prog σ ε α} (h : p.returnsFrom s = false) :
    ∃ e, p.exec s = (.error e, (p.exec s).2) := by
  unfold returnsFrom at h
  split at h
  · cases h
  · rename_i e t hexec
    exact ⟨e, by rw [hexec]⟩

/-- What a program returns, or a default where it does not return. -/
def returned (p : Prog σ ε α) (s : σ) (default : α) : α :=
  match p.exec s with
  | (.ok a, _) => a
  | (.error _, _) => default

theorem exec_returned {p : Prog σ ε α} (h : p.returnsFrom s = true) (default : α) :
    p.exec s = (.ok (p.returned s default), (p.exec s).2) := by
  obtain ⟨a, hexec⟩ := exec_of_returnsFrom h
  have hreturned : p.returned s default = a := by rw [returned, hexec]
  rw [hreturned]
  exact hexec

theorem exec_of_crashesFrom {p : Prog σ ε α} (h : p.crashesFrom s = true) :
    p.exec s = (.error .crash, (p.exec s).2) := by
  unfold crashesFrom at h
  split at h
  · rename_i t hexec
    rw [hexec]
  · cases h

end Prog

end Hadar.Lib
