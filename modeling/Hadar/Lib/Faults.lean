import Hadar.Lib.Prog

/-!
# Programs over a faulty state

A state that holds how the coming calls turn out moves along an order, `Later`, as calls are
made that change nothing else; some coming call may be refused, and some may be where the
process stops. A program only reads such a state when every run of it leaves the state no
more than later. `Reads` says so, together with what the program returns, and of its other
ends that each has a reason: an error needs a call that may be refused or a cause of its
own, and a stop needs a call the process may stop at or a panic of its own.
-/

set_option autoImplicit false

namespace Hadar.Lib

open Prog

/-- A state whose coming calls may be refused or may stop the process. -/
class Faults (σ : Type) where
  /-- The state some calls later, with nothing changed by them. -/
  Later : σ → σ → Prop
  /-- Some coming call may be refused. -/
  Refuses : σ → Prop
  /-- Some coming call may be where the process stops. -/
  Crashes : σ → Prop
  refl : ∀ s, Later s s
  trans : ∀ {s s' s''}, Later s s' → Later s' s'' → Later s s''
  refuses : ∀ {s s'}, Later s s' → Refuses s' → Refuses s
  crashes : ∀ {s s'}, Later s s' → Crashes s' → Crashes s

variable {σ τ ε δ α β : Type} [Faults σ] [Faults τ]

/-- An error from `s` that changed nothing: some call was refused, or it had to be. -/
abbrev Fails (bad : Prop) (s : σ) (_ : ε) (s' : σ) : Prop :=
  Faults.Later s s' ∧ (Faults.Refuses s ∨ bad)

/-- A stop from `s` that changed nothing: the process may stop there, or it had to. -/
abbrev Stops (doomed : Prop) (s s' : σ) : Prop :=
  Faults.Later s s' ∧ (Faults.Crashes s ∨ doomed)

/-- Run from `s` the program changes nothing and returns only what satisfies `post`; it fails
only where a call may be refused or where it is `bad`, and it stops only where the process
may stop or where it is `doomed`. -/
def Reads (bad doomed : Prop) (p : Prog σ ε α) (s : σ) (post : α → Prop) : Prop :=
  Ends p s (fun a s' => post a ∧ Faults.Later s s') (Fails bad s) (Stops doomed s)

namespace Reads

variable {bad doomed : Prop} {s : σ} {post post' : α → Prop}

theorem pure {a : α} (h : post a) : Reads bad doomed (Pure.pure a : Prog σ ε α) s post :=
  ends_pure.mpr ⟨h, Faults.refl s⟩

theorem fail {e : ε} (h : bad) : Reads bad doomed (Prog.fail e : Prog σ ε α) s post :=
  ends_fail.mpr ⟨Faults.refl s, .inr h⟩

theorem panicking (h : doomed) : Reads bad doomed (Prog.panicking : Prog σ ε α) s post :=
  ends_panicking.mpr ⟨Faults.refl s, .inr h⟩

/-- What reads may be followed by what does more. -/
theorem andThen {p : Prog σ ε α} {f : α → Prog σ ε β} {ok : β → σ → Prop}
    (hp : Reads bad doomed p s post)
    (hf : ∀ a s', post a → Faults.Later s s' →
      Ends (f a) s' ok (Fails bad s') (Stops doomed s')) :
    Ends (p >>= f) s ok (Fails bad s) (Stops doomed s) := by
  refine ends_bind.mpr (Ends.mono hp (fun a s' h => ?_) (fun _ _ h => h) fun _ h => h)
  exact Ends.mono (hf a s' h.1 h.2) (fun _ _ h' => h')
    (fun _ _ h' => ⟨Faults.trans h.2 h'.1, h'.2.imp_left (Faults.refuses h.2)⟩)
    (fun _ h' => ⟨Faults.trans h.2 h'.1, h'.2.imp_left (Faults.crashes h.2)⟩)

/-- What reads may be followed by what reads. -/
theorem bind {p : Prog σ ε α} {f : α → Prog σ ε β} {post' : β → Prop}
    (hp : Reads bad doomed p s post)
    (hf : ∀ a s', post a → Faults.Later s s' → Reads bad doomed (f a) s' post') :
    Reads bad doomed (p >>= f) s post' :=
  hp.andThen fun a s' ha hlater =>
    Ends.mono (hf a s' ha hlater) (fun _ _ h => ⟨h.1, Faults.trans hlater h.2⟩)
      (fun _ _ h => h) fun _ h => h

theorem mono {bad' doomed' : Prop} {p : Prog σ ε α} (hp : Reads bad doomed p s post)
    (h : ∀ a, post a → post' a) (hb : bad → bad') (hd : doomed → doomed') :
    Reads bad' doomed' p s post' :=
  Ends.mono hp (fun a _ ha => ⟨h a ha.1, ha.2⟩) (fun _ _ he => ⟨he.1, he.2.imp_right hb⟩)
    fun _ hs => ⟨hs.1, hs.2.imp_right hd⟩

/-- What reads on a part of the state reads on the whole. -/
theorem zoom {get : σ → τ} {put : τ → σ → σ} {wrap : ε → δ} {p : Prog τ ε α}
    (hp : Reads bad doomed p (get s) post)
    (hlater : ∀ t, Faults.Later (get s) t → Faults.Later s (put t s))
    (hrefuses : Faults.Refuses (get s) → Faults.Refuses s)
    (hcrashes : Faults.Crashes (get s) → Faults.Crashes s) :
    Reads bad doomed (Prog.zoom get put wrap p) s post :=
  ends_zoom.mpr (Ends.mono hp (fun _ t h => ⟨h.1, hlater t h.2⟩)
    (fun _ t h => ⟨hlater t h.1, h.2.imp_left hrefuses⟩)
    fun t h => ⟨hlater t h.1, h.2.imp_left hcrashes⟩)

/-- Where nothing can be refused and nothing stops, what reads returns. -/
theorem returns {p : Prog σ ε α} (hp : Reads False False p s post)
    (hrefuses : ¬ Faults.Refuses s) (hcrashes : ¬ Faults.Crashes s) :
    ∃ a s', p.exec s = (.ok a, s') ∧ post a ∧ Faults.Later s s' :=
  Ends.returns (Ends.mono hp (fun _ _ h => h) (fun _ _ h => hrefuses (h.2.resolve_right id))
    fun _ h => hcrashes (h.2.resolve_right id))

end Reads

end Hadar.Lib
