/-
Rules for the steps that a computation takes.

`x.Walks R s Q E` says more than `Ends`: the state that `x` leaves behind, with a result or with
an error, is reached from `s` by steps of `R`.  A program is followed through its text once, for
the steps that it takes.  What one step keeps is then kept by the whole of it, and also by a run
that fails halfway: `Walks.keeps` is the frame rule.
-/
import Mathlib.Logic.Relation
import WalDb.Lib.Ends

namespace WalDb
namespace Lib
namespace Act

open Relation

variable {σ ε α β : Type} {R R' : σ → σ → Prop} {Q : α → σ → Prop} {E : ε → Prop}

/-- From `s` the computation ends in `Q`, or fails with an error in `E`, by steps of `R`. -/
def Walks (R : σ → σ → Prop) (x : Act σ ε α) (s : σ) (Q : α → σ → Prop) (E : ε → Prop) : Prop :=
  x.Ends s (fun a s' => ReflTransGen R s s' ∧ Q a s') fun e s' => ReflTransGen R s s' ∧ E e

theorem walks_pure {a : α} {s : σ} (h : Q a s) : (pure a : Act σ ε α).Walks R s Q E :=
  ends_pure ⟨.refl, h⟩

theorem walks_fail {e : ε} {s : σ} (h : E e) : (fail e : Act σ ε α).Walks R s Q E :=
  ends_fail ⟨.refl, h⟩

theorem walks_get_bind {f : σ → Act σ ε α} {s : σ} (h : (f s).Walks R s Q E) :
    (get >>= f).Walks R s Q E := h

/-- A computation of one step. -/
theorem walks_step {x : Act σ ε α} {s s' : σ} {a : α} (hrun : x s = (.ok a, s')) (hR : R s s')
    (hQ : Q a s') : x.Walks R s Q E :=
  ends_of_ok hrun ⟨.single hR, hQ⟩

theorem Walks.bind {x : Act σ ε α} {f : α → Act σ ε β} {s : σ} {Q' : β → σ → Prop}
    (h : x.Walks R s Q E)
    (hf : ∀ a s', ReflTransGen R s s' → Q a s' → (f a).Walks R s' Q' E) :
    (x >>= f).Walks R s Q' E :=
  Ends.bind h fun a s' hs' => (hf a s' hs'.1 hs'.2).mono (fun _ _ h => ⟨hs'.1.trans h.1, h.2⟩)
    fun _ _ h => ⟨hs'.1.trans h.1, h.2⟩

theorem Walks.mono {x : Act σ ε α} {s : σ} {Q' : α → σ → Prop} {E' : ε → Prop}
    (h : x.Walks R s Q E) (hR : ∀ s s', R s s' → R' s s') (hQ : ∀ a s', Q a s' → Q' a s')
    (hE : ∀ e, E e → E' e) : x.Walks R' s Q' E' :=
  Ends.mono h (fun a s' h => ⟨ReflTransGen.mono hR _ _ h.1, hQ a s' h.2⟩)
    fun e _ h => ⟨ReflTransGen.mono hR _ _ h.1, hE e h.2⟩

/-- What comes behind the steps may do something else. -/
theorem Walks.bind_ends {x : Act σ ε α} {f : α → Act σ ε β} {s : σ} {Q' : β → σ → Prop}
    {E' : ε → σ → Prop} (h : x.Walks R s Q E)
    (hE : ∀ e s', ReflTransGen R s s' → E e → E' e s')
    (hf : ∀ a s', ReflTransGen R s s' → Q a s' → (f a).Ends s' Q' E') : (x >>= f).Ends s Q' E' :=
  Ends.bind (Ends.mono h (fun _ _ h => h) fun e s' h => hE e s' h.1 h.2)
    fun a s' hs' => hf a s' hs'.1 hs'.2

/-- A computation that only its error matters of. -/
theorem Walks.attempt {x : Act σ ε α} {s : σ} {E' : ε → Prop} (h : x.Walks R s Q E) :
    (attempt x).Walks R s (fun r _ => ∀ e, r = .error e → E e) E' :=
  Ends.attempt (Ends.mono h (fun _ _ h => ⟨h.1, fun _ he => by cases he⟩)
    fun _ _ h => ⟨h.1, fun _ he => Except.error.inj he ▸ h.2⟩)

/-- What no step changes holds wherever the steps lead. -/
theorem walk_keeps {I : σ → Prop} (hstep : ∀ s s', R s s' → I s → I s') {s s' : σ}
    (h : ReflTransGen R s s') (hI : I s) : I s' := by
  induction h with
  | refl => exact hI
  | tail _ hlast ih => exact hstep _ _ hlast ih

/-- And wherever a computation ends. -/
theorem Walks.keeps {x : Act σ ε α} {s : σ} (h : x.Walks R s Q E) {I : σ → Prop} (hI : I s)
    (hstep : ∀ s s', R s s' → I s → I s') :
    x.Ends s (fun a s' => I s' ∧ Q a s') fun e s' => I s' ∧ E e :=
  Ends.mono h (fun _ _ h => ⟨walk_keeps hstep h.1 hI, h.2⟩)
    fun _ _ h => ⟨walk_keeps hstep h.1 hI, h.2⟩

end Act
end Lib
end WalDb
