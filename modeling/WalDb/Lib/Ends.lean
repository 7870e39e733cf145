/-
Rules for how a computation ends.

`x.Ends s Q E` says what comes of running `x` from `s`: a result and a state that satisfy
`Q`, or an error and a state that satisfy `E`.  There is one rule for each way of building
a computation, so a program is proved by following its text, with the specifications of
the programs it calls in the place of their bodies.
-/
import WalDb.Lib.Act

namespace WalDb
namespace Lib
namespace Act

variable {σ τ ε α β : Type} {Q : α → σ → Prop} {R : β → σ → Prop} {E : ε → σ → Prop}

/-- From `s` the computation ends in `Q`, or fails in `E`. -/
def Ends (x : Act σ ε α) (s : σ) (Q : α → σ → Prop) (E : ε → σ → Prop) : Prop :=
  match x s with
  | (.ok a, s') => Q a s'
  | (.error e, s') => E e s'

theorem ends_of_ok {x : Act σ ε α} {s s' : σ} {a : α} (h : x s = (.ok a, s')) (hQ : Q a s') :
    x.Ends s Q E := by
  rw [Ends, h]
  exact hQ

theorem ends_of_error {x : Act σ ε α} {s s' : σ} {e : ε} (h : x s = (.error e, s'))
    (hE : E e s') : x.Ends s Q E := by
  rw [Ends, h]
  exact hE

/-- The two ways in which a computation ends. -/
theorem Ends.cases {x : Act σ ε α} {s : σ} (h : x.Ends s Q E) :
    (∃ a s', x s = (.ok a, s') ∧ Q a s') ∨ ∃ e s', x s = (.error e, s') ∧ E e s' := by
  rw [Ends] at h
  cases hx : x s with
  | mk r s' =>
      rw [hx] at h
      cases r with
      | ok a => exact Or.inl ⟨a, s', rfl, h⟩
      | error e => exact Or.inr ⟨e, s', rfl, h⟩

/-- What is left of a computation that has failed. -/
theorem Ends.error {x : Act σ ε α} {s s' : σ} {e : ε} (h : x.Ends s Q E)
    (hx : x s = (.error e, s')) : E e s' := by
  rw [Ends, hx] at h
  exact h

theorem ends_pure {a : α} {s : σ} (h : Q a s) : (pure a : Act σ ε α).Ends s Q E := h

theorem ends_fail {e : ε} {s : σ} (h : E e s) : (fail e : Act σ ε α).Ends s Q E := h

theorem ends_get_bind {f : σ → Act σ ε α} {s : σ} (h : (f s).Ends s Q E) :
    (get >>= f).Ends s Q E := h

theorem Ends.bind {x : Act σ ε α} {f : α → Act σ ε β} {s : σ} (h : x.Ends s Q E)
    (hf : ∀ a s', Q a s' → (f a).Ends s' R E) : (x >>= f).Ends s R E := by
  rcases h.cases with ⟨a, s', hx, hQ⟩ | ⟨e, s', hx, hE⟩
  · rw [Ends, bind_ok hx]
    exact hf a s' hQ
  · rw [Ends, bind_error hx]
    exact hE

theorem Ends.mono {x : Act σ ε α} {s : σ} {Q' : α → σ → Prop} {E' : ε → σ → Prop}
    (h : x.Ends s Q E) (hQ : ∀ a s', Q a s' → Q' a s') (hE : ∀ e s', E e s' → E' e s') :
    x.Ends s Q' E' := by
  rcases h.cases with ⟨a, s', hx, hq⟩ | ⟨e, s', hx, he⟩
  · exact ends_of_ok hx (hQ a s' hq)
  · exact ends_of_error hx (hE e s' he)

/-- A computation whose error is taken as a value does not fail. -/
theorem Ends.attempt {x : Act σ ε α} {s : σ} {Q' : Except ε α → σ → Prop}
    (h : x.Ends s (fun a => Q' (.ok a)) fun e => Q' (.error e)) : (attempt x).Ends s Q' E := by
  rcases h.cases with ⟨a, s', hx, hq⟩ | ⟨e, s', hx, he⟩
  · exact ends_of_ok (by rw [attempt_apply, hx]) hq
  · exact ends_of_ok (by rw [attempt_apply, hx]) he

theorem Ends.and {x : Act σ ε α} {s : σ} {Q' : α → σ → Prop} {E' : ε → σ → Prop}
    (h : x.Ends s Q E) (h' : x.Ends s Q' E') :
    x.Ends s (fun a s' => Q a s' ∧ Q' a s') fun e s' => E e s' ∧ E' e s' := by
  rcases h.cases with ⟨a, s', hx, hq⟩ | ⟨e, s', hx, he⟩
  · rw [Ends, hx] at h'
    exact ends_of_ok hx ⟨hq, h'⟩
  · exact ends_of_error hx ⟨he, h'.error hx⟩

/-- A computation on a part of the state. -/
theorem Ends.zoom {view : τ → σ} {put : τ → σ → τ} {x : Act σ ε α} {t : τ}
    {Q' : α → τ → Prop} {E' : ε → τ → Prop}
    (h : x.Ends (view t) (fun a s' => Q' a (put t s')) fun e s' => E' e (put t s')) :
    (Act.zoom view put x).Ends t Q' E' := by
  rcases h.cases with ⟨a, s', hx, hq⟩ | ⟨e, s', hx, he⟩
  · exact ends_of_ok (by rw [zoom_apply, hx]) hq
  · exact ends_of_error (by rw [zoom_apply, hx]) he

end Act
end Lib
end WalDb
