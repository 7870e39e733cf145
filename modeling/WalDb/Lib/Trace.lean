/-
Computations seen as lists of steps.

`Performs` says that a computation changes what is observed of its state by the steps of
a list, one after the other: by all of them if it succeeds, and by some first ones if it
fails.  The rules follow the structure of the computation, so that the steps of a
function are read off its text, and so are the states in which it can stop.
-/
import WalDb.Lib.Act

namespace WalDb
namespace Lib

variable {σ τ γ ε α β : Type} (obs : σ → τ) (step : τ → γ → τ)

/-- From `s` on, `x` makes the steps, or fails after some of them. -/
def Performs (x : Act σ ε α) (s : σ) (steps : List γ) : Prop :=
  ∃ done, done <+: steps ∧ obs (x s).2 = done.foldl step (obs s) ∧
    ∀ a s', x s = (.ok a, s') → done = steps

variable {obs step} {x : Act σ ε α} {f : α → Act σ ε β} {s : σ} {cs ds : List γ}

theorem performs_nil (h : obs (x s).2 = obs s) : Performs obs step x s [] :=
  ⟨[], List.prefix_rfl, h, fun _ _ _ => rfl⟩

theorem performs_one {a : α} {s' : σ} {c : γ} (h : x s = (.ok a, s'))
    (hobs : obs s' = step (obs s) c) : Performs obs step x s [c] :=
  ⟨[c], List.prefix_rfl, by rw [h]; exact hobs, fun _ _ _ => rfl⟩

theorem performs_error {e : ε} {s' : σ} (h : x s = (.error e, s')) (hobs : obs s' = obs s)
    (cs : List γ) : Performs obs step x s cs := by
  refine ⟨[], List.nil_prefix, by rw [h]; exact hobs, fun a t ht => ?_⟩
  rw [h] at ht
  cases ht

theorem Performs.bind (hx : Performs obs step x s cs)
    (hf : ∀ a s', x s = (.ok a, s') → Performs obs step (f a) s' ds) :
    Performs obs step (x >>= f) s (cs ++ ds) := by
  obtain ⟨done, hpre, hobs, hall⟩ := hx
  cases hrun : x s with
  | mk r s' =>
      rw [hrun] at hobs
      cases r with
      | ok a =>
          obtain ⟨done', hpre', hobs', hall'⟩ := hf a s' hrun
          obtain rfl := hall a s' hrun
          refine ⟨done ++ done', (List.prefix_append_right_inj done).mpr hpre', ?_,
            fun b t ht => ?_⟩
          · rw [Act.bind_ok hrun, hobs', hobs, List.foldl_append]
          · rw [Act.bind_ok hrun] at ht
            rw [hall' b t ht]
      | error e =>
          refine ⟨done, hpre.trans (List.prefix_append _ _), ?_, fun b t ht => ?_⟩
          · rw [Act.bind_error hrun]
            exact hobs
          · rw [Act.bind_error hrun] at ht
            cases ht

/-- What follows the last step. -/
theorem Performs.bind_nil (hx : Performs obs step x s cs)
    (hf : ∀ a s', x s = (.ok a, s') → Performs obs step (f a) s' []) :
    Performs obs step (x >>= f) s cs := by
  have := hx.bind hf
  rwa [List.append_nil] at this

theorem performs_get_bind {g : σ → Act σ ε β} (h : Performs obs step (g s) s cs) :
    Performs obs step (Act.get >>= g) s cs := h

end Lib
end WalDb
