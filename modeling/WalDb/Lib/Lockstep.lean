/-
Two computations that cannot be told apart.

`Lockstep R Q x y` relates a computation over one kind of state to one over another: from
states related by `R` both end with the same result or the same error, and leave states
related by `Q`.  There is one rule for each way of building a computation, so that two
computations of the same shape are alike as soon as their parts are.
-/
import WalDb.Lib.Act

namespace WalDb
namespace Lib
namespace Act

variable {σ τ σ' τ' ε α β : Type} {R Q Q' : σ → τ → Prop}

/-- From states related by `R`, the same result and states related by `Q`. -/
def Lockstep (R Q : σ → τ → Prop) (x : Act σ ε α) (y : Act τ ε α) : Prop :=
  ∀ s t, R s t → (x s).1 = (y t).1 ∧ Q (x s).2 (y t).2

theorem Lockstep.mono {x : Act σ ε α} {y : Act τ ε α} (h : Lockstep R Q x y)
    (hQ : ∀ s t, Q s t → Q' s t) : Lockstep R Q' x y :=
  fun s t hR => ⟨(h s t hR).1, hQ _ _ (h s t hR).2⟩

theorem lockstep_pure (a : α) : Lockstep R R (pure a : Act σ ε α) (pure a : Act τ ε α) :=
  fun _ _ hR => ⟨rfl, hR⟩

theorem lockstep_fail (e : ε) : Lockstep R R (fail e : Act σ ε α) (fail e : Act τ ε α) :=
  fun _ _ hR => ⟨rfl, hR⟩

/-- An act keeps up with itself. -/
theorem lockstep_eq (x : Act σ ε α) : Lockstep Eq Eq x x := by
  rintro s _ rfl
  exact ⟨rfl, rfl⟩

theorem lockstep_modify {f : σ → σ} {g : τ → τ} (h : ∀ s t, R s t → Q (f s) (g t)) :
    Lockstep R Q (modify f : Act σ ε Unit) (modify g) :=
  fun s t hR => ⟨rfl, h s t hR⟩

/-- One after the other.  An error of the first half ends both. -/
theorem Lockstep.bind {x : Act σ ε α} {y : Act τ ε α} {f : α → Act σ ε β} {g : α → Act τ ε β}
    (hx : Lockstep R Q x y) (hf : ∀ a, Lockstep Q Q' (f a) (g a)) (hQ : ∀ s t, Q s t → Q' s t) :
    Lockstep R Q' (x >>= f) (y >>= g) := by
  intro s t hR
  obtain ⟨hres, hpost⟩ := hx s t hR
  cases hxs : x s with
  | mk r s' =>
      cases hyt : y t with
      | mk r' t' =>
          rw [hxs, hyt] at hres hpost
          dsimp only at hres hpost
          subst hres
          cases r with
          | ok a =>
              rw [bind_ok hxs, bind_ok hyt]
              exact hf a s' t' hpost
          | error e =>
              rw [bind_error hxs, bind_error hyt]
              exact ⟨rfl, hQ _ _ hpost⟩

theorem Lockstep.seq {x : Act σ ε α} {y : Act τ ε α} {f : α → Act σ ε β} {g : α → Act τ ε β}
    (hx : Lockstep R R x y) (hf : ∀ a, Lockstep R R (f a) (g a)) : Lockstep R R (x >>= f) (y >>= g) :=
  hx.bind hf fun _ _ h => h

/-- One of the two notes something down that the other does not know of. -/
theorem Lockstep.noting {x : Act σ ε Unit} {y : Act τ ε Unit} (h : Lockstep R R x y) {f : σ → σ}
    (hf : ∀ s t, R s t → R (f s) t) : Lockstep R R (x >>= fun _ => modify f) y := by
  intro s t hR
  obtain ⟨hres, hpost⟩ := h s t hR
  cases hxs : x s with
  | mk r s' =>
      rw [hxs] at hres hpost
      cases r with
      | ok u =>
          rw [bind_ok hxs]
          exact ⟨hres, hf _ _ hpost⟩
      | error e =>
          rw [bind_error hxs]
          exact ⟨hres, hpost⟩

theorem lockstep_ite {p : Prop} [Decidable p] {x x' : Act σ ε α} {y y' : Act τ ε α}
    (h : p → Lockstep R Q x y) (h' : ¬ p → Lockstep R Q x' y') :
    Lockstep R Q (if p then x else x') (if p then y else y') := by
  by_cases hp : p
  · rw [if_pos hp, if_pos hp]
    exact h hp
  · rw [if_neg hp, if_neg hp]
    exact h' hp

/-- Both look at their states. -/
theorem lockstep_get {f : σ → Act σ ε β} {g : τ → Act τ ε β}
    (h : ∀ s t, R s t → Lockstep R Q (f s) (g t)) : Lockstep R Q (get >>= f) (get >>= g) :=
  fun s t hR => h s t hR s t hR

theorem Lockstep.attempt {x : Act σ ε α} {y : Act τ ε α} (h : Lockstep R Q x y) :
    Lockstep R Q (attempt x) (attempt y) := by
  intro s t hR
  obtain ⟨hres, hpost⟩ := h s t hR
  exact ⟨congrArg Except.ok hres, hpost⟩

/-- Computations on parts of the states. -/
theorem Lockstep.zoom {R' Q' : σ' → τ' → Prop} {view : σ' → σ} {put : σ' → σ → σ'} {view' : τ' → τ}
    {put' : τ' → τ → τ'} {x : Act σ ε α} {y : Act τ ε α} (h : Lockstep R Q x y)
    (hview : ∀ s t, R' s t → R (view s) (view' t))
    (hput : ∀ s t a b, R' s t → Q a b → Q' (put s a) (put' t b)) :
    Lockstep R' Q' (zoom view put x) (zoom view' put' y) := by
  intro s t hR
  obtain ⟨hres, hpost⟩ := h _ _ (hview s t hR)
  exact ⟨hres, hput s t _ _ hR hpost⟩

end Act
end Lib
end WalDb
