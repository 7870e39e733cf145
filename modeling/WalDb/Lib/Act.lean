/-
Computations over a state that may fail.

An `Act σ ε α` takes a state, and returns a result or an error together with the
state it left behind.  The state survives an error, so a computation that fails
halfway leaves the changes it had made, as imperative code with early returns
does.  The bind rules below are how every proof takes a computation apart: one
rule runs the first half, the others read a finished run backwards.
-/
import Mathlib.Init

namespace WalDb
namespace Lib

/-- A computation over state `σ` that returns `α` or fails with `ε`. -/
abbrev Act (σ ε α : Type) : Type := σ → Except ε α × σ

namespace Act

variable {σ τ ε α β : Type}

def ret (a : α) : Act σ ε α := fun s => (.ok a, s)

def bind (x : Act σ ε α) (f : α → Act σ ε β) : Act σ ε β := fun s =>
  match x s with
  | (.ok a, s') => f a s'
  | (.error e, s') => (.error e, s')

instance : Monad (Act σ ε) where
  pure := ret
  bind := bind

def fail (e : ε) : Act σ ε α := fun s => (.error e, s)

/-- The current state. -/
def get : Act σ ε σ := fun s => (.ok s, s)

def set (s : σ) : Act σ ε Unit := fun _ => (.ok (), s)

def modify (f : σ → σ) : Act σ ε Unit := fun s => (.ok (), f s)

/-- Run `x` and return its result or its error as a value. -/
def attempt (x : Act σ ε α) : Act σ ε (Except ε α) := fun s => (.ok (x s).1, (x s).2)

/-- Run a computation on a part of the state. -/
def zoom (view : τ → σ) (put : τ → σ → τ) (x : Act σ ε α) : Act τ ε α := fun t =>
  ((x (view t)).1, put t (x (view t)).2)

@[simp] theorem pure_apply (a : α) (s : σ) : (pure a : Act σ ε α) s = (.ok a, s) := rfl

@[simp] theorem fail_apply (e : ε) (s : σ) : (fail e : Act σ ε α) s = (.error e, s) := rfl

@[simp] theorem get_apply (s : σ) : (get : Act σ ε σ) s = (.ok s, s) := rfl

@[simp] theorem set_apply (s t : σ) : (set t : Act σ ε Unit) s = (.ok (), t) := rfl

@[simp] theorem modify_apply (f : σ → σ) (s : σ) :
    (modify f : Act σ ε Unit) s = (.ok (), f s) := rfl

@[simp] theorem attempt_apply (x : Act σ ε α) (s : σ) :
    attempt x s = (.ok (x s).1, (x s).2) := rfl

@[simp] theorem zoom_apply (view : τ → σ) (put : τ → σ → τ) (x : Act σ ε α) (t : τ) :
    zoom view put x t = ((x (view t)).1, put t (x (view t)).2) := rfl

theorem bind_ok {x : Act σ ε α} {s s' : σ} {a : α} (h : x s = (.ok a, s'))
    (f : α → Act σ ε β) : (x >>= f) s = f a s' := by
  show bind x f s = _
  simp only [bind, h]

theorem bind_error {x : Act σ ε α} {s s' : σ} {e : ε} (h : x s = (.error e, s'))
    (f : α → Act σ ε β) : (x >>= f) s = (.error e, s') := by
  show bind x f s = _
  simp only [bind, h]

/-- A bind that succeeded ran both halves to success. -/
theorem bind_eq_ok {x : Act σ ε α} {f : α → Act σ ε β} {s s'' : σ} {b : β}
    (h : (x >>= f) s = (.ok b, s'')) :
    ∃ a s', x s = (.ok a, s') ∧ f a s' = (.ok b, s'') := by
  cases hx : x s with
  | mk r s' =>
      cases r with
      | ok a => exact ⟨a, s', rfl, by rw [← h, bind_ok hx]⟩
      | error e =>
          rw [bind_error hx] at h
          simp at h

@[simp] theorem pure_bind (a : α) (f : α → Act σ ε β) : (pure a >>= f) = f a := rfl

@[simp] theorem get_bind (f : σ → Act σ ε β) (s : σ) : (get >>= f) s = f s s := rfl

@[simp] theorem set_bind (t : σ) (f : Unit → Act σ ε β) (s : σ) :
    (set t >>= f) s = f () t := rfl

@[simp] theorem modify_bind (g : σ → σ) (f : Unit → Act σ ε β) (s : σ) :
    (modify g >>= f) s = f () (g s) := rfl

@[simp] theorem attempt_bind (x : Act σ ε α) (f : Except ε α → Act σ ε β) (s : σ) :
    (attempt x >>= f) s = f (x s).1 (x s).2 := rfl

@[simp] theorem fail_bind (e : ε) (f : α → Act σ ε β) (s : σ) :
    ((fail e : Act σ ε α) >>= f) s = (.error e, s) := rfl

/-- The state a computation ends in, if it succeeds. -/
def final (x : Act σ ε α) (s : σ) : Option σ :=
  match x s with
  | (.ok _, s') => some s'
  | (.error _, _) => none

theorem final_ok {x : Act σ ε α} {s s' : σ} {a : α} (h : x s = (.ok a, s')) :
    final x s = some s' := by
  simp only [final, h]

theorem final_eq_some {x : Act σ ε α} {s s' : σ} (h : final x s = some s') :
    ∃ a, x s = (.ok a, s') := by
  cases hx : x s with
  | mk r t =>
      cases r with
      | ok a =>
          rw [final_ok hx] at h
          cases h
          exact ⟨a, rfl⟩
      | error e =>
          simp only [final, hx] at h
          cases h

theorem eq_ok_of_toOption {r : Except ε α} {a : α} (h : r.toOption = some a) : r = .ok a := by
  cases r with
  | ok b =>
      cases h
      rfl
  | error e => cases h

theorem eq_ok_of_toBool {r : Except ε Unit × σ} (h : r.1.toBool = true) : r = (.ok (), r.2) := by
  obtain ⟨r, s⟩ := r
  cases r with
  | ok u => rfl
  | error e => cases h

theorem eq_error_of_toBool {r : Except ε α × σ} (h : r.1.toBool = false) :
    ∃ e, r = (.error e, r.2) := by
  obtain ⟨r, s⟩ := r
  cases r with
  | ok a => cases h
  | error e => exact ⟨e, rfl⟩

end Act
end Lib
end WalDb
