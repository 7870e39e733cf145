/-
Runs of a system given by a partial step function.

`run` performs a list of actions, and is undefined as soon as one of them is not
possible.  `Along` says of a run that every step of it, in the state in which it is
taken, meets a condition.  The two invariant rules are the induction every result
about whole runs goes through.
-/
import Mathlib.Init

namespace WalDb
namespace Lib

variable {σ α : Type} (step : σ → α → Option σ)

/-- Perform the actions one after another. -/
def run : σ → List α → Option σ
  | s, [] => some s
  | s, a :: as => (step s a).bind fun s' => run s' as

/-- Every step of the run from `s` meets `ok` in the state it is taken in. -/
def Along (ok : σ → α → Prop) : σ → List α → Prop
  | _, [] => True
  | s, a :: as => ok s a ∧ ∀ s', step s a = some s' → Along ok s' as

instance decidableAlong (ok : σ → α → Prop) [∀ s a, Decidable (ok s a)] :
    ∀ s as, Decidable (Along step ok s as)
  | _, [] => .isTrue trivial
  | s, a :: as =>
      have := fun t => decidableAlong ok t as
      have : Decidable (∀ s', step s a = some s' → Along step ok s' as) :=
        match step s a with
        | none => .isTrue nofun
        | some t => decidable_of_iff (Along step ok t as) ⟨fun h _ ht => Option.some.inj ht ▸ h,
            fun h => h t rfl⟩
      inferInstanceAs (Decidable (_ ∧ _))

variable {step}

theorem run_cons {s t : σ} {a : α} (h : step s a = some t) (as : List α) :
    run step s (a :: as) = run step t as := by
  rw [run, h]
  rfl

theorem run_append {s t : σ} {as : List α} (h : run step s as = some t) (bs : List α) :
    run step s (as ++ bs) = run step t bs := by
  induction as generalizing s with
  | nil =>
      cases h
      rfl
  | cons a as ih =>
      obtain ⟨u, hu, h⟩ := Option.bind_eq_some_iff.mp h
      rw [List.cons_append, run_cons hu, ih h]

/-- What every step that meets `ok` preserves holds after every run whose steps
all meet it. -/
theorem run_along {inv : σ → Prop} {ok : σ → α → Prop}
    (hstep : ∀ s a s', inv s → ok s a → step s a = some s' → inv s') {s s' : σ} {as : List α}
    (hinv : inv s) (halong : Along step ok s as) (hrun : run step s as = some s') : inv s' := by
  induction as generalizing s with
  | nil =>
      cases hrun
      exact hinv
  | cons a as ih =>
      obtain ⟨t, ht, hrun⟩ := Option.bind_eq_some_iff.mp hrun
      exact ih (hstep s a t hinv halong.1 ht) (halong.2 t ht) hrun

theorem Along.of_forall {ok : σ → α → Prop} {as : List α} (h : ∀ a ∈ as, ∀ s, ok s a) (s : σ) :
    Along step ok s as := by
  induction as generalizing s with
  | nil => trivial
  | cons a as ih =>
      exact ⟨h a List.mem_cons_self s, fun s' _ => ih (fun b hb => h b (List.mem_cons_of_mem a hb)) s'⟩

/-- What every step preserves holds after every run. -/
theorem run_invariant {inv : σ → Prop} (hstep : ∀ s a s', inv s → step s a = some s' → inv s')
    {s s' : σ} {as : List α} (hinv : inv s) (hrun : run step s as = some s') : inv s' := by
  induction as generalizing s with
  | nil =>
      cases hrun
      exact hinv
  | cons a as ih =>
      obtain ⟨t, ht, hrun⟩ := Option.bind_eq_some_iff.mp hrun
      exact ih (hstep s a t hinv ht) hrun

/-- An invariant that speaks of the actions taken so far. -/
theorem run_history (inv : List α → σ → Prop)
    (hstep : ∀ done s a s', inv done s → step s a = some s' → inv (done ++ [a]) s') {s s' : σ}
    {as : List α} (hinv : inv [] s) (hrun : run step s as = some s') : inv as s' := by
  have hall : ∀ (as done : List α) (s : σ), inv done s → run step s as = some s' →
      inv (done ++ as) s' := by
    intro as
    induction as with
    | nil =>
        intro done s hinv hrun
        cases hrun
        rw [List.append_nil]
        exact hinv
    | cons a as ih =>
        intro done s hinv hrun
        obtain ⟨t, ht, hrun⟩ := Option.bind_eq_some_iff.mp hrun
        have := ih (done ++ [a]) t (hstep done s a t hinv ht) hrun
        rwa [List.append_assoc] at this
  exact hall as [] s hinv hrun

/-- Where every step lowers `work` by one, and a step that is `extra` raises it by less than
`c`, the work at the start and the extra steps bound the length of the run. -/
theorem run_length_le {inv : σ → Prop} {ok : α → Prop} {extra : α → Bool} {c : Nat}
    {work : σ → Nat}
    (hstep : ∀ s a s', inv s → ok a → step s a = some s' →
      inv s' ∧ work s' + 1 ≤ work s + if extra a then c else 0)
    {s s' : σ} {as : List α} (hinv : inv s) (hok : ∀ a ∈ as, ok a)
    (hrun : run step s as = some s') :
    as.length + work s' ≤ work s + c * as.countP extra := by
  induction as generalizing s with
  | nil =>
      cases hrun
      simp
  | cons a as ih =>
      obtain ⟨t, ht, hrun⟩ := Option.bind_eq_some_iff.mp hrun
      obtain ⟨hinv', hle⟩ := hstep s a t hinv (hok a List.mem_cons_self) ht
      have hrest := ih hinv' (fun b hb => hok b (List.mem_cons_of_mem a hb)) hrun
      have hcount : c * (a :: as).countP extra =
          c * as.countP extra + if extra a then c else 0 := by
        rw [List.countP_cons, Nat.mul_add]
        split <;> simp
      rw [List.length_cons, hcount]
      omega

/-- Where each step of one system is matched by a step of another, so is each run. -/
theorem run_matched {τ : Type} {step' : τ → α → Option τ} {R : σ → τ → Prop}
    (hstep : ∀ s t a t', R s t → step' t a = some t' → ∃ s', step s a = some s' ∧ R s' t')
    {s : σ} {t t' : τ} {as : List α} (hR : R s t) (hrun : run step' t as = some t') :
    ∃ s', run step s as = some s' ∧ R s' t' := by
  induction as generalizing s t with
  | nil =>
      cases hrun
      exact ⟨s, rfl, hR⟩
  | cons a as ih =>
      obtain ⟨u, hu, hrun⟩ := Option.bind_eq_some_iff.mp hrun
      obtain ⟨v, hv, hnext⟩ := hstep s t a u hR hu
      rw [run_cons hv]
      exact ih hnext hrun

end Lib
end WalDb
