/-
Machines that answer every call, and when one answers like another.

A machine is a step function that gives an answer and the next state.  `Throughout`
says of a list of calls that each is made in a state that allows it.  If related
states answer alike and stay related, then the two machines give the same answers to
every list of calls; the calls need to be allowed only for the second machine, and
only those runs of the first are looked at whose answers are all `good`.
-/
import Mathlib.Init

namespace WalDb
namespace Lib

variable {σ τ α β : Type}

/-- The answers to a list of calls. -/
def answers (step : σ → α → β × σ) : σ → List α → List β
  | _, [] => []
  | s, a :: as => (step s a).1 :: answers step (step s a).2 as

/-- Every call is made in a state that allows it. -/
def Throughout (step : σ → α → β × σ) (ok : σ → α → Prop) : σ → List α → Prop
  | _, [] => True
  | s, a :: as => ok s a ∧ Throughout step ok (step s a).2 as

instance decidableThroughout (step : σ → α → β × σ) (ok : σ → α → Prop)
    [∀ s a, Decidable (ok s a)] : ∀ s as, Decidable (Throughout step ok s as)
  | _, [] => .isTrue trivial
  | s, a :: as =>
      have := decidableThroughout step ok (step s a).2 as
      inferInstanceAs (Decidable (_ ∧ _))

theorem Throughout.and {step : σ → α → β × σ} {ok ok' : σ → α → Prop} {s : σ} {as : List α}
    (h : Throughout step ok s as) (h' : Throughout step ok' s as) :
    Throughout step (fun s a => ok s a ∧ ok' s a) s as := by
  induction as generalizing s with
  | nil => trivial
  | cons a as ih => exact ⟨⟨h.1, h'.1⟩, ih h.2 h'.2⟩

theorem Throughout.mono {step : σ → α → β × σ} {ok ok' : σ → α → Prop}
    (himp : ∀ s a, ok s a → ok' s a) {s : σ} {as : List α} (h : Throughout step ok s as) :
    Throughout step ok' s as := by
  induction as generalizing s with
  | nil => trivial
  | cons a as ih => exact ⟨himp s a h.1, ih h.2⟩

/-- A simulation gives equal answers. -/
theorem answers_eq {step : σ → α → β × σ} {step' : τ → α → β × τ} (R : σ → τ → Prop)
    {ok : τ → α → Prop} {good : β → Prop}
    (hstep : ∀ s t a, R s t → ok t a → good (step s a).1 →
      (step s a).1 = (step' t a).1 ∧ R (step s a).2 (step' t a).2)
    {s : σ} {t : τ} {as : List α} (hR : R s t) (hok : Throughout step' ok t as)
    (hgood : ∀ b ∈ answers step s as, good b) : answers step s as = answers step' t as := by
  induction as generalizing s t with
  | nil => rfl
  | cons a as ih =>
      obtain ⟨hanswer, hnext⟩ := hstep s t a hR hok.1 (hgood _ List.mem_cons_self)
      rw [answers, answers, hanswer,
        ih hnext hok.2 fun b hb => hgood b (List.mem_cons_of_mem _ hb)]

/-- Where an invariant makes every allowed call give a good answer, all answers are good. -/
theorem answers_forall {step : σ → α → β × σ} {inv : σ → Prop} {ok : σ → α → Prop}
    {good : β → Prop}
    (hstep : ∀ s a, inv s → ok s a → good (step s a).1 ∧ inv (step s a).2)
    {s : σ} {as : List α} (hinv : inv s) (hok : Throughout step ok s as) :
    ∀ b ∈ answers step s as, good b := by
  induction as generalizing s with
  | nil => simp [answers]
  | cons a as ih =>
      obtain ⟨hgood, hnext⟩ := hstep s a hinv hok.1
      intro b hb
      rw [answers, List.mem_cons] at hb
      rcases hb with rfl | hb
      · exact hgood
      · exact ih hnext hok.2 b hb

end Lib
end WalDb
