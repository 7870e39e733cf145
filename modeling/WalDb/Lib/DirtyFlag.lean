/-
A flag that says that a directory is to be flushed.

Any thread may add a name to the directory, and sets the flag afterwards.  One flusher at a
time loads the flag, clears it with a swap, and then flushes the directory, which makes the
names durable that were there when the flush started.  If the flush fails it sets the flag
again.  Each of these is a step of its own, and any step of another thread may come between
two of them.

`Covered` says why a name will not be forgotten: it is durable, or the flag is set, or the
flush that is under way takes it along.  `Due` says how far a round of the flusher has come
with the names that were covered when it began.
-/
import Mathlib.Init

namespace WalDb
namespace Lib

/-- Where the flusher stands. -/
inductive Flusher (α : Type) where
  | idle
  | begun
  /-- The flag was set when it was loaded. -/
  | seen
  /-- The flag has been cleared, and the flush has not started. -/
  | cleared
  | running (names : List α)
  /-- The flush has failed, and the flag is not set again yet. -/
  | failed
  | clean
  deriving DecidableEq

/-- The names of a directory, those that are known to be durable, and the flag. -/
structure DirtyFlag (α : Type) where
  present : List α
  durable : List α
  dirty : Bool
  flusher : Flusher α
  /-- A flush has failed, and none has been started since. -/
  owed : Bool
  deriving DecidableEq

namespace DirtyFlag

variable {α : Type}

inductive Action (α : Type) where
  | add (a : α)
  | mark
  | enter
  | load
  | swap
  | start
  | finish
  | fail
  | restore
  deriving DecidableEq

def add [DecidableEq α] (s : DirtyFlag α) (a : α) : DirtyFlag α :=
  { s with present := if a ∈ s.present then s.present else a :: s.present }

def mark (s : DirtyFlag α) : DirtyFlag α := { s with dirty := true }

def step [DecidableEq α] (s : DirtyFlag α) : Action α → Option (DirtyFlag α)
  | .add a => some (s.add a)
  | .mark => some s.mark
  | .enter =>
      match s.flusher with
      | .idle | .clean => some { s with flusher := .begun }
      | _ => none
  | .load =>
      match s.flusher with
      | .begun => some { s with flusher := if s.dirty then .seen else .clean }
      | _ => none
  | .swap =>
      match s.flusher with
      | .seen => some { s with dirty := false, flusher := if s.dirty then .cleared else .clean }
      | _ => none
  | .start =>
      match s.flusher with
      | .cleared => some { s with flusher := .running s.present, owed := false }
      | _ => none
  | .finish =>
      match s.flusher with
      | .running names => some { s with durable := names ++ s.durable, flusher := .clean }
      | _ => none
  | .fail =>
      match s.flusher with
      | .running _ => some { s with flusher := .failed, owed := true }
      | _ => none
  | .restore =>
      match s.flusher with
      | .failed => some { s with dirty := true, flusher := .idle }
      | _ => none

/-- The name is durable, or a flush to come or under way takes it along. -/
def Covered (s : DirtyFlag α) (a : α) : Prop :=
  match s.flusher with
  | .cleared | .failed => True
  | .running names => a ∈ s.durable ∨ s.dirty = true ∨ a ∈ names
  | _ => a ∈ s.durable ∨ s.dirty = true

/-- How far the flusher has come with the names `as`. -/
def Due (as : List α) (s : DirtyFlag α) : Prop :=
  match s.flusher with
  | .begun => ∀ a ∈ as, a ∈ s.present ∧ (a ∈ s.durable ∨ s.dirty = true)
  | .seen => s.dirty = true ∧ ∀ a ∈ as, a ∈ s.present
  | .cleared => ∀ a ∈ as, a ∈ s.present
  | .running names => ∀ a ∈ as, a ∈ names
  | .clean => ∀ a ∈ as, a ∈ s.durable
  | .idle | .failed => True

/-- A failed flush is made up for: the flag is set, or about to be, or a flush is about to
start. -/
def Retries (s : DirtyFlag α) : Prop :=
  s.owed = true →
    match s.flusher with
    | .cleared | .failed => True
    | .running _ | .clean => False
    | _ => s.dirty = true

theorem covered_of_dirty {s : DirtyFlag α} (h : s.dirty = true) (a : α) : Covered s a := by
  unfold Covered
  split <;> simp [h]

theorem mem_add [DecidableEq α] {s : DirtyFlag α} {a b : α} :
    a ∈ (s.add b).present ↔ a ∈ s.present ∨ a = b := by
  show (a ∈ if b ∈ s.present then s.present else b :: s.present) ↔ _
  split
  · rename_i hb
    exact ⟨Or.inl, fun h => h.elim id fun heq => heq ▸ hb⟩
  · rw [List.mem_cons, or_comm]

theorem mem_add_self [DecidableEq α] {s : DirtyFlag α} {a : α} : a ∈ (s.add a).present :=
  mem_add.mpr (Or.inr rfl)

/-- The steps, with what was found when they were taken. -/
inductive Step [DecidableEq α] (s : DirtyFlag α) : Action α → DirtyFlag α → Prop where
  | add (a : α) : Step s (.add a) (s.add a)
  | mark : Step s .mark s.mark
  | enter (hf : s.flusher = .idle ∨ s.flusher = .clean) : Step s .enter { s with flusher := .begun }
  | loadSet (hf : s.flusher = .begun) (hd : s.dirty = true) :
      Step s .load { s with flusher := .seen }
  | loadClear (hf : s.flusher = .begun) (hd : s.dirty = false) :
      Step s .load { s with flusher := .clean }
  | swapSet (hf : s.flusher = .seen) (hd : s.dirty = true) :
      Step s .swap { s with dirty := false, flusher := .cleared }
  | swapClear (hf : s.flusher = .seen) (hd : s.dirty = false) :
      Step s .swap { s with dirty := false, flusher := .clean }
  | start (hf : s.flusher = .cleared) :
      Step s .start { s with flusher := .running s.present, owed := false }
  | finish {names : List α} (hf : s.flusher = .running names) :
      Step s .finish { s with durable := names ++ s.durable, flusher := .clean }
  | fail {names : List α} (hf : s.flusher = .running names) :
      Step s .fail { s with flusher := .failed, owed := true }
  | restore (hf : s.flusher = .failed) : Step s .restore { s with dirty := true, flusher := .idle }

section Step

variable [DecidableEq α] {s s' : DirtyFlag α} {act : Action α} {a : α} {as : List α}

theorem step_cases (h : s.step act = some s') : Step s act s' := by
  cases act with
  | add b =>
      cases h
      exact .add b
  | mark =>
      cases h
      exact .mark
  | enter =>
      simp only [step] at h
      split at h <;> cases h
      · exact .enter (Or.inl ‹_›)
      · exact .enter (Or.inr ‹_›)
  | load =>
      simp only [step] at h
      split at h <;> cases h
      cases hd : s.dirty with
      | true => simpa [hd] using Step.loadSet ‹_› hd
      | false => simpa [hd] using Step.loadClear ‹_› hd
  | swap =>
      simp only [step] at h
      split at h <;> cases h
      cases hd : s.dirty with
      | true => exact Step.swapSet ‹_› hd
      | false => exact Step.swapClear ‹_› hd
  | start =>
      simp only [step] at h
      split at h <;> cases h
      exact .start ‹_›
  | finish =>
      simp only [step] at h
      split at h <;> cases h
      exact .finish ‹_›
  | fail =>
      simp only [step] at h
      split at h <;> cases h
      exact .fail ‹_›
  | restore =>
      simp only [step] at h
      split at h <;> cases h
      exact .restore ‹_›

theorem step_present_eq (h : s.step act = some s') (hact : ∀ a, act ≠ .add a) :
    s'.present = s.present := by
  cases step_cases h with
  | add a => exact absurd rfl (hact a)
  | mark | enter | loadSet | loadClear | swapSet | swapClear | start | finish | fail | restore => rfl

theorem step_present (h : s.step act = some s') (ha : a ∈ s.present) : a ∈ s'.present := by
  cases step_cases h with
  | add b => exact mem_add.mpr (Or.inl ha)
  | mark | enter | loadSet | loadClear | swapSet | swapClear | start | finish | fail | restore =>
      exact ha

/-- No step forgets a name of the directory. -/
theorem step_covered (h : s.step act = some s') (ha : a ∈ s.present) (hc : Covered s a) :
    Covered s' a := by
  cases step_cases h with
  | add b => exact hc
  | mark => exact covered_of_dirty rfl a
  | enter hf =>
      rcases hf with hf | hf
      · rwa [Covered, hf] at hc
      · rwa [Covered, hf] at hc
  | loadSet hf hd => exact Or.inr hd
  | loadClear hf hd => rwa [Covered, hf] at hc
  -- What the flag stood for is left to the flush that will start.
  | swapSet hf hd => exact trivial
  | swapClear hf hd =>
      rw [Covered, hf] at hc
      exact Or.inl (hc.resolve_right (by rw [hd]; exact nofun))
  -- The flush takes all names that are there.
  | start hf => exact Or.inr (Or.inr ha)
  | finish hf =>
      rw [Covered, hf] at hc
      rcases hc with hdur | hdirty | hin
      · exact Or.inl (List.mem_append_right _ hdur)
      · exact Or.inr hdirty
      · exact Or.inl (List.mem_append_left _ hin)
  | fail hf => exact trivial
  | restore hf => exact covered_of_dirty rfl a

/-- A round begins with names that are covered. -/
theorem enter_due (h : s.step .enter = some s')
    (has : ∀ a ∈ as, a ∈ s.present ∧ Covered s a) : Due as s' := by
  cases step_cases h with
  | enter hf =>
      intro a ha
      obtain ⟨hp, hc⟩ := has a ha
      rcases hf with hf | hf
      · rw [Covered, hf] at hc
        exact ⟨hp, hc⟩
      · rw [Covered, hf] at hc
        exact ⟨hp, hc⟩

omit [DecidableEq α] in
/-- Names that are added, and the flag being set, are nothing to a round. -/
theorem Due.mono (h : Due as s) (hf : s'.flusher = s.flusher)
    (hp : ∀ a ∈ s.present, a ∈ s'.present) (hdur : s'.durable = s.durable)
    (hdirty : s.dirty = true → s'.dirty = true) : Due as s' := by
  unfold Due at h ⊢
  rw [hf, hdur]
  generalize s.flusher = flusher at h ⊢
  cases flusher with
  | begun => exact fun a ha => ⟨hp a (h a ha).1, (h a ha).2.imp id hdirty⟩
  | seen => exact ⟨hdirty h.1, fun a ha => hp a (h.2 a ha)⟩
  | cleared => exact fun a ha => hp a (h a ha)
  | running names => exact h
  | clean => exact h
  | idle | failed => trivial

/-- A round keeps its names to the end, where they are durable. -/
theorem step_due (h : s.step act = some s') (hne : act ≠ .enter) (hd : Due as s) : Due as s' := by
  cases step_cases h with
  | add b => exact hd.mono rfl (fun _ => step_present h) rfl id
  | mark => exact hd.mono rfl (fun _ ha => ha) rfl fun _ => rfl
  | enter hf => exact absurd rfl hne
  | loadSet hf hdirty =>
      rw [Due, hf] at hd
      exact ⟨hdirty, fun a ha => (hd a ha).1⟩
  -- A flag that is not set leaves only names that are durable.
  | loadClear hf hclear =>
      rw [Due, hf] at hd
      exact fun a ha => (hd a ha).2.resolve_right (by rw [hclear]; exact nofun)
  | swapSet hf hdirty =>
      rw [Due, hf] at hd
      exact hd.2
  -- Nobody else clears the flag, so the swap finds it set.
  | swapClear hf hclear =>
      rw [Due, hf, hclear] at hd
      exact absurd hd.1 nofun
  | start hf =>
      rw [Due, hf] at hd
      exact hd
  | finish hf =>
      rw [Due, hf] at hd
      exact fun a ha => List.mem_append_left _ (hd a ha)
  | fail hf => exact trivial
  | restore hf => exact trivial

omit [DecidableEq α] in
/-- Until a flush is started again the flag stands for the one that failed. -/
theorem Retries.dirty (h : Retries s) (howed : s.owed = true)
    (hf : s.flusher = .idle ∨ s.flusher = .clean ∨ s.flusher = .begun ∨ s.flusher = .seen) :
    s.dirty = true := by
  have := h howed
  rcases hf with hf | hf | hf | hf <;> rw [hf] at this
  · exact this
  · exact this.elim
  · exact this
  · exact this

theorem step_retries (h : s.step act = some s') (hr : Retries s) : Retries s' := by
  intro howed
  cases step_cases h with
  | add b => exact hr howed
  | mark =>
      have := hr howed
      show match s.flusher with
        | .cleared | .failed => True
        | .running _ | .clean => False
        | _ => true = true
      split <;> simp_all
  | enter hf => exact hr.dirty howed (hf.imp id Or.inl)
  | loadSet hf hd => exact hd
  | loadClear hf hd =>
      rw [hr.dirty howed (by rw [hf]; simp)] at hd
      cases hd
  | swapSet hf hd => exact trivial
  | swapClear hf hd =>
      rw [hr.dirty howed (by rw [hf]; simp)] at hd
      cases hd
  | start hf => cases howed
  | finish hf =>
      have := hr howed
      rw [hf] at this
      exact this.elim
  | fail hf => exact trivial
  | restore hf => exact rfl

end Step

end DirtyFlag
end Lib
end WalDb
