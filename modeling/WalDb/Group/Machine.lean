/-
Callers of `sync_to` and the writers that mark their ranges, on one commit lock.

A move is one critical section, or the return of the flush that a leader runs
outside the lock.  `sync_to` is the loop of `commit.rs` cut where the lock is given
up: a caller that leaves to flush is the leader until it takes the lock again, and a
caller that leaves to wait is blocked until it is notified, or wakes for no reason.
A run is any list of moves, so every interleaving of any number of callers is one.

`results` and `flushes` only record what the callers were told and how often the
store was asked to flush.
-/
import Mathlib.Logic.Function.Basic
import WalDb.Watermark
import WalDb.Lib.Run

namespace WalDb

open Lib Commit

/-- Where a caller of `sync_to` is.  `relocking` is back from the flush and has not
taken the lock yet. -/
inductive Caller where
  | away
  | flushing (target flushTo : Nat)
  | relocking (target flushTo : Nat) (result : Except WalError Unit)
  | waiting (target : Nat)
  | woken (target : Nat)
  deriving DecidableEq

namespace Caller

/-- Whether the caller is between the two sections of a flush leader. -/
def leads : Caller → Bool
  | .flushing _ _ => true
  | .relocking _ _ _ => true
  | _ => false

/-- Whether the caller is counted among the waiters. -/
def queued : Caller → Bool
  | .waiting _ => true
  | .woken _ => true
  | _ => false

/-- What the flush of a leader covers. -/
def flushTo : Caller → Nat
  | .flushing _ flushTo => flushTo
  | .relocking _ flushTo _ => flushTo
  | _ => 0

def notified : Caller → Caller
  | .waiting target => .woken target
  | c => c

@[simp] theorem notified_leads (c : Caller) : c.notified.leads = c.leads := by cases c <;> rfl

@[simp] theorem notified_queued (c : Caller) : c.notified.queued = c.queued := by cases c <;> rfl

@[simp] theorem notified_flushTo (c : Caller) : c.notified.flushTo = c.flushTo := by
  cases c <;> rfl

@[simp] theorem notified_ne_waiting (c : Caller) (target : Nat) : c.notified ≠ .waiting target := by
  cases c <;> simp [notified]

end Caller

/-- The commit lock and its callers. -/
structure Group where
  st : State
  callers : Nat → Caller
  results : List (Nat × Except WalError Unit)
  flushes : Nat

inductive Move where
  /-- `mark_written`. -/
  | written (start endAt : Nat)
  /-- `mark_failed`. -/
  | failed (start : Nat)
  /-- `sync_to` takes the lock for its first round. -/
  | call (i target : Nat)
  /-- The store's `sync` returns to the leader. -/
  | flush (i : Nat) (result : Except WalError Unit)
  /-- The leader takes the lock again. -/
  | relock (i : Nat)
  /-- A wait ends without a notification. -/
  | spurious (i : Nat)
  /-- A woken caller takes the lock again. -/
  | wake (i : Nat)

namespace Group

/-- A fresh coordinator with no caller. -/
def new (recovered : Nat) : Group where
  st := Commit.new recovered
  callers := fun _ => .away
  results := []
  flushes := 0

def notifyAll (g : Group) : Group := { g with callers := fun i => (g.callers i).notified }

def place (g : Group) (i : Nat) (c : Caller) : Group :=
  { g with callers := Function.update g.callers i c }

/-- A mark, with the notification it decides on. -/
def settle (g : Group) (r : State × Bool) : Group :=
  let g := { g with st := r.1 }
  if r.2 then g.notifyAll else g

/-- Caller `i` returns from `sync_to`. -/
def finish (g : Group) (i target : Nat) (result : Except WalError Unit) : Group :=
  { g.place i .away with results := (target, result) :: g.results }

/-- Caller `i` leaves the lock as its round of the loop says. -/
def leave (g : Group) (i target : Nat) : Exit → Group
  | .done result => g.finish i target result
  | .lead flushTo => { g.place i (.flushing target flushTo) with flushes := g.flushes + 1 }
  | .wait => g.place i (.waiting target)

/-- One round of `sync_to` by caller `i`, which holds the lock. -/
def round (g : Group) (i target : Nat) : Group :=
  let r := syncCheck g.st target
  leave { g with st := r.1 } i target r.2

def step (g : Group) : Move → Option Group
  | .written start endAt => some (g.settle (markWritten g.st start endAt))
  | .failed start => some (g.settle (markFailed g.st start))
  | .call i target =>
      match g.callers i with
      | .away => some (g.round i target)
      | _ => none
  | .flush i result =>
      match g.callers i with
      | .flushing target flushTo => some (g.place i (.relocking target flushTo result))
      | _ => none
  | .relock i =>
      match g.callers i with
      | .relocking target flushTo result =>
          let g := { g with st := afterFlush g.st flushTo result.toBool }.notifyAll
          match result with
          | .ok () => some (g.round i target)
          | .error e => some (g.finish i target (.error e))
      | _ => none
  | .spurious i =>
      match g.callers i with
      | .waiting target => some (g.place i (.woken target))
      | _ => none
  | .wake i =>
      match g.callers i with
      | .woken target => some ({ g with st := afterWait g.st }.round i target)
      | _ => none

/-- The ways in which the moves can go, one for each branch of `step`. -/
inductive Takes (g : Group) : Move → Group → Prop
  | written {start endAt : Nat} :
      Takes g (.written start endAt) (g.settle (markWritten g.st start endAt))
  | failed {start : Nat} : Takes g (.failed start) (g.settle (markFailed g.st start))
  | call {i target : Nat} (hi : g.callers i = .away) : Takes g (.call i target) (g.round i target)
  | flush {i target flushTo : Nat} {result : Except WalError Unit}
      (hi : g.callers i = .flushing target flushTo) :
      Takes g (.flush i result) (g.place i (.relocking target flushTo result))
  | relockOk {i target flushTo : Nat} (hi : g.callers i = .relocking target flushTo (.ok ())) :
      Takes g (.relock i) ({ g with st := afterFlush g.st flushTo true }.notifyAll.round i target)
  | relockErr {i target flushTo : Nat} {e : WalError}
      (hi : g.callers i = .relocking target flushTo (.error e)) :
      Takes g (.relock i)
        ({ g with st := afterFlush g.st flushTo false }.notifyAll.finish i target (.error e))
  | spurious {i target : Nat} (hi : g.callers i = .waiting target) :
      Takes g (.spurious i) (g.place i (.woken target))
  | wake {i target : Nat} (hi : g.callers i = .woken target) :
      Takes g (.wake i) ({ g with st := afterWait g.st }.round i target)

theorem takes_of_step {g g' : Group} {m : Move} (h : step g m = some g') : Takes g m g' := by
  cases m with
  | written start endAt =>
      cases h
      exact .written
  | failed start =>
      cases h
      exact .failed
  | call i target =>
      simp only [step] at h
      split at h <;> cases h
      rename_i hi
      exact .call hi
  | flush i result =>
      simp only [step] at h
      split at h <;> cases h
      rename_i hi
      exact .flush hi
  | relock i =>
      simp only [step] at h
      split at h
      · rename_i target flushTo result hi
        cases result <;> cases h
        · exact .relockErr hi
        · exact .relockOk hi
      · cases h
  | spurious i =>
      simp only [step] at h
      split at h <;> cases h
      rename_i hi
      exact .spurious hi
  | wake i =>
      simp only [step] at h
      split at h <;> cases h
      rename_i hi
      exact .wake hi

/-! ## What the parts of a move do -/

@[simp] theorem place_self (g : Group) (i : Nat) (c : Caller) : (g.place i c).callers i = c :=
  Function.update_self _ _ _

theorem place_ne (g : Group) {i j : Nat} (c : Caller) (h : j ≠ i) :
    (g.place i c).callers j = g.callers j := Function.update_of_ne h _ _

/-- What holds of the caller that moves and of all the others. -/
theorem place_forall (g : Group) {i : Nat} {c : Caller} (P : Nat → Caller → Prop) (hc : P i c)
    (h : ∀ j, j ≠ i → P j (g.callers j)) (j : Nat) : P j ((g.place i c).callers j) := by
  by_cases hj : j = i
  · rw [hj, place_self]
    exact hc
  · rw [place_ne _ _ hj]
    exact h j hj

theorem leave_place (g : Group) (i target : Nat) (c : Caller) (exit : Exit) :
    (g.place i c).leave i target exit = g.leave i target exit := by
  have hidem : ∀ d, Function.update (Function.update g.callers i c) i d =
      Function.update g.callers i d := fun d => Function.update_idem _ _ _
  cases exit <;> simp only [leave, finish, place, hidem]

/-- A round does not look at where its caller was. -/
theorem round_place (g : Group) (i target : Nat) (c : Caller) :
    (g.place i c).round i target = g.round i target :=
  leave_place { g with st := (syncCheck g.st target).1 } i target c _

/-- A mark leaves every caller where it was, or notifies them all. -/
theorem settle_callers (g : Group) (r : State × Bool) (i : Nat) :
    (g.settle r).callers i = if r.2 then (g.callers i).notified else g.callers i := by
  unfold settle
  cases r.2 <;> rfl

theorem settle_st (g : Group) (r : State × Bool) : (g.settle r).st = r.1 := by
  unfold settle
  cases r.2 <;> rfl

theorem settle_results (g : Group) (r : State × Bool) : (g.settle r).results = g.results := by
  unfold settle
  cases r.2 <;> rfl

theorem settle_flushes (g : Group) (r : State × Bool) : (g.settle r).flushes = g.flushes := by
  unfold settle
  cases r.2 <;> rfl

/-! ## One leader at a time -/

/-- At most one caller leads, and `syncing` is set exactly while one does. -/
structure Led (g : Group) : Prop where
  leader : ∀ i j, (g.callers i).leads = true → (g.callers j).leads = true → i = j
  syncing : g.st.syncing = true ↔ ∃ i, (g.callers i).leads = true

theorem new_led (recovered : Nat) : Led (new recovered) where
  leader _ _ h := by cases h
  syncing := by simp [new, Commit.new, Caller.leads]

variable {g g' : Group}

/-- What `Led` speaks of has not changed. -/
theorem Led.of_eq (h : Led g) (hleads : ∀ i, (g'.callers i).leads = (g.callers i).leads)
    (hsync : g'.st.syncing = g.st.syncing) : Led g' where
  leader := by
    simp only [hleads]
    exact h.leader
  syncing := by
    simp only [hleads, hsync]
    exact h.syncing

theorem Led.none_of_not_syncing (h : Led g) (hsync : g.st.syncing = false) (i : Nat) :
    (g.callers i).leads = false := by
  by_contra hi
  rw [h.syncing.mpr ⟨i, Bool.not_eq_false _ ▸ hi⟩] at hsync
  cases hsync

theorem place_leads (g : Group) {i : Nat} {c : Caller} (h : c.leads = (g.callers i).leads)
    (j : Nat) : ((g.place i c).callers j).leads = (g.callers j).leads :=
  place_forall g (fun j c => c.leads = (g.callers j).leads) h (fun _ _ => rfl) j

theorem settle_leads (g : Group) (r : State × Bool) (i : Nat) :
    ((g.settle r).callers i).leads = (g.callers i).leads := by
  rw [settle_callers]
  cases r.2 <;> simp

/-- A round by a caller that does not lead. -/
theorem Led.round (h : Led g) {i : Nat} (target : Nat) (hi : (g.callers i).leads = false) :
    Led (g.round i target) := by
  unfold Group.round
  rcases syncCheck_cases g.st target with ⟨e, heq⟩ | ⟨heq, -⟩ | ⟨heq, hsync, -, -⟩ | heq
  · rw [heq]
    exact h.of_eq (place_leads g hi.symm) rfl
  · rw [heq]
    exact h.of_eq (place_leads g hi.symm) rfl
  · -- Nobody leads yet, so the caller is the only one.
    rw [heq]
    have honly : ∀ j, ((g.place i (.flushing target g.st.committed)).callers j).leads = true →
        j = i := by
      intro j hj
      by_contra hne
      rw [place_ne _ _ hne, h.none_of_not_syncing hsync j] at hj
      cases hj
    refine ⟨fun j k hj hk => (honly j hj).trans (honly k hk).symm, fun _ => ⟨i, ?_⟩, fun _ => rfl⟩
    show ((g.place i _).callers i).leads = true
    rw [place_self]
    rfl
  · rw [heq]
    exact h.of_eq (place_leads g hi.symm) rfl

/-- Once the leader has the lock again nobody leads. -/
theorem Led.none_after (h : Led g) {i : Nat} (hi : (g.callers i).leads = true) {c : Caller}
    (hc : c.leads = false) (st : State) (j : Nat) :
    (({ g with st := st }.notifyAll.place i c).callers j).leads = false := by
  refine place_forall _ (fun _ c => c.leads = false) hc (fun k hk => ?_) j
  show (g.callers k).notified.leads = false
  rw [Caller.notified_leads]
  by_contra hlead
  exact hk (h.leader k i (Bool.not_eq_false _ ▸ hlead) hi)

theorem Led.relock (h : Led g) {i : Nat} (hi : (g.callers i).leads = true) {c : Caller}
    (hc : c.leads = false) (flushTo : Nat) (flushed : Bool) :
    Led ({ g with st := afterFlush g.st flushTo flushed }.notifyAll.place i c) := by
  have hnone := h.none_after hi hc (afterFlush g.st flushTo flushed)
  obtain ⟨-, -, -, -, hsync⟩ := afterFlush_frame g.st flushTo flushed
  refine ⟨fun j k hj => ?_, fun hs => ?_, ?_⟩
  · rw [hnone j] at hj
    cases hj
  · have hfalse : false = true := hsync.symm.trans hs
    cases hfalse
  · rintro ⟨j, hj⟩
    rw [hnone j] at hj
    cases hj

theorem Led.step (h : Led g) {m : Move} (hstep : step g m = some g') : Led g' := by
  cases takes_of_step hstep with
  | @written start endAt =>
      obtain ⟨-, hsync, -⟩ := insertRegion_frame g.st start endAt
      exact h.of_eq (settle_leads g _) (by rw [settle_st]; exact hsync)
  | failed => exact h.of_eq (settle_leads g _) (by rw [settle_st]; rfl)
  | call hi => exact h.round _ (by rw [hi]; rfl)
  | flush hi | spurious hi => exact h.of_eq (place_leads g (by rw [hi]; rfl)) rfl
  | @relockOk i target flushTo hi =>
      have hleads : (g.callers i).leads = true := by rw [hi]; rfl
      rw [← round_place _ i target .away]
      exact (h.relock hleads rfl flushTo true).round target (by rw [place_self]; rfl)
  | @relockErr i target flushTo e hi =>
      have hleads : (g.callers i).leads = true := by rw [hi]; rfl
      exact (h.relock hleads rfl flushTo false).of_eq (fun _ => rfl) rfl
  | @wake i target hi =>
      refine Led.round (g := { g with st := afterWait g.st }) ?_ target (by rw [hi]; rfl)
      exact h.of_eq (fun _ => rfl) rfl

end Group
end WalDb
