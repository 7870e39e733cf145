/-
Group-commit coordination (`commit.rs`): the watermark state and the critical
sections over it.

The source holds one mutex around `State`.  A definition below is what one
holder does between taking the lock and releasing it, so any interleaving of
calls is an interleaving of these steps.  `sync_to` gives up the lock twice, for
the flush and for the wait; it is cut there into `syncCheck`, the part from the
head of the loop to the next release, and `afterFlush` and `afterWait`, the parts
that run when the lock is taken again before the loop goes round.
-/
import Mathlib.Data.List.AList
import WalDb.Basic

namespace WalDb
namespace Commit

/-- The state under the lock.  `pending` holds completed writes that are not yet
contiguous with `committed`, keyed by start offset. -/
structure State where
  committed : Nat
  durable : Nat
  pending : AList fun _ : Nat => Nat
  syncing : Bool
  waiters : Nat
  poison : Option Nat
  flushFailed : Bool

/-- `Commit::new`: both watermarks start at the end of the recovered prefix. -/
def new (recovered : Nat) : State where
  committed := recovered
  durable := recovered
  pending := ∅
  syncing := false
  waiters := 0
  poison := none
  flushFailed := false

theorem erase_entries_length_lt {pending : AList fun _ : Nat => Nat} {a b : Nat}
    (h : pending.lookup a = some b) :
    (pending.erase a).entries.length < pending.entries.length := by
  have hmem : a ∈ pending.entries.keys := AList.lookup_isSome.mp (by rw [h]; rfl)
  have hk : (pending.entries.kerase a).keys.length < pending.entries.keys.length := by
    rw [List.keys_kerase, List.length_erase_of_mem hmem]
    have hpos : 0 < pending.entries.keys.length := List.length_pos_of_mem hmem
    omega
  have herase : (pending.erase a).entries = pending.entries.kerase a := rfl
  rw [herase]
  simpa [List.keys] using hk

/-- The loop of `insert_region`: advance `committed` across the pending regions
that start there. -/
def drain (st : State) : State :=
  match _h : st.pending.lookup st.committed with
  | some nextEnd =>
      drain { st with committed := nextEnd, pending := st.pending.erase st.committed }
  | none => st
termination_by st.pending.entries.length
decreasing_by exact erase_entries_length_lt _h

/-- Fold a completed region into the watermark. -/
def insertRegion (st : State) (start endAt : Nat) : State :=
  if start = st.committed then drain { st with committed := endAt }
  else { st with pending := st.pending.insert start endAt }

/-- `mark_written`.  The flag says whether the waiters are notified. -/
def markWritten (st : State) (start endAt : Nat) : State × Bool :=
  let st := insertRegion st start endAt
  (st, 0 < st.waiters)

/-- `mark_failed`: the log is poisoned from the lowest failed start on. -/
def markFailed (st : State) (start : Nat) : State × Bool :=
  let st := { st with poison := some (st.poison.elim start fun p => min p start) }
  (st, 0 < st.waiters)

/-- `reset`: both watermarks move to `offset`, the pending regions and the poison
are dropped.  After a failed flush the durable watermark can only move down.
The waiters are always notified. -/
def reset (st : State) (offset : Nat) : State :=
  { st with
    committed := offset
    durable := if st.flushFailed then min st.durable offset else offset
    pending := ∅
    poison := none }

/-- How a round of `sync_to` leaves the lock: with a result, as the leader of a
flush that will cover `flushTo`, or to wait for a notification. -/
inductive Exit where
  | done (result : Except WalError Unit)
  | lead (flushTo : Nat)
  | wait
  deriving Repr

def poisonError (poison : Nat) : WalError :=
  .corruption poison "a record write failed; the log is truncated at this offset"

def flushFailedError : WalError :=
  .io "flushing to stable storage" (.other "an earlier flush failed; reopen the log")

/-- One round of the loop of `sync_to`, up to where the lock is released. -/
def syncCheck (st : State) (target : Nat) : State × Exit :=
  match st.poison.filter (· < target) with
  | some poison => (st, .done (.error (poisonError poison)))
  | none =>
      if target ≤ st.durable then (st, .done (.ok ()))
      else if st.flushFailed then (st, .done (.error flushFailedError))
      else if target ≤ st.committed ∧ st.syncing = false then
        ({ st with syncing := true }, .lead st.committed)
      else ({ st with waiters := st.waiters + 1 }, .wait)

/-- The leader takes the lock again after the flush.  On success the loop goes
round once more; on failure `sync_to` returns the error.  The waiters are
notified either way. -/
def afterFlush (st : State) (flushTo : Nat) (flushed : Bool) : State :=
  let st := { st with syncing := false }
  if flushed then
    if st.durable < flushTo then { st with durable := flushTo } else st
  else { st with flushFailed := true }

/-- A waiter takes the lock again. -/
def afterWait (st : State) : State := { st with waiters := st.waiters - 1 }

/-! ## The leader's second section -/

/-- What the leader's second section does to the state. -/
theorem afterFlush_eq (st : State) (flushTo : Nat) (flushed : Bool) :
    afterFlush st flushTo flushed =
      { st with
        syncing := false
        durable := if flushed then max st.durable flushTo else st.durable
        flushFailed := st.flushFailed || !flushed } := by
  unfold afterFlush
  cases flushed with
  | true =>
      by_cases h : st.durable < flushTo
      · simp [h, Nat.max_eq_right (Nat.le_of_lt h)]
      · simp [h, Nat.max_eq_left (Nat.not_lt.mp h)]
  | false => simp

theorem afterFlush_frame (st : State) (flushTo : Nat) (flushed : Bool) :
    (afterFlush st flushTo flushed).committed = st.committed ∧
      (afterFlush st flushTo flushed).pending = st.pending ∧
      (afterFlush st flushTo flushed).poison = st.poison ∧
      (afterFlush st flushTo flushed).waiters = st.waiters ∧
      (afterFlush st flushTo flushed).syncing = false := by
  rw [afterFlush_eq]
  exact ⟨rfl, rfl, rfl, rfl, rfl⟩

theorem le_afterFlush_durable (st : State) (flushTo : Nat) :
    flushTo ≤ (afterFlush st flushTo true).durable := by
  rw [afterFlush_eq]
  exact Nat.le_max_right _ _

/-- The durable watermark never falls. -/
theorem durable_le_afterFlush (st : State) (flushTo : Nat) (flushed : Bool) :
    st.durable ≤ (afterFlush st flushTo flushed).durable := by
  rw [afterFlush_eq]
  cases flushed with
  | true => exact Nat.le_max_left _ _
  | false => exact Nat.le_refl _

/-! ## The drain loop -/

theorem drain_some {st : State} {nextEnd : Nat}
    (h : st.pending.lookup st.committed = some nextEnd) :
    drain st =
      drain { st with committed := nextEnd, pending := st.pending.erase st.committed } := by
  rw [drain]
  split
  · rename_i e he
    rw [h] at he
    cases he
    rfl
  · rename_i he
    rw [h] at he
    cases he

theorem drain_none {st : State} (h : st.pending.lookup st.committed = none) : drain st = st := by
  rw [drain]
  split
  · rename_i e he
    rw [h] at he
    cases he
  · rfl

/-- The loop's exit condition: nothing pending starts at the watermark. -/
theorem drain_lookup (st : State) :
    (drain st).pending.lookup (drain st).committed = none := by
  induction st using drain.induct with
  | case1 st nextEnd h ih => rw [drain_some h]; exact ih
  | case2 st h => rw [drain_none h]; exact h

/-- Draining moves nothing but the watermark and the pending regions. -/
theorem drain_frame (st : State) :
    (drain st).durable = st.durable ∧ (drain st).syncing = st.syncing ∧
      (drain st).waiters = st.waiters ∧ (drain st).poison = st.poison ∧
      (drain st).flushFailed = st.flushFailed := by
  induction st using drain.induct with
  | case1 st nextEnd h ih => rw [drain_some h]; exact ih
  | case2 st h => rw [drain_none h]; exact ⟨rfl, rfl, rfl, rfl, rfl⟩

/-! ## The ways out of a round -/

/-- Every round of `sync_to` ends in one of four ways, and only the last two change
the state. -/
theorem syncCheck_cases (st : State) (target : Nat) :
    (∃ e, syncCheck st target = (st, .done (.error e))) ∨
      (syncCheck st target = (st, .done (.ok ())) ∧ target ≤ st.durable) ∨
      (syncCheck st target = ({ st with syncing := true }, .lead st.committed) ∧
        st.syncing = false ∧ st.flushFailed = false ∧ target ≤ st.committed) ∨
      syncCheck st target = ({ st with waiters := st.waiters + 1 }, .wait) := by
  unfold syncCheck
  cases st.poison.filter (· < target) with
  | some p => exact Or.inl ⟨_, rfl⟩
  | none =>
      by_cases hd : target ≤ st.durable
      · exact Or.inr (Or.inl ⟨if_pos hd, hd⟩)
      · by_cases hf : st.flushFailed = true
        · exact Or.inl ⟨flushFailedError, by simp only [if_neg hd, if_pos hf]⟩
        · by_cases hl : target ≤ st.committed ∧ st.syncing = false
          · refine Or.inr (Or.inr (Or.inl ⟨?_, hl.2, by simpa using hf, hl.1⟩))
            simp only [if_neg hd, if_neg hf, if_pos hl]
          · refine Or.inr (Or.inr (Or.inr ?_))
            simp only [if_neg hd, if_neg hf, if_neg hl]

/-! ## Moving forward -/

section Forward

variable {st : State} {start endAt : Nat}

theorem drain_mono (h : ∀ a b, st.pending.lookup a = some b → a < b) :
    st.committed ≤ (drain st).committed ∧
      ∀ a b, (drain st).pending.lookup a = some b → a < b := by
  induction st using drain.induct with
  | case1 st nextEnd hlook ih =>
      rw [drain_some hlook]
      have hlt := h _ _ hlook
      obtain ⟨hle, hrest⟩ := ih fun a b hab => by
        by_cases ha : a = st.committed
        · rw [ha, AList.lookup_erase] at hab
          cases hab
        · rw [AList.lookup_erase_ne ha] at hab
          exact h a b hab
      exact ⟨Nat.le_trans (Nat.le_of_lt hlt) hle, hrest⟩
  | case2 st hlook =>
      rw [drain_none hlook]
      exact ⟨Nat.le_refl _, h⟩

/-- The watermark does not go back when a range is folded in. -/
theorem insertRegion_mono (hlt : start < endAt)
    (h : ∀ a b, st.pending.lookup a = some b → a < b) :
    st.committed ≤ (insertRegion st start endAt).committed ∧
      ∀ a b, (insertRegion st start endAt).pending.lookup a = some b → a < b := by
  unfold insertRegion
  by_cases heq : start = st.committed
  · rw [if_pos heq]
    obtain ⟨hle, hrest⟩ := @drain_mono { st with committed := endAt } h
    have hle' : endAt ≤ (drain { st with committed := endAt }).committed := hle
    exact ⟨by omega, hrest⟩
  · rw [if_neg heq]
    refine ⟨Nat.le_refl _, fun a b hab => ?_⟩
    have hab : (st.pending.insert start endAt).lookup a = some b := hab
    by_cases ha : a = start
    · rw [ha, AList.lookup_insert] at hab
      cases hab
      rw [ha]
      exact hlt
    · rw [AList.lookup_insert_ne ha] at hab
      exact h a b hab

end Forward

end Commit
end WalDb
