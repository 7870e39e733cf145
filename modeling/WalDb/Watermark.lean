/-
What the commit state says about the reserved ranges.

Appends reserve ranges one after another, so the ranges tile the log from its
head to its tail.  Each is in flight until its write ends, and then written or
failed.  `Tracks` relates the state under the lock to that: everything below
`committed` is written, `pending` is exactly the written ranges above it, and the
poison is the first failed range.  The coordinator's own steps are shown to keep
it.  The bound the log's durability rests on follows: the watermark never passes
a range that is not written.
-/
import WalDb.Commit
import WalDb.Lib.Tiling

namespace WalDb
namespace Commit

open Lib

/-- Where the write of a reserved range stands. -/
inductive Status where
  | inflight
  | written
  | failed
  deriving DecidableEq, Repr

/-- `status` with the range at `lo` moved to `st`. -/
def setStatus (status : Nat → Status) (lo : Nat) (st : Status) : Nat → Status :=
  fun a => if a = lo then st else status a

@[simp] theorem setStatus_self (status : Nat → Status) (lo : Nat) (st : Status) :
    setStatus status lo st lo = st := if_pos rfl

theorem setStatus_ne (status : Nat → Status) {lo a : Nat} (st : Status) (h : a ≠ lo) :
    setStatus status lo st a = status a := if_neg h

/-- The watermark and the pending regions are right, apart from regions that
could still be folded in. -/
structure Folds (base : Nat) (rs : List Span) (status : Nat → Status) (st : State) : Prop where
  boundary : st.committed = base ∨ ∃ r ∈ rs, r.hi = st.committed
  below : ∀ r ∈ rs, r.lo < st.committed → status r.lo = .written
  pending : ∀ a b, st.pending.lookup a = some b ↔
    ∃ r ∈ rs, r.lo = a ∧ r.hi = b ∧ st.committed ≤ a ∧ status a = .written

/-- The commit state agrees with the ranges. -/
structure Tracks (base : Nat) (rs : List Span) (status : Nat → Status) (st : State) : Prop
    extends Folds base rs status st where
  /-- The range at the watermark is not written. -/
  stuck : st.pending.lookup st.committed = none
  durable_le : st.durable ≤ st.committed
  poison_le : ∀ r ∈ rs, status r.lo = .failed → ∃ p, st.poison = some p ∧ p ≤ r.lo
  poison_mem : ∀ p, st.poison = some p → ∃ r ∈ rs, r.lo = p ∧ status p = .failed

variable {base t : Nat} {rs : List Span} {status : Nat → Status} {st : State}

/-- A range that is not written starts at or above the watermark. -/
theorem Folds.committed_le {r : Span} (h : Folds base rs status st) (hr : r ∈ rs)
    (hnot : status r.lo ≠ .written) : st.committed ≤ r.lo := by
  by_contra hlt
  exact hnot (h.below r hr (by omega))

theorem Folds.base_le (htile : Tiles base rs t) (h : Folds base rs status st) :
    base ≤ st.committed := by
  rcases h.boundary with heq | ⟨r, hr, heq⟩
  · omega
  · have := htile.bounds hr
    omega

theorem Folds.committed_le_end (htile : Tiles base rs t) (h : Folds base rs status st) :
    st.committed ≤ t := by
  rcases h.boundary with heq | ⟨r, hr, heq⟩
  · rw [heq]
    exact htile.le
  · have := htile.bounds hr
    omega

/-- Moving the watermark over the written range that starts there. -/
theorem Folds.advance (htile : Tiles base rs t) (h : Folds base rs status st) {r : Span}
    (hr : r ∈ rs) (hlo : r.lo = st.committed) (hw : status r.lo = .written) :
    Folds base rs status
      { st with committed := r.hi, pending := st.pending.erase st.committed } where
  boundary := Or.inr ⟨r, hr, rfl⟩
  below q hq hlt := by
    rcases htile.disjoint hq hr with rfl | hle | hle
    · exact hw
    · exact h.below q hq (by have := htile.bounds hq; omega)
    · have : q.lo < r.hi := hlt
      omega
  pending a b := by
    have hrb := htile.bounds hr
    by_cases ha : a = st.committed
    · -- The range folded in is gone, and its start is below the new watermark.
      subst ha
      rw [AList.lookup_erase]
      constructor
      · intro hnone
        cases hnone
      · rintro ⟨q, hq, -, -, hle, -⟩
        have : r.hi ≤ st.committed := hle
        omega
    · rw [AList.lookup_erase_ne ha, h.pending]
      constructor
      · rintro ⟨q, hq, rfl, hb, hle, hwq⟩
        refine ⟨q, hq, rfl, hb, ?_, hwq⟩
        have := htile.hi_le_of_lo_lt hr hq (by omega)
        exact this
      · rintro ⟨q, hq, hqa, hb, hle, hwq⟩
        have : r.hi ≤ a := hle
        exact ⟨q, hq, hqa, hb, by omega, hwq⟩

/-- The drain loop folds in every region it can. -/
theorem Folds.drain (htile : Tiles base rs t) (h : Folds base rs status st) :
    Folds base rs status (drain st) ∧ st.committed ≤ (Commit.drain st).committed := by
  induction st using drain.induct with
  | case1 st nextEnd hlook ih =>
      obtain ⟨r, hr, hlo, rfl, -, hw⟩ := (h.pending _ _).mp hlook
      obtain ⟨hf, hle⟩ := ih (h.advance htile hr hlo (hlo ▸ hw))
      have hrb := htile.bounds hr
      rw [drain_some hlook]
      refine ⟨hf, Nat.le_trans ?_ hle⟩
      show st.committed ≤ r.hi
      omega
  | case2 st hlook =>
      rw [drain_none hlook]
      exact ⟨h, Nat.le_refl _⟩

/-! ## The coordinator's steps -/

/-- Folding in the write of a range in flight. -/
theorem Tracks.folds_insertRegion (htile : Tiles base rs t) (h : Tracks base rs status st)
    {r : Span} (hr : r ∈ rs) (hfl : status r.lo = .inflight) :
    Folds base rs (setStatus status r.lo .written) (insertRegion st r.lo r.hi) ∧
      (insertRegion st r.lo r.hi).pending.lookup (insertRegion st r.lo r.hi).committed = none ∧
      st.committed ≤ (insertRegion st r.lo r.hi).committed := by
  have hrb := htile.bounds hr
  have hge : st.committed ≤ r.lo := h.committed_le hr (by rw [hfl]; decide)
  -- Other ranges keep their status.
  have hother : ∀ q ∈ rs, q.lo ≠ r.lo →
      setStatus status r.lo .written q.lo = status q.lo :=
    fun q _ hne => setStatus_ne _ _ hne
  unfold insertRegion
  by_cases hat : r.lo = st.committed
  · rw [if_pos hat]
    have hfold : Folds base rs (setStatus status r.lo .written) { st with committed := r.hi } := by
      refine ⟨Or.inr ⟨r, hr, rfl⟩, fun q hq hlt => ?_, fun a b => ?_⟩
      · by_cases hq' : q.lo = r.lo
        · rw [hq', setStatus_self]
        · have hlt' : q.lo < r.hi := hlt
          rw [hother q hq hq']
          rcases htile.disjoint hq hr with heq | hle | hle
          · exact absurd (congrArg Span.lo heq) hq'
          · exact h.below q hq (by have := htile.bounds hq; omega)
          · omega
      · show st.pending.lookup a = some b ↔ _
        rw [h.pending]
        constructor
        · rintro ⟨q, hq, rfl, hb, hle, hwq⟩
          have hne : q.lo ≠ r.lo := fun he => by rw [he, hfl] at hwq; cases hwq
          exact ⟨q, hq, rfl, hb, htile.hi_le_of_lo_lt hr hq (by omega), by rw [hother q hq hne, hwq]⟩
        · rintro ⟨q, hq, rfl, hb, hle, hwq⟩
          have hle' : r.hi ≤ q.lo := hle
          rw [hother q hq (by omega)] at hwq
          exact ⟨q, hq, rfl, hb, by omega, hwq⟩
    obtain ⟨hd, hle⟩ := hfold.drain htile
    have hle' : r.hi ≤ (drain { st with committed := r.hi }).committed := hle
    exact ⟨hd, drain_lookup _, by omega⟩
  · rw [if_neg hat]
    refine ⟨⟨h.boundary, fun q hq hlt => ?_, fun a b => ?_⟩, ?_, Nat.le_refl _⟩
    · have hlt' : q.lo < st.committed := hlt
      rw [hother q hq (by omega)]
      exact h.below q hq hlt'
    · show (st.pending.insert r.lo r.hi).lookup a = some b ↔
        ∃ q ∈ rs, q.lo = a ∧ q.hi = b ∧ st.committed ≤ a ∧ _ = _
      by_cases ha : a = r.lo
      · subst ha
        rw [AList.lookup_insert]
        constructor
        · intro hb
          exact ⟨r, hr, rfl, Option.some.inj hb, hge, setStatus_self _ _ _⟩
        · rintro ⟨q, hq, hlo, rfl, -, -⟩
          rw [htile.eq_of_lo hq hr hlo]
      · rw [AList.lookup_insert_ne ha, h.pending]
        constructor <;> rintro ⟨q, hq, rfl, hb, hle, hwq⟩
        · exact ⟨q, hq, rfl, hb, hle, by rw [hother q hq ha, hwq]⟩
        · exact ⟨q, hq, rfl, hb, hle, by rw [← hother q hq ha, hwq]⟩
    · show (st.pending.insert r.lo r.hi).lookup st.committed = none
      rw [AList.lookup_insert_ne (Ne.symm hat)]
      exact h.stuck

theorem insertRegion_frame (st : State) (start endAt : Nat) :
    (insertRegion st start endAt).durable = st.durable ∧
      (insertRegion st start endAt).syncing = st.syncing ∧
      (insertRegion st start endAt).waiters = st.waiters ∧
      (insertRegion st start endAt).poison = st.poison ∧
      (insertRegion st start endAt).flushFailed = st.flushFailed := by
  unfold insertRegion
  split
  · exact drain_frame _
  · exact ⟨rfl, rfl, rfl, rfl, rfl⟩

/-- A write that ended well. -/
theorem Tracks.markWritten (htile : Tiles base rs t) (h : Tracks base rs status st)
    {r : Span} (hr : r ∈ rs) (hfl : status r.lo = .inflight) :
    Tracks base rs (setStatus status r.lo .written) (markWritten st r.lo r.hi).1 := by
  obtain ⟨hfold, hstuck, hle⟩ := h.folds_insertRegion htile hr hfl
  obtain ⟨hdur, -, -, hpoison, -⟩ := insertRegion_frame st r.lo r.hi
  refine { toFolds := hfold, stuck := hstuck, durable_le := ?_, poison_le := ?_, poison_mem := ?_ }
  · show (insertRegion st r.lo r.hi).durable ≤ (insertRegion st r.lo r.hi).committed
    rw [hdur]
    exact Nat.le_trans h.durable_le hle
  · intro q hq hfail
    have hne : q.lo ≠ r.lo := fun he => by
      rw [he, setStatus_self] at hfail
      cases hfail
    rw [setStatus_ne _ _ hne] at hfail
    show ∃ p, (insertRegion st r.lo r.hi).poison = some p ∧ p ≤ q.lo
    rw [hpoison]
    exact h.poison_le q hq hfail
  · intro p hp
    have hp' : st.poison = some p := by rw [← hpoison]; exact hp
    obtain ⟨q, hq, hlo, hfail⟩ := h.poison_mem p hp'
    have hne : p ≠ r.lo := fun he => by rw [he, hfl] at hfail; cases hfail
    exact ⟨q, hq, hlo, by rw [setStatus_ne _ _ hne, hfail]⟩

/-- A write that failed: the poison is the lower of the old one and this start. -/
theorem Tracks.markFailed (h : Tracks base rs status st) {r : Span} (hr : r ∈ rs)
    (hfl : status r.lo = .inflight) :
    Tracks base rs (setStatus status r.lo .failed) (markFailed st r.lo).1 := by
  have hge : st.committed ≤ r.lo := h.committed_le hr (by rw [hfl]; decide)
  have hkeep : ∀ a, status a = .written → setStatus status r.lo .failed a = .written := by
    intro a ha
    rw [setStatus_ne _ _ (fun he => by rw [he, hfl] at ha; cases ha), ha]
  have hback : ∀ a, setStatus status r.lo .failed a = .written → status a = .written := by
    intro a ha
    by_cases he : a = r.lo
    · rw [he, setStatus_self] at ha
      cases ha
    · rwa [setStatus_ne _ _ he] at ha
  refine { boundary := h.boundary, below := fun q hq hlt => hkeep _ (h.below q hq hlt),
           pending := fun a b => ?_, stuck := h.stuck, durable_le := h.durable_le,
           poison_le := ?_, poison_mem := ?_ }
  · rw [show (Commit.markFailed st r.lo).1.pending.lookup a = st.pending.lookup a from rfl,
      h.pending]
    constructor <;> rintro ⟨q, hq, hlo, hb, hle, hw⟩
    · exact ⟨q, hq, hlo, hb, hle, hkeep a hw⟩
    · exact ⟨q, hq, hlo, hb, hle, hback a hw⟩
  · intro q hq hfail
    refine ⟨_, rfl, ?_⟩
    by_cases he : q.lo = r.lo
    · cases hp : st.poison with
      | none => exact Nat.le_of_eq he.symm
      | some p => exact Nat.le_trans (Nat.min_le_right p r.lo) (Nat.le_of_eq he.symm)
    · rw [setStatus_ne _ _ he] at hfail
      obtain ⟨p, hp, hle⟩ := h.poison_le q hq hfail
      rw [hp]
      exact Nat.le_trans (Nat.min_le_left p r.lo) hle
  · intro p hp
    have hp' : st.poison.elim r.lo (fun p => min p r.lo) = p := Option.some.inj hp
    by_cases hpr : p = r.lo
    · exact ⟨r, hr, hpr.symm, by rw [hpr, setStatus_self]⟩
    · cases hold : st.poison with
      | none =>
          rw [hold] at hp'
          exact absurd hp'.symm hpr
      | some p0 =>
          rw [hold] at hp'
          have hmin : min p0 r.lo = p := hp'
          have hp0 : p0 = p := by omega
          obtain ⟨q, hq, hlo, hfail⟩ := h.poison_mem p (by rw [hold, hp0])
          exact ⟨q, hq, hlo, by rw [setStatus_ne _ _ hpr, hfail]⟩

/-- Reserving the next range. -/
theorem Tracks.reserve (htile : Tiles base rs t) (h : Tracks base rs status st) {r : Span}
    (hlo : r.lo = t) : Tracks base (rs ++ [r]) (setStatus status r.lo .inflight) st := by
  have hold : ∀ q ∈ rs, setStatus status r.lo .inflight q.lo = status q.lo := by
    intro q hq
    have := htile.bounds hq
    exact setStatus_ne _ _ (by omega)
  have hcom := h.committed_le_end htile
  refine { boundary := ?_, below := ?_, pending := fun a b => ?_, stuck := h.stuck,
           durable_le := h.durable_le, poison_le := ?_, poison_mem := ?_ }
  · rcases h.boundary with heq | ⟨q, hq, heq⟩
    · exact Or.inl heq
    · exact Or.inr ⟨q, List.mem_append_left _ hq, heq⟩
  · intro q hq hlt
    rcases List.mem_append.mp hq with hq | hq
    · rw [hold q hq]
      exact h.below q hq hlt
    · rw [List.mem_singleton.mp hq] at hlt
      omega
  · rw [h.pending]
    constructor
    · rintro ⟨q, hq, rfl, hb, hle, hw⟩
      exact ⟨q, List.mem_append_left _ hq, rfl, hb, hle, by rw [hold q hq, hw]⟩
    · rintro ⟨q, hq, rfl, hb, hle, hw⟩
      rcases List.mem_append.mp hq with hq | hq
      · exact ⟨q, hq, rfl, hb, hle, by rw [← hold q hq, hw]⟩
      · rw [List.mem_singleton.mp hq, setStatus_self] at hw
        cases hw
  · intro q hq hfail
    rcases List.mem_append.mp hq with hq | hq
    · rw [hold q hq] at hfail
      exact h.poison_le q hq hfail
    · rw [List.mem_singleton.mp hq, setStatus_self] at hfail
      cases hfail
  · intro p hp
    obtain ⟨q, hq, hlo', hfail⟩ := h.poison_mem p hp
    exact ⟨q, List.mem_append_left _ hq, hlo', by rw [← hlo', hold q hq, hlo', hfail]⟩

/-- A change of the flags under the lock, and of the durable watermark as long as
it stays below the other one. -/
theorem Tracks.of_eq {st' : State} (h : Tracks base rs status st)
    (hc : st'.committed = st.committed) (hp : st'.pending = st.pending)
    (hpo : st'.poison = st.poison) (hd : st'.durable ≤ st.committed) :
    Tracks base rs status st' where
  boundary := by rw [hc]; exact h.boundary
  below := by rw [hc]; exact h.below
  pending := by rw [hc, hp]; exact h.pending
  stuck := by rw [hc, hp]; exact h.stuck
  durable_le := by rw [hc]; exact hd
  poison_le := by rw [hpo]; exact h.poison_le
  poison_mem := by rw [hpo]; exact h.poison_mem

/-- A log all of whose ranges are written, with both watermarks at its end: what
opening and truncating leave. -/
theorem Tracks.of_all_written {st : State} (htile : Tiles base rs t)
    (hall : ∀ r ∈ rs, status r.lo = .written)
    (hc : st.committed = t) (hp : st.pending = ∅) (hpo : st.poison = none)
    (hd : st.durable ≤ t) : Tracks base rs status st where
  boundary := by rw [hc]; exact htile.end_boundary
  below r hr _ := hall r hr
  pending a b := by
    rw [hp, AList.lookup_empty]
    constructor
    · intro h
      cases h
    · rintro ⟨r, hr, rfl, -, hle, -⟩
      have := htile.bounds hr
      omega
  stuck := by rw [hp, AList.lookup_empty]
  durable_le := by rw [hc]; exact hd
  poison_le r hr hfail := by
    rw [hall r hr] at hfail
    cases hfail
  poison_mem p hpp := by
    rw [hpo] at hpp
    cases hpp

end Commit
end WalDb
