/-
The watermarks of the commit lock, in any order of completion.

The ranges tile `[c0, cn)` and each is marked at most once.  What the marks so far
have made of a range is its status, and that is all the watermark and the pending
regions depend on.  The invariant says so, and what the callers add to it: one leader
at a time, whose flush covers no more than the watermark, and no success above the
durable watermark.
-/
import Mathlib.Order.Bounds.Basic
import WalDb.Group.Machine

namespace WalDb

open Lib Commit

/-! ## What the marks so far have made of the ranges -/

namespace Move

/-- The start of the range a move marks. -/
def marks : Move → Option Nat
  | .written start _ => some start
  | .failed start => some start
  | _ => none

/-- The status of every range after one more move. -/
def track (status : Nat → Status) : Move → Nat → Status
  | .written start _ => setStatus status start .written
  | .failed start => setStatus status start .failed
  | _ => status

end Move

/-- The status of every range after the moves. -/
def statusOf (moves : List Move) : Nat → Status := moves.foldl Move.track fun _ => .inflight

/-- Every mark is on a range of the tiling, and no range is marked twice. -/
structure Marks (rs : List Span) (moves : List Move) : Prop where
  written : ∀ start endAt, .written start endAt ∈ moves → ⟨start, endAt⟩ ∈ rs
  failed : ∀ start, .failed start ∈ moves → ∃ r ∈ rs, r.lo = start
  distinct : (moves.filterMap Move.marks).Nodup

/-- The end of the longest run of written ranges that starts at `b`. -/
def runEnd (status : Nat → Status) : Nat → List Span → Nat
  | b, [] => b
  | b, r :: rs => if status r.lo = .written then runEnd status r.hi rs else b

theorem statusOf_append (moves : List Move) (m : Move) :
    statusOf (moves ++ [m]) = m.track (statusOf moves) := by
  unfold statusOf
  rw [List.foldl_append]
  rfl

theorem statusOf_unmarked {moves : List Move} {a : Nat} (h : a ∉ moves.filterMap Move.marks) :
    statusOf moves a = .inflight := by
  have hkeep : ∀ status : Nat → Status, moves.foldl Move.track status a = status a := by
    induction moves with
    | nil => exact fun _ => rfl
    | cons m moves ih =>
        intro status
        have hrest : a ∉ moves.filterMap Move.marks := fun hmem =>
          h (List.mem_filterMap.mpr (by
            obtain ⟨x, hx, hxa⟩ := List.mem_filterMap.mp hmem
            exact ⟨x, List.mem_cons_of_mem _ hx, hxa⟩))
        have hm : m.marks ≠ some a := fun hma =>
          h (List.mem_filterMap.mpr ⟨m, List.mem_cons_self, hma⟩)
        rw [List.foldl_cons, ih hrest]
        cases m with
        | written start endAt => exact setStatus_ne _ _ fun heq => hm (congrArg some heq.symm)
        | failed start => exact setStatus_ne _ _ fun heq => hm (congrArg some heq.symm)
        | _ => rfl
  exact hkeep _

namespace Marks

variable {rs : List Span} {moves : List Move} {m : Move}

theorem init (h : Marks rs (moves ++ [m])) : Marks rs moves where
  written a b hmem := h.written a b (List.mem_append_left _ hmem)
  failed a hmem := h.failed a (List.mem_append_left _ hmem)
  distinct := by
    have := h.distinct
    rw [List.filterMap_append] at this
    exact this.of_append_left

/-- A range that is marked next has not been marked before. -/
theorem fresh (h : Marks rs (moves ++ [m])) {a : Nat} (hm : m.marks = some a) :
    statusOf moves a = .inflight := by
  apply statusOf_unmarked
  have hdistinct := h.distinct
  have hlast : [m].filterMap Move.marks = [a] := by simp [hm]
  rw [List.filterMap_append, hlast] at hdistinct
  intro hmem
  exact List.disjoint_of_nodup_append hdistinct hmem List.mem_cons_self

end Marks

/-! ## The watermark is the end of the longest run -/

section Tracks

variable {base t : Nat} {rs : List Span} {status : Nat → Status} {st : State}

/-- The range at the watermark is not written. -/
theorem Commit.Tracks.not_written (h : Tracks base rs status st) {r : Span} (hr : r ∈ rs)
    (hlo : r.lo = st.committed) : status r.lo ≠ .written := by
  intro hw
  have hpending := (h.pending r.lo r.hi).mpr ⟨r, hr, rfl, rfl, Nat.le_of_eq hlo.symm, hw⟩
  rw [hlo, h.stuck] at hpending
  cases hpending

theorem eq_runEnd {c : Nat} (htile : Tiles base rs t) (hboundary : c = base ∨ ∃ r ∈ rs, r.hi = c)
    (hbelow : ∀ r ∈ rs, r.lo < c → status r.lo = .written)
    (hstuck : ∀ r ∈ rs, r.lo = c → status r.lo ≠ .written) : c = runEnd status base rs := by
  induction rs generalizing base with
  | nil =>
      rcases hboundary with heq | ⟨r, hr, -⟩
      · exact heq
      · cases hr
  | cons r rs ih =>
      obtain ⟨hlo, hlt, hrest⟩ := htile
      rw [runEnd]
      by_cases hc : c = base
      · rw [if_neg (hstuck r List.mem_cons_self (hlo.trans hc.symm)), hc]
      · -- The watermark is past the first range, which is then written.
        have hpast : c = r.hi ∨ ∃ q ∈ rs, q.hi = c := by
          rcases hboundary with heq | ⟨q, hq, heq⟩
          · exact absurd heq hc
          · rcases List.mem_cons.mp hq with hqr | hq
            · exact Or.inl (hqr ▸ heq.symm)
            · exact Or.inr ⟨q, hq, heq⟩
        have hge : r.hi ≤ c := by
          rcases hpast with heq | ⟨q, hq, heq⟩
          · omega
          · have := hrest.bounds hq
            omega
        rw [if_pos (hbelow r List.mem_cons_self (by omega))]
        exact ih hrest hpast (fun q hq => hbelow q (List.mem_cons_of_mem _ hq))
          fun q hq => hstuck q (List.mem_cons_of_mem _ hq)

theorem Commit.Tracks.committed_eq (htile : Tiles base rs t) (h : Tracks base rs status st) :
    st.committed = runEnd status base rs :=
  eq_runEnd htile h.boundary h.below fun _ hr hlo => h.not_written hr hlo

theorem runEnd_congr {status' : Nat → Status}
    (h : ∀ r ∈ rs, status' r.lo = .written ↔ status r.lo = .written) :
    runEnd status' base rs = runEnd status base rs := by
  induction rs generalizing base with
  | nil => rfl
  | cons r rs ih =>
      simp only [runEnd, h r List.mem_cons_self]
      rw [ih fun q hq => h q (List.mem_cons_of_mem _ hq)]

/-- A failed range starts at or above the watermark. -/
theorem Commit.Tracks.committed_le_failed (h : Tracks base rs status st) {r : Span} (hr : r ∈ rs)
    (hfail : status r.lo = .failed) : st.committed ≤ r.lo :=
  h.committed_le hr (by rw [hfail]; decide)

theorem Commit.Tracks.poison_isLeast (h : Tracks base rs status st) (p : Nat) :
    st.poison = some p ↔ IsLeast {a | ∃ r ∈ rs, r.lo = a ∧ status a = .failed} p := by
  constructor
  · intro hp
    refine ⟨h.poison_mem p hp, ?_⟩
    rintro a ⟨r, hr, rfl, hfail⟩
    obtain ⟨q, hq, hle⟩ := h.poison_le r hr hfail
    rw [hp] at hq
    cases hq
    exact hle
  · rintro ⟨⟨r, hr, rfl, hfail⟩, hleast⟩
    obtain ⟨q, hq, hle⟩ := h.poison_le r hr hfail
    rw [hq, Nat.le_antisymm hle (hleast (h.poison_mem q hq))]

end Tracks

/-! ## The invariant of the callers -/

namespace Group

/-- The state agrees with the ranges, and the callers with the state. -/
structure Inv (base : Nat) (rs : List Span) (status : Nat → Status) (g : Group) : Prop
    extends Led g where
  tracks : Tracks base rs status g.st
  covers : ∀ i, (g.callers i).flushTo ≤ g.st.committed
  acks : ∀ target, (target, .ok ()) ∈ g.results → target ≤ g.st.durable

variable {base t : Nat} {rs : List Span} {status : Nat → Status} {g g' : Group}

theorem new_inv (htile : Tiles base rs t) : Inv base rs (fun _ => .inflight) (new base) where
  toLed := new_led base
  tracks :=
    { boundary := Or.inl rfl
      below := fun r hr hlt => by
        have := htile.bounds hr
        have hlt' : r.lo < base := hlt
        omega
      pending := fun a b => by simp [new, Commit.new]
      stuck := AList.lookup_empty _
      durable_le := Nat.le_refl _
      poison_le := fun _ _ h => by cases h
      poison_mem := fun _ h => by cases h }
  covers _ := Nat.zero_le _
  acks _ h := absurd h List.not_mem_nil

/-- A caller moves, under a state that differs in nothing the ranges are about. -/
theorem Inv.place (h : Inv base rs status g) {i : Nat} {c : Caller} {st : State}
    {results : List (Nat × Except WalError Unit)} {flushes : Nat}
    (hled : Led { g.place i c with st := st, results := results, flushes := flushes })
    (htracks : Tracks base rs status st) (hcom : st.committed = g.st.committed)
    (hdur : st.durable = g.st.durable) (hto : c.flushTo ≤ g.st.committed)
    (hacks : ∀ target, (target, .ok ()) ∈ results →
      (target, .ok ()) ∈ g.results ∨ target ≤ g.st.durable) :
    Inv base rs status { g.place i c with st := st, results := results, flushes := flushes } := by
  refine { toLed := hled, tracks := htracks, covers := fun j => ?_, acks := fun target hT => ?_ }
  · show ((g.place i c).callers j).flushTo ≤ st.committed
    rw [hcom]
    exact place_forall g (fun _ c => c.flushTo ≤ g.st.committed) hto (fun j _ => h.covers j) j
  · show target ≤ st.durable
    rw [hdur]
    exact (hacks target hT).elim (h.acks target) id

/-- A round of `sync_to` by a caller that does not lead. -/
theorem Inv.round (h : Inv base rs status g) {i : Nat} (target : Nat)
    (hi : (g.callers i).leads = false) : Inv base rs status (g.round i target) := by
  have hled := h.toLed.round target hi
  unfold Group.round at hled ⊢
  rcases syncCheck_cases g.st target with ⟨e, heq⟩ | ⟨heq, hle⟩ | ⟨heq, -, -, -⟩ | heq
  all_goals rw [heq] at hled ⊢
  · refine h.place hled h.tracks rfl rfl (Nat.zero_le _) fun T hT => Or.inl ?_
    rcases List.mem_cons.mp hT with hcons | hT
    · cases hcons
    · exact hT
  · refine h.place hled h.tracks rfl rfl (Nat.zero_le _) fun T hT => ?_
    rcases List.mem_cons.mp hT with hcons | hT
    · cases hcons
      exact Or.inr hle
    · exact Or.inl hT
  · exact h.place hled (h.tracks.of_eq rfl rfl rfl h.tracks.durable_le) rfl rfl (Nat.le_refl _)
      fun _ => Or.inl
  · exact h.place hled (h.tracks.of_eq rfl rfl rfl h.tracks.durable_le) rfl rfl (Nat.zero_le _)
      fun _ => Or.inl

/-- The leader takes the lock again. -/
theorem Inv.relock (h : Inv base rs status g) {i target flushTo : Nat}
    {result : Except WalError Unit} (hi : g.callers i = .relocking target flushTo result)
    (flushed : Bool) :
    Inv base rs status
      ({ g with st := afterFlush g.st flushTo flushed }.notifyAll.place i .away) := by
  have hcovers : flushTo ≤ g.st.committed := by
    have := h.covers i
    rwa [hi] at this
  obtain ⟨hcom, hpending, hpoison, -, -⟩ := afterFlush_frame g.st flushTo flushed
  have hdur := h.tracks.durable_le
  have hdurable : (afterFlush g.st flushTo flushed).durable ≤ g.st.committed ∧
      g.st.durable ≤ (afterFlush g.st flushTo flushed).durable := by
    rw [afterFlush_eq]
    cases flushed
    · exact ⟨hdur, Nat.le_refl _⟩
    · exact ⟨Nat.max_le.mpr ⟨hdur, hcovers⟩, Nat.le_max_left _ _⟩
  refine { toLed := h.toLed.relock (by rw [hi]; rfl) rfl flushTo flushed,
           tracks := h.tracks.of_eq hcom hpending hpoison hdurable.1, covers := fun j => ?_,
           acks := fun T hT => Nat.le_trans (h.acks T hT) hdurable.2 }
  refine place_forall _ (fun _ c => c.flushTo ≤ (afterFlush g.st flushTo flushed).committed)
    (Nat.zero_le _) (fun k _ => ?_) j
  show (g.callers k).notified.flushTo ≤ (afterFlush g.st flushTo flushed).committed
  rw [hcom, Caller.notified_flushTo]
  exact h.covers k

/-- A mark, once the watermark agrees with the new status. -/
theorem Inv.settle (h : Inv base rs status g) {status' : Nat → Status} {r : State × Bool}
    (hled : Led (g.settle r)) (htracks : Tracks base rs status' r.1)
    (hdur : r.1.durable = g.st.durable) (hcom : g.st.committed ≤ r.1.committed) :
    Inv base rs status' (g.settle r) := by
  have hto : ∀ j, ((g.settle r).callers j).flushTo = (g.callers j).flushTo := by
    intro j
    rw [settle_callers]
    cases r.2 <;> simp
  refine { toLed := hled, tracks := ?_, covers := fun j => ?_, acks := ?_ }
  · rw [settle_st]
    exact htracks
  · rw [hto, settle_st]
    exact Nat.le_trans (h.covers j) hcom
  · rw [settle_results, settle_st, hdur]
    exact h.acks

/-- Every move keeps the invariant, with the status it leaves. -/
theorem Inv.step (htile : Tiles base rs t) {moves : List Move} {m : Move}
    (h : Inv base rs (statusOf moves) g) (hmarks : Marks rs (moves ++ [m]))
    (hstep : step g m = some g') : Inv base rs (statusOf (moves ++ [m])) g' := by
  have hled := h.toLed.step hstep
  rw [statusOf_append]
  cases takes_of_step hstep with
  | @written start endAt =>
      have hr := hmarks.written start endAt (List.mem_append_right _ List.mem_cons_self)
      have hfl := hmarks.fresh (a := start) rfl
      obtain ⟨hdur, -⟩ := insertRegion_frame g.st start endAt
      obtain ⟨-, -, hcom⟩ := h.tracks.folds_insertRegion htile hr hfl
      exact h.settle hled (h.tracks.markWritten htile hr hfl) hdur hcom
  | @failed start =>
      obtain ⟨r, hr, rfl⟩ := hmarks.failed start (List.mem_append_right _ List.mem_cons_self)
      have hfl := hmarks.fresh (a := r.lo) rfl
      exact h.settle hled (h.tracks.markFailed hr hfl) rfl (Nat.le_refl _)
  | call hi => exact h.round _ (by rw [hi]; rfl)
  | @flush i target flushTo result hi =>
      have hto : flushTo ≤ g.st.committed := by
        have := h.covers i
        rwa [hi] at this
      exact h.place hled h.tracks rfl rfl hto fun _ => Or.inl
  | @relockOk i target flushTo hi =>
      rw [← round_place _ i target .away]
      exact (h.relock hi true).round target (by rw [place_self]; rfl)
  | relockErr hi =>
      refine { h.relock hi false with acks := fun T hT => ?_ }
      rcases List.mem_cons.mp hT with hcons | hT
      · cases hcons
      · exact (h.relock hi false).acks T hT
  | spurious => exact h.place hled h.tracks rfl rfl (Nat.zero_le _) fun _ => Or.inl
  | @wake i target hi =>
      refine Inv.round (g := { g with st := afterWait g.st }) ?_ target (by rw [hi]; rfl)
      exact { toLed := h.toLed.of_eq (fun _ => rfl) rfl, covers := h.covers, acks := h.acks,
              tracks := h.tracks.of_eq rfl rfl rfl h.tracks.durable_le }

theorem run_inv (htile : Tiles base rs t) {moves : List Move} (hmarks : Marks rs moves)
    (hrun : run Group.step (new base) moves = some g) : Inv base rs (statusOf moves) g := by
  have hkeep : ∀ done g m g', (Marks rs done → Inv base rs (statusOf done) g) →
      Group.step g m = some g' → Marks rs (done ++ [m]) →
      Inv base rs (statusOf (done ++ [m])) g' := by
    intro done g m g' hinv hstep hm
    exact (hinv hm.init).step htile hm hstep
  exact run_history (fun done g => Marks rs done → Inv base rs (statusOf done) g) hkeep
    (fun _ => new_inv htile) hrun hmarks

end Group

/-- The state of the commit lock in every interleaving of the marks of a tiling with
any callers of `sync_to`, from a fresh coordinator:

* the watermark is the end of the longest run of written ranges, and the pending
  regions are the written ranges at or above it;
* `durable ≤ committed ≤ poison`, and the poison is the smallest failed start;
* at most one caller is the flush leader, and `syncing` is set exactly while one is;
* a caller was told success only for a target within the durable watermark, which
  lies at or below every failed start;
* two runs that have written the same ranges, in whatever order, agree on the
  watermark and on the pending regions. -/
theorem group_commit_invariant (c0 cn : Nat) (rs : List Span) (htile : Tiles c0 rs cn)
    (moves : List Move) (hmarks : Marks rs moves) (g : Group)
    (hrun : run Group.step (Group.new c0) moves = some g) :
    let status := statusOf moves
    g.st.committed = runEnd status c0 rs ∧
    (∀ a b, g.st.pending.lookup a = some b ↔
      ∃ r ∈ rs, r.lo = a ∧ r.hi = b ∧ g.st.committed ≤ a ∧ status a = .written) ∧
    g.st.durable ≤ g.st.committed ∧ (∀ p, g.st.poison = some p → g.st.committed ≤ p) ∧
    (∀ p, g.st.poison = some p ↔ IsLeast {a | ∃ r ∈ rs, r.lo = a ∧ status a = .failed} p) ∧
    (∀ i j, (g.callers i).leads = true → (g.callers j).leads = true → i = j) ∧
    (g.st.syncing = true ↔ ∃ i, (g.callers i).leads = true) ∧
    (∀ target, (target, .ok ()) ∈ g.results →
      target ≤ g.st.durable ∧ ∀ r ∈ rs, status r.lo = .failed → target ≤ r.lo) ∧
    ∀ moves' g', Marks rs moves' → run Group.step (Group.new c0) moves' = some g' →
      (∀ r ∈ rs, statusOf moves' r.lo = .written ↔ status r.lo = .written) →
      g'.st.committed = g.st.committed ∧ ∀ a, g'.st.pending.lookup a = g.st.pending.lookup a := by
  intro status
  have h := Group.run_inv htile hmarks hrun
  refine ⟨h.tracks.committed_eq htile, h.tracks.pending, h.tracks.durable_le, ?_,
    h.tracks.poison_isLeast, h.leader, h.syncing, ?_, ?_⟩
  · intro p hp
    obtain ⟨r, hr, rfl, hfail⟩ := h.tracks.poison_mem p hp
    exact h.tracks.committed_le_failed hr hfail
  · intro target hok
    have hle := h.acks target hok
    refine ⟨hle, fun r hr hfail => ?_⟩
    have := h.tracks.committed_le_failed hr hfail
    have := h.tracks.durable_le
    omega
  · intro moves' g' hmarks' hrun' hsame
    have h' := Group.run_inv htile hmarks' hrun'
    have hcommitted : g'.st.committed = g.st.committed := by
      rw [h'.tracks.committed_eq htile, h.tracks.committed_eq htile]
      exact runEnd_congr hsame
    refine ⟨hcommitted, fun a => Option.ext fun b => ?_⟩
    rw [h'.tracks.pending, h.tracks.pending, hcommitted]
    constructor
    · rintro ⟨r, hr, rfl, hb, hle, hw⟩
      exact ⟨r, hr, rfl, hb, hle, (hsame r hr).mp hw⟩
    · rintro ⟨r, hr, rfl, hb, hle, hw⟩
      exact ⟨r, hr, rfl, hb, hle, (hsame r hr).mpr hw⟩

/-- Three ranges.  The third completes first, a caller waits for the first, leads the
flush once it is written, and the second fails while the flush runs. -/
theorem group_commit_invariant_out_of_order :
    ∃ g, run Group.step (Group.new 0) [.written 20 30, .call 0 10, .written 0 10, .wake 0,
        .flush 0 (.ok ()), .failed 10, .relock 0] = some g ∧
      g.results = [(10, .ok ())] ∧ 10 ≤ g.st.durable ∧ g.st.durable ≤ 10 ∧
      g.st.pending.lookup 20 = some 30 ∧ g.st.poison = some 10 := by
  have heval : (run Group.step (Group.new 0) [.written 20 30, .call 0 10, .written 0 10, .wake 0,
      .flush 0 (.ok ()), .failed 10, .relock 0]).map Group.results = some [(10, .ok ())] := by
    decide +kernel
  obtain ⟨g, hrun, hresults⟩ := Option.map_eq_some_iff.mp heval
  obtain ⟨hcommitted, hpending, hdurable, -, hpoison, -, -, hok, -⟩ :=
    group_commit_invariant 0 30 [⟨0, 10⟩, ⟨10, 20⟩, ⟨20, 30⟩] (by decide) _
      ⟨fun a b h => by simp at h ⊢; omega, by simp, by decide⟩ g hrun
  have hend : g.st.committed = 10 := hcommitted
  refine ⟨g, hrun, hresults, (hok 10 (by rw [hresults]; exact List.mem_cons_self)).1,
    hend ▸ hdurable, (hpending 20 30).mpr ⟨⟨20, 30⟩, by simp, rfl, rfl, by omega, rfl⟩,
    (hpoison 10).mpr ⟨⟨⟨10, 20⟩, by simp, rfl, rfl⟩, ?_⟩⟩
  rintro a ⟨r, hr, rfl, hfail⟩
  simp only [List.mem_cons, List.not_mem_nil, or_false] at hr
  rcases hr with rfl | rfl | rfl
  · cases hfail
  · exact Nat.le_refl _
  · cases hfail

end WalDb
