/-
No caller of `sync_to` is left waiting for a notification that never comes.

A mark notifies only if the counter says that somebody waits, so the counter has to
be exact.  Given that, a caller that is blocked un-notified is one that would block
again if it looked: every section that could change its mind notifies all.  Once all
ranges are marked and nobody leads, nothing is left that a caller could block on.
-/
import Mathlib.Data.Finset.Card
import WalDb.Group.Watermarks

namespace WalDb

open Lib Commit

/-- When a round of `sync_to` ends in a wait: no failed range below the target, no
failed flush, the target not durable, and a gap below it or a leader at work. -/
theorem Commit.syncCheck_wait_iff (st : State) (target : Nat) :
    (syncCheck st target).2 = .wait ↔
      st.poison.filter (· < target) = none ∧ st.durable < target ∧ st.flushFailed = false ∧
        (st.committed < target ∨ st.syncing = true) := by
  unfold syncCheck
  cases st.poison.filter (· < target) with
  | some p => simp
  | none =>
      by_cases hd : target ≤ st.durable
      · simp [hd, Nat.not_lt.mpr hd]
      · cases hf : st.flushFailed with
        | true => simp [hd]
        | false =>
            by_cases hc : target ≤ st.committed
            · cases hs : st.syncing <;> simp [hd, hc, Nat.not_le.mp hd]
            · simp [hd, hc, Nat.not_le.mp hd, Nat.not_le.mp hc]

/-- What a caller has asked for. -/
def Caller.target : Caller → Nat
  | .away => 0
  | .flushing target _ => target
  | .relocking target _ _ => target
  | .waiting target => target
  | .woken target => target

@[simp] theorem Caller.notified_target (c : Caller) : c.notified.target = c.target := by
  cases c <;> rfl

/-- Targets stay at or below `limit`. -/
def Move.Within (limit : Nat) : Move → Prop
  | .call _ target => target ≤ limit
  | _ => True

namespace Group

/-- The waiters are counted, and one that has not been notified would wait again. -/
structure Queue (limit : Nat) (g : Group) : Prop where
  counted : ∃ ids : Finset Nat, (∀ i, i ∈ ids ↔ (g.callers i).queued = true) ∧
    g.st.waiters = ids.card
  blocked : ∀ i target, g.callers i = .waiting target → (syncCheck g.st target).2 = .wait
  bounded : ∀ i, (g.callers i).target ≤ limit

variable {limit : Nat} {g g' : Group}

theorem new_queue (recovered limit : Nat) : Queue limit (new recovered) where
  counted := ⟨∅, by simp [new, Caller.queued], rfl⟩
  blocked _ _ h := by cases h
  bounded _ := Nat.zero_le _

/-- With the counter at zero nobody waits. -/
theorem Queue.none_waiting (h : Queue limit g) (hzero : g.st.waiters = 0) (i target : Nat) :
    g.callers i ≠ .waiting target := by
  intro hi
  obtain ⟨ids, hids, hcard⟩ := h.counted
  have hempty : ids = ∅ := Finset.card_eq_zero.mp (hcard.symm.trans hzero)
  have hmem : i ∈ ids := (hids i).mpr (by rw [hi]; rfl)
  rw [hempty] at hmem
  exact absurd hmem (Finset.notMem_empty i)

/-- A section that leaves nobody waiting un-notified. -/
theorem Queue.of_notified (h : Queue limit g) (hwaiters : g'.st.waiters = g.st.waiters)
    (hqueued : ∀ i, (g'.callers i).queued = (g.callers i).queued)
    (htarget : ∀ i, (g'.callers i).target ≤ limit)
    (hnone : ∀ i target, g'.callers i ≠ .waiting target) : Queue limit g' where
  counted := by
    obtain ⟨ids, hids, hcard⟩ := h.counted
    exact ⟨ids, fun i => by rw [hids, hqueued], hwaiters.trans hcard⟩
  blocked i target hi := absurd hi (hnone i target)
  bounded := htarget

/-- A mark: whoever waits is notified, since the counter is exact. -/
theorem Queue.settle (h : Queue limit g) {r : State × Bool} (hwaiters : r.1.waiters = g.st.waiters)
    (hflag : r.2 = decide (0 < r.1.waiters)) : Queue limit (g.settle r) := by
  refine h.of_notified (by rw [settle_st, hwaiters]) (fun i => ?_) (fun i => ?_) fun i target => ?_
  · rw [settle_callers]
    cases r.2 <;> simp
  · rw [settle_callers]
    have := h.bounded i
    cases r.2 <;> simp [this]
  · rw [settle_callers]
    by_cases hpos : 0 < r.1.waiters
    · rw [hflag, decide_eq_true hpos]
      exact Caller.notified_ne_waiting _ _
    · rw [hflag, decide_eq_false hpos]
      exact h.none_waiting (by omega) i target

/-- A caller moves without entering or leaving the queue, and does not start to wait. -/
theorem Queue.place (h : Queue limit g) {i : Nat} {c : Caller} {st : State}
    {results : List (Nat × Except WalError Unit)} {flushes : Nat}
    (hqueued : c.queued = (g.callers i).queued) (hwaiting : ∀ target, c ≠ .waiting target)
    (hle : c.target ≤ limit) (hwaiters : st.waiters = g.st.waiters)
    (hblocked : ∀ target, (syncCheck g.st target).2 = .wait → (syncCheck st target).2 = .wait) :
    Queue limit { g.place i c with st := st, results := results, flushes := flushes } where
  counted := by
    obtain ⟨ids, hids, hcard⟩ := h.counted
    refine ⟨ids, ?_, hwaiters.trans hcard⟩
    exact place_forall g (fun j c => j ∈ ids ↔ c.queued = true) (by rw [hids, hqueued])
      fun j _ => hids j
  blocked := by
    refine place_forall g (fun _ c => ∀ T, c = .waiting T → (syncCheck st T).2 = .wait) ?_ ?_
    · exact fun T hT => absurd hT (hwaiting T)
    · exact fun j _ T hT => hblocked T (h.blocked j T hT)
  bounded := place_forall g (fun _ c => c.target ≤ limit) hle fun j _ => h.bounded j

/-- A caller outside the queue starts to wait. -/
theorem Queue.enqueue (h : Queue limit g) {i target : Nat} (hi : (g.callers i).queued = false)
    (hle : target ≤ limit) (hwait : (syncCheck g.st target).2 = .wait) :
    Queue limit ({ g with st := { g.st with waiters := g.st.waiters + 1 } }.place i
      (.waiting target)) := by
  -- The counter is not among the things a round looks at.
  have hsame : ∀ T, (syncCheck g.st T).2 = .wait →
      (syncCheck { g.st with waiters := g.st.waiters + 1 } T).2 = .wait := by
    intro T hT
    rw [syncCheck_wait_iff] at hT ⊢
    exact hT
  obtain ⟨ids, hids, hcard⟩ := h.counted
  have hmem : i ∉ ids := by rw [hids, hi]; exact Bool.false_ne_true
  refine ⟨⟨insert i ids, ?_, ?_⟩, ?_, ?_⟩
  · refine place_forall _ (fun j c => j ∈ insert i ids ↔ c.queued = true) ?_ ?_
    · simp [Caller.queued]
    · intro j hj
      rw [Finset.mem_insert, hids]
      simp [hj]
  · rw [Finset.card_insert_of_notMem hmem, ← hcard]
    rfl
  · refine place_forall _ (fun _ c => ∀ T, c = .waiting T →
      (syncCheck { g.st with waiters := g.st.waiters + 1 } T).2 = .wait) ?_ ?_
    · intro T hT
      cases hT
      exact hsame target hwait
    · exact fun j _ T hT => hsame T (h.blocked j T hT)
  · exact place_forall _ (fun _ c => c.target ≤ limit) hle fun j _ => h.bounded j

/-- A round by a caller outside the queue. -/
theorem Queue.round (h : Queue limit g) {i target : Nat} (hi : (g.callers i).queued = false)
    (hle : target ≤ limit) : Queue limit (g.round i target) := by
  have haway : ∀ T, Caller.away ≠ .waiting T := fun T heq => by cases heq
  unfold Group.round
  rcases syncCheck_cases g.st target with ⟨e, heq⟩ | ⟨heq, -⟩ | ⟨heq, -, -, -⟩ | heq
  · rw [heq]
    exact h.place hi.symm haway (Nat.zero_le _) rfl fun _ => id
  · rw [heq]
    exact h.place hi.symm haway (Nat.zero_le _) rfl fun _ => id
  · -- A leader at work is one more reason to wait.
    rw [heq]
    refine h.place hi.symm (fun T hT => by cases hT) hle rfl fun T hT => ?_
    obtain ⟨hp, hd, hf, -⟩ := (syncCheck_wait_iff _ _).mp hT
    exact (syncCheck_wait_iff _ _).mpr ⟨hp, hd, hf, Or.inr rfl⟩
  · have hwait : (syncCheck g.st target).2 = .wait := by rw [heq]
    rw [heq]
    exact h.enqueue hi hle hwait

/-- A woken caller takes the lock and leaves the count. -/
theorem Queue.wake (h : Queue limit g) {i target : Nat} (hi : g.callers i = .woken target) :
    Queue limit ({ g with st := afterWait g.st }.place i .away) := by
  obtain ⟨ids, hids, hcard⟩ := h.counted
  have hmem : i ∈ ids := (hids i).mpr (by rw [hi]; rfl)
  refine ⟨⟨ids.erase i, ?_, ?_⟩, ?_, ?_⟩
  · refine place_forall _ (fun j c => j ∈ ids.erase i ↔ c.queued = true) ?_ ?_
    · simp [Caller.queued]
    · intro j hj
      rw [Finset.mem_erase, hids]
      simp [hj]
  · rw [Finset.card_erase_of_mem hmem, ← hcard]
    rfl
  · refine place_forall _ (fun _ c => ∀ T, c = .waiting T →
      (syncCheck (afterWait g.st) T).2 = .wait) (fun T hT => by cases hT) fun j _ T hT => ?_
    have hwait := h.blocked j T hT
    rw [syncCheck_wait_iff] at hwait ⊢
    exact hwait
  · exact place_forall _ (fun _ c => c.target ≤ limit) (Nat.zero_le _) fun j _ => h.bounded j

/-- The leader takes the lock again and notifies everybody. -/
theorem Queue.relock (h : Queue limit g) {i target flushTo : Nat}
    {result : Except WalError Unit} (hi : g.callers i = .relocking target flushTo result)
    (flushed : Bool) :
    Queue limit ({ g with st := afterFlush g.st flushTo flushed }.notifyAll.place i .away) := by
  obtain ⟨-, -, -, hwaiters, -⟩ := afterFlush_frame g.st flushTo flushed
  refine h.of_notified hwaiters ?_ ?_ ?_
  · refine place_forall _ (fun j c => c.queued = (g.callers j).queued) (by rw [hi]; rfl) ?_
    exact fun j _ => Caller.notified_queued _
  · refine place_forall _ (fun _ c => c.target ≤ limit) (Nat.zero_le _) fun j _ => ?_
    exact (Caller.notified_target _).trans_le (h.bounded j)
  · refine place_forall _ (fun _ c => ∀ T, c ≠ .waiting T) (fun T hT => by cases hT) ?_
    exact fun j _ => Caller.notified_ne_waiting _

theorem Queue.step (h : Queue limit g) {m : Move} (hm : m.Within limit)
    (hstep : step g m = some g') : Queue limit g' := by
  have hbound : ∀ {i c}, g.callers i = c → c.target ≤ limit := fun {i c} hi => hi ▸ h.bounded i
  cases takes_of_step hstep with
  | @written start endAt =>
      obtain ⟨-, -, hwaiters, -⟩ := insertRegion_frame g.st start endAt
      exact h.settle hwaiters rfl
  | failed => exact h.settle rfl rfl
  | call hi => exact h.round (by rw [hi]; rfl) hm
  | flush hi | spurious hi =>
      exact h.place (by rw [hi]; rfl) (fun T hT => by cases hT) (hbound hi :) rfl fun _ => id
  | @relockOk i target flushTo hi =>
      rw [← round_place _ i target .away]
      exact (h.relock hi true).round (by rw [place_self]; rfl) (hbound hi :)
  | relockErr hi =>
      have hq := h.relock hi false
      exact ⟨hq.counted, hq.blocked, hq.bounded⟩
  | @wake i target hi =>
      rw [← round_place _ i target .away]
      exact (h.wake hi).round (by rw [place_self]; rfl) (hbound hi :)

theorem run_queue {base : Nat} {moves : List Move} (hwithin : ∀ m ∈ moves, m.Within limit)
    (hrun : run Group.step (new base) moves = some g) : Queue limit g := by
  have hkeep : ∀ g m g', Queue limit g → m.Within limit → Group.step g m = some g' →
      Queue limit g' := fun g m g' h hm hstep => h.step hm hstep
  exact run_along hkeep (new_queue base limit) (Along.of_forall (fun m hm _ => hwithin m hm) _) hrun

end Group

/-- No caller of `sync_to` is stranded.  In every interleaving of the marks of a tiling
of `[c0, cn)` with any callers, whose targets are at most `cn`, and with any writes and
flushes failing:

* a caller that is blocked un-notified would block again if it looked, so it has missed
  nothing, and while the counter is zero no caller is blocked;
* once every range is marked and nobody leads a flush, no caller is blocked at all. -/
theorem no_caller_is_stranded (c0 cn : Nat) (rs : List Span) (htile : Tiles c0 rs cn)
    (moves : List Move) (hmarks : Marks rs moves)
    (htargets : ∀ i target, .call i target ∈ moves → target ≤ cn) (g : Group)
    (hrun : run Group.step (Group.new c0) moves = some g) :
    (∀ i target, g.callers i = .waiting target → (syncCheck g.st target).2 = .wait) ∧
    (g.st.waiters = 0 → ∀ i target, g.callers i ≠ .waiting target) ∧
    ((∀ r ∈ rs, statusOf moves r.lo ≠ .inflight) → (∀ i, (g.callers i).leads = false) →
      ∀ i target, g.callers i ≠ .waiting target) := by
  have hwithin : ∀ m ∈ moves, m.Within cn := by
    intro m hm
    cases m with
    | call i target => exact htargets i target hm
    | _ => trivial
  have hinv := Group.run_inv htile hmarks hrun
  have hqueue := Group.run_queue hwithin hrun
  refine ⟨hqueue.blocked, hqueue.none_waiting, fun hall hnone i target hi => ?_⟩
  obtain ⟨hpoison, -, -, hgap⟩ := (syncCheck_wait_iff _ _).mp (hqueue.blocked i target hi)
  have hle := hqueue.bounded i
  rw [hi] at hle
  rcases hgap with hgap | hsync
  · -- The range at the watermark has failed, and that is below the target.
    have hlt : g.st.committed < cn := Nat.lt_of_lt_of_le hgap hle
    obtain ⟨r, hr, hlo⟩ := htile.exists_lo hinv.tracks.boundary hlt
    have hfailed : statusOf moves r.lo = .failed := by
      have hmarked := hall r hr
      have hnot := hinv.tracks.not_written hr hlo
      cases hst : statusOf moves r.lo with
      | inflight => exact absurd hst hmarked
      | written => exact absurd hst hnot
      | failed => rfl
    obtain ⟨p, hp, hple⟩ := hinv.tracks.poison_le r hr hfailed
    rw [hp, Option.filter_eq_none_iff] at hpoison
    exact hpoison p rfl (decide_eq_true (by omega))
  · obtain ⟨j, hj⟩ := hinv.syncing.mp hsync
    rw [hnone j] at hj
    cases hj

/-- Two ranges.  One caller waits for the first, leads the flush when it is written,
and another waits for the leader.  The flush fails and the second range too. -/
theorem no_caller_is_stranded_flush_failure :
    ∃ g, run Group.step (Group.new 0) [.call 0 20, .written 0 10, .wake 0, .call 1 10,
        .call 2 20, .flush 1 (.error (.io "flushing to stable storage" .os)), .failed 10,
        .relock 1] = some g ∧
      g.results.map Prod.fst = [10] ∧ g.st.waiters = 2 ∧ ∀ i target,
        g.callers i ≠ .waiting target := by
  have heval : (run Group.step (Group.new 0) [.call 0 20, .written 0 10, .wake 0, .call 1 10,
      .call 2 20, .flush 1 (.error (.io "flushing to stable storage" .os)), .failed 10,
      .relock 1]).map (fun g => (g.results.map Prod.fst, g.st.waiters, g.st.syncing)) =
      some ([10], 2, false) := by
    decide +kernel
  obtain ⟨g, hrun, hg⟩ := Option.map_eq_some_iff.mp heval
  simp only [Prod.mk.injEq] at hg
  obtain ⟨hresults, hwaiters, hsync⟩ := hg
  have hled : Group.Led g :=
    run_invariant (fun _ _ _ h hstep => Group.Led.step h hstep) (Group.new_led 0) hrun
  obtain ⟨-, -, hstranded⟩ := no_caller_is_stranded 0 20 [⟨0, 10⟩, ⟨10, 20⟩] (by decide) _
    ⟨fun a b h => by simp at h ⊢; omega, by simp, by decide⟩ (fun i T h => by simp at h; omega) g hrun
  refine ⟨g, hrun, hresults, hwaiters, hstranded ?_ (hled.none_of_not_syncing hsync)⟩
  intro r hr
  simp only [List.mem_cons, List.not_mem_nil, or_false] at hr
  rcases hr with rfl | rfl <;> decide

end WalDb
