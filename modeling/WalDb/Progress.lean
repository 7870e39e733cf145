/-
Every call returns.

Each thread is given a number that says how much work its call has left.  Every step
but one lowers the sum: a byte arrives, a write returns, a range is marked, a round of
`sync_to` ends, a flush returns.  A notification raises it by one for every waiter, so
the two steps that notify have a whole round of waiters to spend.  The exception is a
wait that ends for no reason, which buys the waiter one more round.  The sum therefore
bounds how long the threads can go on without a new call, in any order.

They also cannot stop early.  A thread blocked on the condition variable waits for a
range below its target or for a leader, and whoever holds the one or is the other has
a step to take.
-/
import Mathlib.Algebra.BigOperators.Group.Finset.Basic
import Mathlib.Algebra.Order.BigOperators.Group.Finset
import WalDb.Coordinator
import WalDb.Group.Economy
import WalDb.Group.Wakeups

namespace WalDb

open Lib Record

/-- The action begins a call. -/
def Action.begins : Action → Bool
  | .append _ _ _ => true
  | .sync _ => true
  | _ => false

/-- The action is a wait that ends without a notification. -/
def Action.isSpurious : Action → Bool
  | .spurious _ => true
  | _ => false

/-- The thread that acts. -/
def Action.thread : Action → Nat
  | .append t _ _ => t
  | .land t _ => t
  | .wrote t _ => t
  | .mark t => t
  | .sync t => t
  | .enter t => t
  | .flush t _ _ => t
  | .relock t => t
  | .spurious t => t
  | .wake t => t

/-- The work left in a thread's call, where a notification wakes at most `n` waiters. -/
def Pc.work (n : Nat) : Pc → Nat
  | .idle => 0
  | .relocking _ _ _ => n + 1
  | .flushing _ _ _ => n + 2
  | .waiting _ => n + 2
  | .woken _ => n + 3
  | .entering _ => n + 3
  | .overflowed _ => 2 * n + 4
  | .marking _ _ _ _ => 2 * n + 4
  | .writing _ record done _ => 2 * n + 5 + (framedLen record.length - done)

/-- A leader's flush covers its own target. -/
def Pc.Aims : Pc → Prop
  | .flushing target flushTo _ => target ≤ flushTo
  | .relocking target flushTo _ => target ≤ flushTo
  | _ => True

namespace Sys

/-- The work left in the calls of the threads `ids`. -/
def work (ids : Finset Nat) (s : Sys) : Nat := ∑ t ∈ ids, (s.threads t).work ids.card

variable {s s' : Sys} {ids : Finset Nat}

/-! ## The sum over the threads -/

theorem sum_setPc (threads : Nat → Pc) {t : Nat} (ht : t ∈ ids) (pc : Pc) (n : Nat) :
    ∑ u ∈ ids, (setPc threads t pc u).work n + (threads t).work n =
      ∑ u ∈ ids, (threads u).work n + pc.work n := by
  have hothers : ∑ u ∈ ids.erase t, (setPc threads t pc u).work n =
      ∑ u ∈ ids.erase t, (threads u).work n :=
    Finset.sum_congr rfl fun u hu => by rw [setPc_ne _ _ (Finset.ne_of_mem_erase hu)]
  rw [← Finset.add_sum_erase _ _ ht, ← Finset.add_sum_erase ids (fun u => (threads u).work n) ht,
    hothers, setPc_self]
  omega

theorem notifyAll_work_le (threads : Nat → Pc) (u n : Nat) :
    (notifyAll threads u).work n ≤ (threads u).work n + 1 := by
  unfold notifyAll
  cases threads u <;> simp only [Pc.work] <;> omega

/-- A notification wakes each waiter once. -/
theorem sum_notifyAll_le (threads : Nat → Pc) (ids : Finset Nat) (n : Nat) :
    ∑ u ∈ ids, (notifyAll threads u).work n ≤ ∑ u ∈ ids, (threads u).work n + ids.card := by
  calc ∑ u ∈ ids, (notifyAll threads u).work n
      ≤ ∑ u ∈ ids, ((threads u).work n + 1) :=
        Finset.sum_le_sum fun u _ => notifyAll_work_le threads u n
    _ = ∑ u ∈ ids, (threads u).work n + ids.card := by
        rw [Finset.sum_add_distrib, ← Finset.card_eq_sum_ones]

/-- A thread moves on and nobody is notified. -/
theorem work_move {t : Nat} (ht : t ∈ ids) {pc : Pc} (hs : s'.threads = setPc s.threads t pc)
    (hlt : pc.work ids.card < (s.threads t).work ids.card) : s'.work ids + 1 ≤ s.work ids := by
  have hsum := sum_setPc s.threads ht pc ids.card
  unfold work
  rw [hs]
  omega

/-- A thread moves on and whoever waits may be notified. -/
theorem work_notify {t : Nat} (ht : t ∈ ids) {pc : Pc} {threads : Nat → Pc}
    (hnotified : threads = s.threads ∨ threads = notifyAll s.threads)
    (hself : threads t = s.threads t) (hs : s'.threads = setPc threads t pc)
    (hlt : pc.work ids.card + ids.card < (s.threads t).work ids.card) :
    s'.work ids + 1 ≤ s.work ids := by
  have hsum := sum_setPc threads ht pc ids.card
  have hle : ∑ u ∈ ids, (threads u).work ids.card ≤
      ∑ u ∈ ids, (s.threads u).work ids.card + ids.card := by
    rcases hnotified with rfl | rfl
    · exact Nat.le_add_right _ _
    · exact sum_notifyAll_le s.threads ids ids.card
  rw [hself] at hsum
  unfold work
  rw [hs]
  omega

/-! ## Rounds -/

/-- Where a round of `sync_to` takes its thread. -/
theorem round_threads (s : Sys) (t target : Nat) :
    ∃ pc, (s.round t target).threads = setPc s.threads t pc ∧ pc.Aims ∧
      ∀ n, pc.work n ≤ n + 2 := by
  unfold Sys.round
  cases hr : Commit.syncCheck s.wal.commit target with
  | mk st exit =>
      cases exit with
      | done result =>
          cases result <;> exact ⟨.idle, rfl, trivial, fun n => Nat.zero_le _⟩
      | lead flushTo =>
          obtain ⟨-, hle, rfl, -⟩ := Commit.syncCheck_lead hr
          exact ⟨_, rfl, hle, fun n => Nat.le_refl _⟩
      | wait => exact ⟨_, rfl, trivial, fun n => Nat.le_refl _⟩

/-- A round at or below the durable watermark ends the call. -/
theorem round_done (s : Sys) (t : Nat) {target : Nat} (hle : target ≤ s.wal.commit.durable) :
    (s.round t target).threads = setPc s.threads t .idle := by
  unfold Sys.round Commit.syncCheck
  cases s.wal.commit.poison.filter (· < target) with
  | some p => rfl
  | none =>
      rw [if_pos hle]
      rfl

/-! ## Every step -/

theorem aims_follows {a b : Pc} (h : Follows a b) (ha : a.Aims) : b.Aims := by
  rcases h with rfl | ⟨target, rfl, rfl⟩
  · exact ha
  · trivial

theorem aims_setPc {threads threads' : Nat → Pc} {t : Nat} {pc : Pc}
    (h : ∀ u, (threads u).Aims) (hothers : ∀ u, Follows (threads u) (threads' u))
    (hpc : pc.Aims) (u : Nat) : (setPc threads' t pc u).Aims := by
  by_cases hu : u = t
  · rw [hu, setPc_self]
    exact hpc
  · rw [setPc_ne _ _ hu]
    exact aims_follows (hothers u) (h u)

theorem step_aims (h : ∀ u, (s.threads u).Aims) {a : Action} (hstep : step s a = some s') :
    ∀ u, (s'.threads u).Aims := by
  have hrefl : ∀ u, Follows (s.threads u) (s.threads u) := fun u => Or.inl rfl
  have hround : ∀ {r : Sys} {t target : Nat}, (∀ u, Follows (s.threads u) (r.threads u)) →
      ∀ u, ((r.round t target).threads u).Aims := by
    intro r t target hfollows u
    obtain ⟨pc, hpc, haims, -⟩ := r.round_threads t target
    rw [hpc]
    exact aims_setPc h hfollows haims u
  have hsettle : ∀ (flag : Bool) (u : Nat),
      Follows (s.threads u) ((if flag then notifyAll s.threads else s.threads) u) := by
    intro flag u
    cases flag
    · exact Or.inl rfl
    · exact notifyAll_follows _ u
  cases takes_of_step hstep with
  | refuse | syncEmpty => exact h
  | reserve =>
      refine aims_setPc h hrefl ?_
      split <;> trivial
  | land | wroteOk | wroteErr | sync | spurious => exact aims_setPc h hrefl trivial
  | @markOk t start record ts ht =>
      refine aims_setPc h (hsettle _) ?_
      cases ts <;> trivial
  | markErr | markOverflow => exact aims_setPc h (hsettle _) trivial
  | enter | wake => exact hround hrefl
  | @flush t target flushTo snap ok dropped ht =>
      have haims := h t
      rw [ht] at haims
      exact aims_setPc h hrefl haims
  | relockOk => exact hround (notifyAll_follows s.threads)
  | relockErr => exact aims_setPc h (notifyAll_follows s.threads) trivial

/-- A step that arrives with bytes arrives with at least one. -/
theorem land_pos {t n : Nat} (hstep : step s (.land t n) = some s') : 0 < n := by
  cases hpc : s.threads t with
  | writing start record done ts =>
      by_contra hn
      simp only [step, hpc] at hstep
      rw [if_neg fun h => hn h.1] at hstep
      cases hstep
  | _ =>
      simp only [step, hpc] at hstep
      cases hstep

/-- Every step inside a call lowers the work that is left, except a wait that ends for no
reason. -/
theorem step_work (haims : ∀ u, (s.threads u).Aims) {a : Action} (hstep : step s a = some s')
    (hbegins : a.begins = false) (hmem : a.thread ∈ ids) :
    s'.work ids + 1 ≤ s.work ids + if a.isSpurious then 2 else 0 := by
  have hround : ∀ {r : Sys} {t target : Nat}, r.threads = s.threads → t ∈ ids →
      ids.card + 2 < (s.threads t).work ids.card → (r.round t target).work ids + 1 ≤ s.work ids := by
    intro r t target hsame ht hlt
    obtain ⟨pc, hpc, -, hle⟩ := r.round_threads t target
    rw [hsame] at hpc
    exact work_move ht hpc (Nat.lt_of_le_of_lt (hle _) hlt)
  have hflag : ∀ flag : Bool, (if flag then notifyAll s.threads else s.threads) = s.threads ∨
      (if flag then notifyAll s.threads else s.threads) = notifyAll s.threads := by
    intro flag
    cases flag
    · exact Or.inl rfl
    · exact Or.inr rfl
  have hsame : ∀ {t : Nat} (flag : Bool), (∀ target, s.threads t ≠ .waiting target) →
      (if flag then notifyAll s.threads else s.threads) t = s.threads t := by
    intro t flag hne
    cases flag
    · rfl
    · show notifyAll s.threads t = s.threads t
      unfold notifyAll
      cases hpc : s.threads t with
      | waiting target => exact absurd hpc (hne target)
      | _ => rfl
  cases takes_of_step hstep with
  | refuse | reserve | syncEmpty | sync => cases hbegins
  | @land t n start done record ts ht hn =>
      have hpos := land_pos hstep
      refine work_move (t := t) hmem rfl ?_
      rw [ht]
      simp only [Pc.work]
      omega
  | @wroteOk t start record ts ht =>
      refine work_move (t := t) hmem rfl ?_
      rw [ht]
      simp only [Pc.work]
      omega
  | @wroteErr t start done record ts ht =>
      refine work_move (t := t) hmem rfl ?_
      rw [ht]
      simp only [Pc.work]
      omega
  | @markOk t start record ts ht =>
      refine work_notify (t := t) hmem (hflag _) (hsame _ (by simp [ht])) rfl ?_
      rw [ht]
      cases ts <;> simp only [Pc.work, if_true, Bool.false_eq_true, if_false] <;> omega
  | @markErr t start record ts ht =>
      refine work_notify (t := t) hmem (hflag _) (hsame _ (by simp [ht])) rfl ?_
      rw [ht]
      simp only [Pc.work]
      omega
  | @markOverflow t start ht =>
      refine work_notify (t := t) hmem (hflag _) (hsame _ (by simp [ht])) rfl ?_
      rw [ht]
      simp only [Pc.work]
      omega
  | @enter t target ht =>
      refine hround (t := t) rfl hmem ?_
      rw [ht]
      exact Nat.lt_succ_self _
  | @flush t target flushTo snap ok dropped ht =>
      refine work_move (t := t) hmem rfl ?_
      rw [ht]
      exact Nat.lt_succ_self _
  | @relockOk t target flushTo ht =>
      have hle := haims t
      rw [ht] at hle
      refine work_notify (t := t) hmem (Or.inr rfl) (hsame true (by simp [ht]))
        (round_done _ _ (Nat.le_trans hle (Commit.le_afterFlush_durable _ _))) ?_
      rw [ht]
      simp only [Pc.work]
      omega
  | @relockErr t target flushTo ht =>
      refine work_notify (t := t) hmem (Or.inr rfl) (hsame true (by simp [ht])) rfl ?_
      rw [ht]
      simp only [Pc.work]
      omega
  | @spurious t target ht =>
      have hsum := sum_setPc s.threads (show t ∈ ids from hmem) (.woken target) ids.card
      have hone : (Pc.woken target).work ids.card = (Pc.waiting target).work ids.card + 1 := rfl
      rw [ht] at hsum
      show ∑ u ∈ ids, (setPc s.threads t (.woken target) u).work ids.card + 1 ≤ s.work ids + 2
      unfold work
      omega
  | @wake t target ht =>
      refine hround (t := t) rfl hmem ?_
      rw [ht]
      exact Nat.lt_succ_self _

/-! ## Somebody can go on -/

/-- Thread `t` can go on with its call, and not by a wait that ends for no reason. -/
def Able (s : Sys) (t : Nat) : Prop :=
  ∃ a s', a.thread = t ∧ a.begins = false ∧ a.isSpurious = false ∧ step s a = some s'

/-- A thread inside a call that is not blocked has a step to take. -/
theorem able_of_running {t : Nat} (hidle : s.threads t ≠ .idle)
    (hwait : ∀ target, s.threads t ≠ .waiting target) : s.Able t := by
  have hof : ∀ a : Action, a.thread = t → a.begins = false → a.isSpurious = false →
      (step s a).isSome → s.Able t := by
    intro a ht hb hs hsome
    obtain ⟨s', hs'⟩ := Option.isSome_iff_exists.mp hsome
    exact ⟨a, s', ht, hb, hs, hs'⟩
  cases hpc : s.threads t with
  | idle => exact absurd hpc hidle
  | waiting target => exact absurd hpc (hwait target)
  | overflowed start => exact hof (.mark t) rfl rfl rfl (by simp [step, hpc])
  | writing start record done ts => exact hof (.wrote t false) rfl rfl rfl (by simp [step, hpc])
  | marking start record ok ts =>
      refine hof (.mark t) rfl rfl rfl ?_
      cases ok <;> simp [step, hpc]
  | entering target => exact hof (.enter t) rfl rfl rfl (by simp [step, hpc])
  | flushing target flushTo snap =>
      exact hof (.flush t true fun _ => false) rfl rfl rfl (by simp [step, hpc])
  | relocking target flushTo ok =>
      refine hof (.relock t) rfl rfl rfl ?_
      cases ok <;> simp [step, hpc]
  | woken target => exact hof (.wake t) rfl rfl rfl (by simp [step, hpc])

/-- A thread that is blocked un-notified waits for the owner of a range below its target, or
for a leader. -/
theorem Coordinated.exists_awaited {base : Nat} {ms : List Move} {rs : List Span} {g : Group}
    (h : Coordinated base ms rs s g) (hinv : Inv s) {t target : Nat}
    (ht : s.threads t = .waiting target) :
    ∃ u, (s.threads u).leads = true ∨ ∃ start, (s.threads u).owns = some start ∧ start < target := by
  have hwithin : ∀ m ∈ ms, m.Within s.wal.tail := by
    intro m hm
    cases m with
    | call i T => exact h.within i T hm
    | _ => trivial
  have hqueue := Group.run_queue hwithin h.run_eq
  have hled : Group.Led g :=
    run_invariant (fun _ _ _ hl hstep => Group.Led.step hl hstep) (Group.new_led base) h.run_eq
  have hcaller : g.callers t = .waiting target := by
    have hplays := h.plays t
    rw [ht] at hplays
    exact hplays
  have hle := hqueue.bounded t
  rw [hcaller] at hle
  obtain ⟨hpoison, -, -, hgap⟩ :=
    (Commit.syncCheck_wait_iff _ _).mp (hqueue.blocked t target hcaller)
  rw [h.st_eq] at hpoison hgap
  rcases hgap with hgap | hsync
  · -- The range at the watermark is neither written nor, the poison says, failed.
    obtain ⟨q, hq, hlo⟩ := (ranges_tiles hinv).exists_lo hinv.tracks.boundary
      (Nat.lt_of_lt_of_le hgap hle)
    obtain ⟨r, hr, hlo', -⟩ := exists_of_mem_spans hq
    have hfl : s.status r.1 = .inflight := by
      cases hst : s.status r.1 with
      | inflight => rfl
      | written =>
          refine absurd ?_ (hinv.tracks.not_written hq hlo)
          rw [hlo', hst]
      | failed =>
          obtain ⟨p, hp, hple⟩ := hinv.tracks.poison_le q hq (by rw [hlo', hst])
          rw [hp, Option.filter_eq_none_iff] at hpoison
          exact absurd (decide_eq_true (by omega)) (hpoison p rfl)
    obtain ⟨u, hu⟩ := hinv.owned r hr hfl
    exact ⟨u, Or.inr ⟨r.1, hu, by omega⟩⟩
  · obtain ⟨u, hu⟩ := hled.syncing.mp (by rw [h.st_eq]; exact hsync)
    refine ⟨u, Or.inl ?_⟩
    have hplays := h.plays u
    cases hpc : s.threads u with
    | flushing T F snap => rfl
    | relocking T F ok => rfl
    | _ =>
        rw [hpc] at hplays
        rw [show g.callers u = _ from hplays] at hu
        cases hu

end Sys

/-- Every call returns.  Take any interleaving of any threads over an opened log, any writes
and flushes failing, and let no new call begin:

* the threads `ids` together take at most as many steps as they have work left, and two
  more for every wait that ends without a notification;
* as long as a thread is inside a call, some thread can take a step that is not such an end
  of a wait: the thread itself, or, if it is blocked, the leader of a flush or the writer of
  a range below its target.  A sync never waits for what was appended after it began. -/
theorem calls_return (config : WalConfig) (store : HeadStore) (wal : Wal HeadStore)
    (hopen : Wal.withStoreAndConfig config store = (.ok wal, wal.store))
    (acts : List Action) (s : Sys) (hrun : run Sys.step (Sys.opened wal) acts = some s)
    (hreserved : s.reserved < 2 ^ 64) :
    (∀ (ids : Finset Nat) (later : List Action) (s' : Sys), run Sys.step s later = some s' →
      (∀ a ∈ later, a.begins = false ∧ a.thread ∈ ids) →
      later.length + s'.work ids ≤ s.work ids + 2 * later.countP Action.isSpurious) ∧
    ∀ t, s.threads t ≠ .idle → s.Able t ∨ ∃ target u, s.threads t = .waiting target ∧ s.Able u ∧
      ((s.threads u).leads = true ∨ ∃ start, (s.threads u).owns = some start ∧ start < target) := by
  have hcommit : wal.commit = Commit.new wal.tail := by
    obtain ⟨-, -, htail, -, hcommit, -⟩ := HeadStore.flat.open_ok hopen
    rw [hcommit, htail]
  have hkeep : ∀ s a s', (∀ u, (s.threads u).Aims) → Sys.step s a = some s' →
      ∀ u, (s'.threads u).Aims := fun _ _ _ h hstep => Sys.step_aims h hstep
  have haims : ∀ u, (s.threads u).Aims :=
    run_invariant hkeep (show ∀ u, ((Sys.opened wal).threads u).Aims from fun _ => trivial) hrun
  have hinv := Sys.run_inv (Sys.opened_inv hopen) hrun hreserved
  obtain ⟨rs, g, h⟩ :=
    (Sys.opened_coordinated wal hcommit).run (Sys.opened_inv hopen) hrun hreserved
  refine ⟨fun ids later s' hlater hids => ?_, fun t ht => ?_⟩
  · have hstep : ∀ s a s', (∀ u, (s.threads u).Aims) → a.begins = false ∧ a.thread ∈ ids →
        Sys.step s a = some s' → (∀ u, (s'.threads u).Aims) ∧
          s'.work ids + 1 ≤ s.work ids + if a.isSpurious then 2 else 0 :=
      fun s a s' hs ha hstep => ⟨hkeep s a s' hs hstep, Sys.step_work hs hstep ha.1 ha.2⟩
    exact run_length_le hstep haims hids hlater
  · by_cases hwait : ∃ target, s.threads t = .waiting target
    · obtain ⟨target, htarget⟩ := hwait
      obtain ⟨u, hu⟩ := h.exists_awaited hinv htarget
      refine Or.inr ⟨target, u, htarget, Sys.able_of_running (fun hpc => ?_) fun T hpc => ?_, hu⟩
      all_goals
        rw [hpc] at hu
        rcases hu with hu | ⟨start, hu, -⟩ <;> cases hu
    · exact Or.inl (Sys.able_of_running ht fun target htarget => hwait ⟨target, htarget⟩)

/-- One thread has begun a write and another waits for it: at most 22 steps are left, and the
writer can go on. -/
theorem calls_return_write_and_wait :
    ∃ s, run Sys.step (Sys.opened emptyWal)
        [.append 0 [5] true, .sync 1, .enter 1] = some s ∧ s.work {0, 1} = 22 ∧
      (∀ later s', run Sys.step s later = some s' →
        (∀ a ∈ later, a.begins = false ∧ a.thread ∈ ({0, 1} : Finset Nat)) →
        later.length + s'.work {0, 1} ≤ 22 + 2 * later.countP Action.isSpurious) ∧
      s.Able 0 := by
  have heval : ((run Sys.step (Sys.opened emptyWal)
        [.append 0 [5] true, .sync 1, .enter 1]).map fun s => (s.work {0, 1}, s.reserved)) =
      some (22, 9) := by
    decide +kernel
  obtain ⟨s, hrun, heq⟩ := Option.map_eq_some_iff.mp heval
  simp only [Prod.mk.injEq] at heq
  obtain ⟨hwork, hres⟩ := heq
  obtain ⟨hbound, hsome⟩ := calls_return WalConfig.new _ _ open_emptyWal _ s hrun
    (by rw [hres]; decide)
  refine ⟨s, hrun, hwork, fun later s' hlater hids => ?_, ?_⟩
  · rw [← hwork]
    exact hbound {0, 1} later s' hlater hids
  · have hpc : s.threads 0 = .writing 0 [5] 0 true := by
      cases hrun
      rfl
    rcases hsome 0 (by rw [hpc]; nofun) with hable | ⟨target, -, hwait, -⟩
    · exact hable
    · rw [hpc] at hwait
      cases hwait

end WalDb
