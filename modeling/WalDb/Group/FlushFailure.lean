/-
A failed flush is final for the handle.

From the moment the store's `sync` has failed, the leader that issued it keeps the
others out until it takes the lock again, and then `flushFailed` is set for good.
Neither half lets a round become a leader, so the durable watermark has no way up:
only a truncation moves it, and then down.  The marks are arbitrary here, on any
ranges in any order; nothing depends on them.
-/
import WalDb.Group.Machine

namespace WalDb

open Lib Commit

/-- The operations on a coordinator: a move of a writer or a caller, or `reset`. -/
inductive GroupOp where
  | move (m : Move)
  | reset (offset : Nat)

namespace Group

def perform (g : Group) : GroupOp → Option Group
  | .move m => g.step m
  | .reset offset => some { g with st := Commit.reset g.st offset }.notifyAll

/-- `reset` runs with no `sync_to` in progress. -/
def Exclusive (g : Group) : GroupOp → Prop
  | .reset _ => ∀ i, g.callers i = .away
  | .move _ => True

/-- The moves in which a caller of `sync_to` with this target takes the lock. -/
inductive Enters (g : Group) (target : Nat) : Move → Prop
  | call (i : Nat) (h : g.callers i = .away) : Enters g target (.call i target)
  | wake (i : Nat) (h : g.callers i = .woken target) : Enters g target (.wake i)

/-- The move makes a call with this target return the result. -/
def Returns (g : Group) (m : Move) (target : Nat) (result : Except WalError Unit) : Prop :=
  ∃ g', g.step m = some g' ∧ g'.results = (target, result) :: g.results

end Group

/-! ## How a round answers -/

namespace Commit

/-- A target within the durable watermark and not past a poison. -/
theorem syncCheck_durable {st : State} {target : Nat} (hle : target ≤ st.durable)
    (hpoison : ∀ p, st.poison = some p → target ≤ p) :
    (syncCheck st target).2 = .done (.ok ()) := by
  have hnone : st.poison.filter (· < target) = none := by
    rw [Option.filter_eq_none_iff]
    intro p hp hlt
    have := hpoison p hp
    have := of_decide_eq_true hlt
    omega
  simp [syncCheck, hnone, hle]

/-- After a failed flush a round past the durable watermark is an error. -/
theorem syncCheck_flushFailed {st : State} (hf : st.flushFailed = true) {target : Nat}
    (hlt : st.durable < target) : ∃ e, (syncCheck st target).2 = .done (.error e) := by
  unfold syncCheck
  cases st.poison.filter (· < target) with
  | some p => exact ⟨_, rfl⟩
  | none => exact ⟨flushFailedError, by simp only [if_neg (Nat.not_le.mpr hlt), if_pos hf]⟩

/-- While a leader is at work, and after a failed flush, a round does not lead. -/
theorem syncCheck_no_lead {st : State} (h : st.syncing = true ∨ st.flushFailed = true)
    (target : Nat) :
    (∃ result, syncCheck st target = (st, .done result) ∧
      (st.durable < target → ∃ e, result = .error e)) ∨
    (syncCheck st target = ({ st with waiters := st.waiters + 1 }, .wait) ∧
      st.flushFailed = false) := by
  rcases syncCheck_cases st target with ⟨e, heq⟩ | ⟨heq, hle⟩ | ⟨heq, hsync, hf, -⟩ | heq
  · exact Or.inl ⟨_, heq, fun _ => ⟨e, rfl⟩⟩
  · exact Or.inl ⟨_, heq, fun hlt => absurd hle (Nat.not_le.mpr hlt)⟩
  · rw [hsync, hf] at h
    simp at h
  · refine Or.inr ⟨heq, ?_⟩
    cases hf : st.flushFailed with
    | false => rfl
    | true =>
        -- A round after a failed flush has an answer.
        by_cases hd : target ≤ st.durable
        · unfold syncCheck at heq
          cases hp : st.poison.filter (· < target) with
          | some p => simp [hp] at heq
          | none => simp [hp, hd] at heq
        · obtain ⟨e, he⟩ := syncCheck_flushFailed hf (Nat.not_le.mp hd)
          rw [heq] at he
          cases he

/-- The counter is not among the things a round looks at. -/
theorem syncCheck_waiters (st : State) (waiters target : Nat) :
    (syncCheck { st with waiters := waiters } target).2 = (syncCheck st target).2 := by
  unfold syncCheck
  dsimp only
  cases st.poison.filter (· < target) with
  | some p => rfl
  | none => split_ifs <;> rfl

end Commit

namespace Group

variable {start g g' : Group} {i : Nat}

theorem round_results {j target : Nat} {result : Except WalError Unit}
    (h : (syncCheck g.st target).2 = .done result) :
    (g.round j target).results = (target, result) :: g.results := by
  unfold Group.round
  simp only [h]
  rfl

/-- A caller that takes the lock returns what its round says. -/
theorem Enters.returns {target : Nat} {m : Move} (h : Enters g target m)
    {result : Except WalError Unit} (hround : (syncCheck g.st target).2 = .done result) :
    Returns g m target result := by
  cases h with
  | call j hj => exact ⟨g.round j target, by simp only [step, hj], round_results hround⟩
  | wake j hj =>
      have hround' : (syncCheck (afterWait g.st) target).2 = .done result :=
        (syncCheck_waiters _ _ _).trans hround
      exact ⟨({ g with st := afterWait g.st } : Group).round j target, by simp only [step, hj],
        round_results hround'⟩

/-! ## From the failed flush on -/

/-- The flush of caller `i` has failed, when the state was `start`. -/
structure Halted (start : Group) (i : Nat) (g : Group) : Prop extends Led g where
  durable_le : g.st.durable ≤ start.st.durable
  flushes_eq : g.flushes = start.flushes
  answers : ∃ new, g.results = new ++ start.results ∧
    ∀ r ∈ new, start.st.durable < r.1 → ∃ e, r.2 = .error e
  /-- The leader has yet to take the lock, or it has and everybody knows. -/
  phase : (∃ target flushTo e, g.callers i = .relocking target flushTo (.error e)) ∨
    g.st.flushFailed = true ∧ (∀ j, (g.callers j).leads = false) ∧
      ∀ j target, g.callers j ≠ .waiting target

theorem Halted.busy (h : Halted start i g) : g.st.syncing = true ∨ g.st.flushFailed = true := by
  rcases h.phase with ⟨target, flushTo, e, hi⟩ | ⟨hf, -⟩
  · exact Or.inl (h.syncing.mpr ⟨i, by rw [hi]; rfl⟩)
  · exact Or.inr hf

/-- One more answer. -/
theorem Halted.answer (h : Halted start i g) {target : Nat} {result : Except WalError Unit}
    (herr : start.st.durable < target → ∃ e, result = .error e) :
    ∃ new, (target, result) :: g.results = new ++ start.results ∧
      ∀ r ∈ new, start.st.durable < r.1 → ∃ e, r.2 = .error e := by
  obtain ⟨new, hnew, hall⟩ := h.answers
  refine ⟨(target, result) :: new, by rw [hnew]; rfl, fun r hr => ?_⟩
  rcases List.mem_cons.mp hr with rfl | hr
  · exact herr
  · exact hall r hr

/-- A caller other than the leader moves. -/
theorem Halted.phase_place (h : Halted start i g) {j : Nat} {c : Caller}
    (hj : (g.callers j).leads = false) (hc : c.leads = false)
    (hwaiting : g.st.flushFailed = false ∨ ∀ target, c ≠ .waiting target) :
    (∃ target flushTo e, (g.place j c).callers i = .relocking target flushTo (.error e)) ∨
      g.st.flushFailed = true ∧ (∀ k, ((g.place j c).callers k).leads = false) ∧
        ∀ k target, (g.place j c).callers k ≠ .waiting target := by
  rcases h.phase with ⟨target, flushTo, e, hi⟩ | ⟨hf, hleads, hnone⟩
  · refine Or.inl ⟨target, flushTo, e, ?_⟩
    rw [place_ne _ _ (fun heq => ?_), hi]
    rw [← heq, hi] at hj
    cases hj
  · refine Or.inr ⟨hf, place_forall g (fun _ c => c.leads = false) hc fun k _ => hleads k, ?_⟩
    refine place_forall g (fun _ c => ∀ target, c ≠ .waiting target) ?_ fun k _ => hnone k
    rcases hwaiting with hfalse | hwaiting
    · rw [hf] at hfalse
      cases hfalse
    · exact hwaiting

theorem Halted.round (h : Halted start i g) {j : Nat} (hj : (g.callers j).leads = false)
    (target : Nat) : Halted start i (g.round j target) := by
  have hled := h.toLed.round target hj
  unfold Group.round at hled ⊢
  rcases syncCheck_no_lead h.busy target with ⟨result, heq, herr⟩ | ⟨heq, hf⟩
  · rw [heq] at hled ⊢
    have hanswers := h.answer fun hlt => herr (Nat.lt_of_le_of_lt h.durable_le hlt)
    exact { toLed := hled, durable_le := h.durable_le, flushes_eq := h.flushes_eq,
            answers := hanswers,
            phase := h.phase_place hj rfl (Or.inr fun T hT => by cases hT) }
  · rw [heq] at hled ⊢
    exact { toLed := hled, durable_le := h.durable_le, flushes_eq := h.flushes_eq,
            answers := h.answers, phase := h.phase_place hj rfl (Or.inl hf) }

/-- A section after which callers are as before, or notified. -/
theorem Halted.of_notified (h : Halted start i g) (hled : Led g')
    (hdur : g'.st.durable ≤ g.st.durable) (hf : g'.st.flushFailed = g.st.flushFailed)
    (hresults : g'.results = g.results) (hflushes : g'.flushes = g.flushes)
    (hcallers : ∀ j, g'.callers j = g.callers j ∨ g'.callers j = (g.callers j).notified) :
    Halted start i g' where
  toLed := hled
  durable_le := Nat.le_trans hdur h.durable_le
  flushes_eq := hflushes.trans h.flushes_eq
  answers := by
    rw [hresults]
    exact h.answers
  phase := by
    rcases h.phase with ⟨target, flushTo, e, hi⟩ | ⟨hfail, hleads, hnone⟩
    · refine Or.inl ⟨target, flushTo, e, ?_⟩
      rcases hcallers i with heq | heq
      · rw [heq, hi]
      · rw [heq, hi]
        rfl
    · refine Or.inr ⟨hf.trans hfail, fun j => ?_, fun j target => ?_⟩
      · rcases hcallers j with heq | heq
        · rw [heq, hleads j]
        · rw [heq, Caller.notified_leads, hleads j]
      · rcases hcallers j with heq | heq
        · rw [heq]
          exact hnone j target
        · rw [heq]
          exact Caller.notified_ne_waiting _ _

theorem settle_callers_cases (g : Group) (r : State × Bool) (j : Nat) :
    (g.settle r).callers j = g.callers j ∨ (g.settle r).callers j = (g.callers j).notified := by
  rw [settle_callers]
  cases r.2
  · exact Or.inl rfl
  · exact Or.inr rfl

theorem Halted.settle (h : Halted start i g) {r : State × Bool} (hled : Led (g.settle r))
    (hdur : r.1.durable = g.st.durable) (hf : r.1.flushFailed = g.st.flushFailed) :
    Halted start i (g.settle r) :=
  h.of_notified hled (by rw [settle_st, hdur]) (by rw [settle_st, hf]) (settle_results g r)
    (settle_flushes g r) (settle_callers_cases g r)

/-- Only the leader whose flush failed can come back from a flush. -/
theorem Halted.relocking (h : Halted start i g) {j target flushTo : Nat}
    {result : Except WalError Unit} (hj : g.callers j = .relocking target flushTo result) :
    j = i ∧ ∃ e, result = .error e := by
  have hleads : (g.callers j).leads = true := by rw [hj]; rfl
  rcases h.phase with ⟨target', flushTo', e, hi⟩ | ⟨-, hnone, -⟩
  · have heq := h.leader j i hleads (by rw [hi]; rfl)
    rw [heq, hi] at hj
    cases hj
    exact ⟨heq, e, rfl⟩
  · rw [hnone j] at hleads
    cases hleads

theorem Halted.not_flushing (h : Halted start i g) (j target flushTo : Nat) :
    g.callers j ≠ .flushing target flushTo := by
  intro hj
  have hleads : (g.callers j).leads = true := by rw [hj]; rfl
  rcases h.phase with ⟨target', flushTo', e, hi⟩ | ⟨-, hnone, -⟩
  · rw [h.leader j i hleads (by rw [hi]; rfl), hi] at hj
    cases hj
  · rw [hnone j] at hleads
    cases hleads

/-- The leader takes the lock again with its error. -/
theorem Halted.relock (h : Halted start i g) {target flushTo : Nat} {e : WalError}
    (hi : g.callers i = .relocking target flushTo (.error e)) :
    Halted start i ({ g with st := afterFlush g.st flushTo false }.notifyAll.finish i target
      (.error e)) := by
  have hleads : (g.callers i).leads = true := by rw [hi]; rfl
  have hst : (afterFlush g.st flushTo false).durable = g.st.durable := by rw [afterFlush_eq]; rfl
  refine { toLed := (h.toLed.relock hleads rfl flushTo false).of_eq (fun _ => rfl) rfl,
           durable_le := ?_, flushes_eq := h.flushes_eq, answers := h.answer fun _ => ⟨e, rfl⟩,
           phase := Or.inr ⟨rfl, h.toLed.none_after hleads rfl _, ?_⟩ }
  · exact Nat.le_trans (Nat.le_of_eq hst) h.durable_le
  · refine place_forall _ (fun _ c => ∀ T, c ≠ .waiting T) (fun T hT => by cases hT) ?_
    exact fun j _ => Caller.notified_ne_waiting _

theorem Halted.step (h : Halted start i g) {m : Move} (hstep : step g m = some g') :
    Halted start i g' := by
  have hled := h.toLed.step hstep
  cases takes_of_step hstep with
  | @written a b =>
      obtain ⟨hdur, -, -, -, hf⟩ := insertRegion_frame g.st a b
      exact h.settle hled hdur hf
  | failed => exact h.settle hled rfl rfl
  | call hj => exact h.round (by rw [hj]; rfl) _
  | @flush j target flushTo result hj => exact absurd hj (h.not_flushing j target flushTo)
  | relockOk hj =>
      obtain ⟨-, e, he⟩ := h.relocking hj
      cases he
  | relockErr hj =>
      obtain ⟨rfl, -⟩ := h.relocking hj
      exact h.relock hj
  | @spurious j target hj =>
      have hphase := h.phase_place (c := .woken target) (j := j) (by rw [hj]; rfl) rfl
        (Or.inr fun T hT => by cases hT)
      exact { h with toLed := hled, phase := hphase }
  | @wake j target hj =>
      refine Halted.round (g := { g with st := afterWait g.st }) ?_ (by rw [hj]; rfl) target
      exact h.of_notified (h.toLed.of_eq (fun _ => rfl) rfl) (Nat.le_refl _) rfl rfl rfl
        fun _ => Or.inl rfl

/-- A truncation can only lower the durable watermark. -/
theorem Halted.perform (h : Halted start i g) {op : GroupOp} (hex : Exclusive g op)
    (hstep : perform g op = some g') : Halted start i g' := by
  cases op with
  | move m => exact h.step hstep
  | reset offset =>
      cases hstep
      have hfail : g.st.flushFailed = true := by
        rcases h.phase with ⟨target, flushTo, e, hi⟩ | ⟨hf, -⟩
        · rw [hex i] at hi
          cases hi
        · exact hf
      have hdur : (Commit.reset g.st offset).durable ≤ g.st.durable := by
        show (if g.st.flushFailed then min g.st.durable offset else offset) ≤ g.st.durable
        rw [if_pos hfail]
        exact Nat.min_le_left _ _
      exact h.of_notified (h.toLed.of_eq (fun _ => Caller.notified_leads _) rfl) hdur rfl rfl rfl
        fun _ => Or.inr rfl

theorem Led.perform (h : Led g) {op : GroupOp} (hstep : perform g op = some g') : Led g' := by
  cases op with
  | move m => exact h.step hstep
  | reset offset =>
      cases hstep
      exact h.of_eq (fun _ => Caller.notified_leads _) rfl

end Group

/-- A flush failure is permanent for the handle.  In every run of writers, callers and
truncations, once the flush of caller `i` has returned an error, whatever follows:

* the durable watermark never rises above what it was, and no flush is issued;
* every call that returns with a target above it returns an error, while a caller with
  a target within the durable watermark and not past a poison is told success;
* once the leader has taken the lock again nobody is blocked, and every caller that
  takes the lock with a target above the old watermark returns an error. -/
theorem flush_failure_is_permanent (c0 : Nat) (ops : List GroupOp) (g : Group)
    (hrun : run Group.perform (Group.new c0) ops = some g) (i : Nat) (e : WalError)
    (later : List GroupOp) (g' : Group)
    (hlater : run Group.perform g (.move (.flush i (.error e)) :: later) = some g')
    (hexclusive : Along Group.perform Group.Exclusive g
      (.move (.flush i (.error e)) :: later)) :
    g'.st.durable ≤ g.st.durable ∧ g'.flushes = g.flushes ∧
    (∃ new, g'.results = new ++ g.results ∧
      ∀ r ∈ new, g.st.durable < r.1 → ∃ e', r.2 = .error e') ∧
    (∀ target m, g'.Enters target m → target ≤ g'.st.durable →
      (∀ p, g'.st.poison = some p → target ≤ p) → g'.Returns m target (.ok ())) ∧
    ((g'.callers i).leads = true ∨
      (∀ j target, g'.callers j ≠ .waiting target) ∧
      ∀ target m, g'.Enters target m → g.st.durable < target →
        ∃ e', g'.Returns m target (.error e')) := by
  have hled : Group.Led g :=
    run_invariant (fun _ _ _ h hstep => Group.Led.perform h hstep) (Group.new_led c0) hrun
  obtain ⟨g1, hflush, hrest⟩ := Option.bind_eq_some_iff.mp hlater
  -- The caller was the leader, and it comes back with the error.
  have hstart : Group.Halted g i g1 := by
    have hled1 := hled.perform hflush
    simp only [Group.perform, Group.step] at hflush
    split at hflush <;> cases hflush
    rename_i target flushTo hi
    exact { toLed := hled1, durable_le := Nat.le_refl _, flushes_eq := rfl,
            answers := ⟨[], rfl, fun _ hr => absurd hr List.not_mem_nil⟩,
            phase := Or.inl ⟨target, flushTo, e, Group.place_self _ _ _⟩ }
  have hkeep : ∀ s op s', Group.Halted g i s → Group.Exclusive s op →
      Group.perform s op = some s' → Group.Halted g i s' :=
    fun _ _ _ h hex hstep => h.perform hex hstep
  have h := run_along hkeep hstart (hexclusive.2 g1 hflush) hrest
  refine ⟨h.durable_le, h.flushes_eq, h.answers, ?_, ?_⟩
  · intro target m hm hle hpoison
    exact hm.returns (syncCheck_durable hle hpoison)
  · rcases h.phase with ⟨target, flushTo, e', hi⟩ | ⟨hf, -, hnone⟩
    · exact Or.inl (by rw [hi]; rfl)
    · refine Or.inr ⟨hnone, fun target m hm hlt => ?_⟩
      obtain ⟨e', he⟩ := syncCheck_flushFailed hf (Nat.lt_of_le_of_lt h.durable_le hlt)
      exact ⟨e', hm.returns he⟩

/-- A caller leads and another waits for it; the flush fails, and more of the log is
written.  The one that waited is told so when it wakes, and so is a later caller past the
durable watermark, while one within it succeeds. -/
theorem flush_failure_is_permanent_for_waiter :
    ∃ g g', run Group.perform (Group.new 10) [.move (.written 10 20), .move (.call 0 20),
        .move (.call 1 20)] = some g ∧
      run Group.perform g [.move (.flush 0 (.error (.io "flushing to stable storage" .os))),
        .move (.relock 0), .move (.wake 1), .move (.written 20 30)] = some g' ∧
      g'.flushes = 1 ∧ g'.st.committed = 30 ∧ g'.st.durable ≤ 10 ∧
      g'.results.map (fun r => (r.1, r.2.toBool)) = [(20, false), (20, false)] ∧
      g'.Returns (.call 1 10) 10 (.ok ()) ∧ ∃ e, g'.Returns (.call 1 11) 11 (.error e) := by
  have heval : ((run Group.perform (Group.new 10) [.move (.written 10 20), .move (.call 0 20),
      .move (.call 1 20)]).bind fun g => (run Group.perform g
        [.move (.flush 0 (.error (.io "flushing to stable storage" .os))), .move (.relock 0),
          .move (.wake 1), .move (.written 20 30)]).map fun g' => decide (g.flushes = 1 ∧
            g.st.durable = 10 ∧ g'.st.committed = 30 ∧ g'.st.durable = 10 ∧ g'.st.poison = none ∧
            g'.callers 0 = .away ∧ g'.callers 1 = .away ∧
            g'.results.map (fun r => (r.1, r.2.toBool)) = [(20, false), (20, false)])) =
      some true := by
    decide +kernel
  obtain ⟨g, hrun, hg⟩ := Option.bind_eq_some_iff.mp heval
  obtain ⟨g', hlater, hg'⟩ := Option.map_eq_some_iff.mp hg
  obtain ⟨hflushes, hdurable, hcommitted, hdurable', hpoison, hleader, haway, hresults⟩ :=
    of_decide_eq_true hg'
  have hexclusive : Along Group.perform Group.Exclusive g
      [.move (.flush 0 (.error (.io "flushing to stable storage" .os))), .move (.relock 0),
        .move (.wake 1), .move (.written 20 30)] := by
    refine Along.of_forall (fun op hop s => ?_) g
    simp only [List.mem_cons, List.not_mem_nil, or_false] at hop
    rcases hop with rfl | rfl | rfl | rfl <;> trivial
  obtain ⟨hle, hsame, -, hok, herr⟩ := flush_failure_is_permanent 10 _ g hrun 0 _ _ g' hlater hexclusive
  rw [hleader] at herr
  obtain ⟨-, herr⟩ := herr.resolve_left Bool.false_ne_true
  refine ⟨g, g', hrun, hlater, hsame.trans hflushes, hcommitted, hdurable ▸ hle, hresults, ?_, ?_⟩
  · exact hok 10 _ (.call 1 haway) (Nat.le_of_eq hdurable'.symm) fun p hp => by
      rw [hpoison] at hp
      cases hp
  · exact herr 11 _ (.call 1 haway) (by omega)

end WalDb
