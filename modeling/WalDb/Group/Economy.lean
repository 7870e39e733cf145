/-
How often the store is flushed.

A caller becomes the leader only for a target above the durable watermark, and its
flush covers everything written by then.  Where the flush succeeds the next leader
needs a watermark that has moved since, and where it fails there is no next leader.
So the flushes are paid for by the completed writes, one each, and not by the callers:
any number of callers that find nothing new written cost one flush together.
-/
import WalDb.Group.Machine

namespace WalDb

open Lib Commit

namespace Move

/-- Whether the move is the completion of a write. -/
def completes : Move → Bool
  | .written _ _ => true
  | _ => false

/-- A range that is marked written is not empty. -/
def Proper : Move → Prop
  | .written start endAt => start < endAt
  | _ => True

end Move

namespace Commit

variable {st : State}

/-- A round leads only where the durable watermark is behind. -/
theorem syncCheck_lead {target flushTo : Nat} {st' : State}
    (h : syncCheck st target = (st', .lead flushTo)) :
    st.durable < target ∧ target ≤ st.committed ∧ flushTo = st.committed ∧ st.syncing = false := by
  unfold syncCheck at h
  cases hp : st.poison.filter (· < target) with
  | some p =>
      rw [hp] at h
      cases h
  | none =>
      rw [hp] at h
      dsimp only at h
      split_ifs at h with hd hf hl <;> cases h
      exact ⟨Nat.not_le.mp hd, hl.1, rfl, hl.2⟩

end Commit

namespace Group

/-- The flushes so far are within the budget.  A part of the watermark that no flush has
covered leaves one to spend, unless a flush has failed. -/
structure Thrifty (budget : Nat) (g : Group) : Prop extends Led g where
  proper : ∀ a b, g.st.pending.lookup a = some b → a < b
  flushes_le : g.flushes ≤ budget
  spare : (∀ i, (g.callers i).leads = false) → g.st.flushFailed = false →
    g.st.durable < g.st.committed → g.flushes < budget
  ahead : ∀ i, (g.callers i).leads = true → (g.callers i).flushTo < g.st.committed →
    g.flushes < budget

variable {budget : Nat} {g g' : Group}

theorem new_thrifty (recovered : Nat) : Thrifty 0 (new recovered) where
  toLed := new_led recovered
  proper a b h := by
    rw [show (new recovered).st.pending.lookup a = none from AList.lookup_empty a] at h
    cases h
  flushes_le := Nat.le_refl 0
  spare _ _ h := absurd h (Nat.lt_irrefl _)
  ahead _ h := by cases h

/-- From any state on there is at most one flush more than there are completions. -/
theorem Thrifty.restart (h : Thrifty budget g) : Thrifty (g.flushes + 1) g where
  toLed := h.toLed
  proper := h.proper
  flushes_le := Nat.le_succ _
  spare _ _ _ := Nat.lt_succ_self _
  ahead _ _ _ := Nat.lt_succ_self _

/-- A caller that does not lead moves to where it does not lead, and no watermark moves. -/
theorem Thrifty.place (h : Thrifty budget g) {i : Nat} {c : Caller} {st : State}
    {results : List (Nat × Except WalError Unit)}
    (hold : (g.callers i).leads = false) (hnew : c.leads = false)
    (hc : st.committed = g.st.committed) (hd : st.durable = g.st.durable)
    (hp : st.pending = g.st.pending) (hs : st.syncing = g.st.syncing)
    (hf : st.flushFailed = g.st.flushFailed) :
    Thrifty budget { g.place i c with st := st, results := results } := by
  have hleads := place_leads g (hnew.trans hold.symm)
  refine { toLed := h.toLed.of_eq hleads hs, proper := ?_, flushes_le := h.flushes_le,
           spare := fun hnone hff hlt => ?_, ahead := fun j hj hlt => ?_ }
  · show ∀ a b, st.pending.lookup a = some b → a < b
    rw [hp]
    exact h.proper
  · refine h.spare (fun j => (hleads j).symm.trans (hnone j)) (hf.symm.trans hff) ?_
    rw [← hc, ← hd]
    exact hlt
  · have hj' : (g.callers j).leads = true := (hleads j).symm.trans hj
    have hne : j ≠ i := fun heq => by
      rw [heq, hold] at hj'
      cases hj'
    refine h.ahead j hj' ?_
    rw [← hc, ← place_ne g c hne]
    exact hlt

/-- A round by a caller that does not lead.  Where it takes the lead the flush is paid for. -/
theorem Thrifty.round (h : Thrifty budget g) {i : Nat} (target : Nat)
    (hi : (g.callers i).leads = false) : Thrifty budget (g.round i target) := by
  have hled := h.toLed.round target hi
  unfold Group.round at hled ⊢
  rcases syncCheck_cases g.st target with ⟨e, heq⟩ | ⟨heq, -⟩ | ⟨heq, hsync, hff, -⟩ | heq
  · rw [heq]
    exact h.place hi rfl rfl rfl rfl rfl rfl
  · rw [heq]
    exact h.place hi rfl rfl rfl rfl rfl rfl
  · obtain ⟨hlt, hle, -, -⟩ := syncCheck_lead heq
    have hnone := h.toLed.none_of_not_syncing hsync
    have hspare := h.spare hnone hff (Nat.lt_of_lt_of_le hlt hle)
    rw [heq] at hled ⊢
    refine { toLed := hled, proper := h.proper, flushes_le := hspare,
             spare := fun hno => ?_, ahead := fun j hj hahead => ?_ }
    · have hself := hno i
      have hself : ((g.place i (.flushing target g.st.committed)).callers i).leads = false := hself
      rw [place_self] at hself
      cases hself
    · -- The new flush covers the whole watermark.
      have hj : ((g.place i (.flushing target g.st.committed)).callers j).leads = true := hj
      have hji : j = i := by
        by_contra hne
        rw [place_ne _ _ hne, hnone j] at hj
        cases hj
      have hahead : ((g.place i (.flushing target g.st.committed)).callers j).flushTo <
          g.st.committed := hahead
      rw [hji, place_self] at hahead
      exact absurd hahead (Nat.lt_irrefl _)
  · rw [heq]
    exact h.place hi rfl rfl rfl rfl rfl rfl

/-- The leader takes the lock again. -/
theorem Thrifty.relock (h : Thrifty budget g) {i target flushTo : Nat}
    {result : Except WalError Unit} (hi : g.callers i = .relocking target flushTo result)
    (flushed : Bool) :
    Thrifty budget
      ({ g with st := afterFlush g.st flushTo flushed }.notifyAll.place i .away) := by
  have hleads : (g.callers i).leads = true := by rw [hi]; rfl
  have hnone := h.toLed.none_after hleads (c := .away) rfl (afterFlush g.st flushTo flushed)
  obtain ⟨hcom, hpending, -, -, -⟩ := afterFlush_frame g.st flushTo flushed
  refine { toLed := h.toLed.relock hleads rfl flushTo flushed, proper := ?_,
           flushes_le := h.flushes_le, spare := fun _ hff hlt => ?_, ahead := fun j hj => ?_ }
  · show ∀ a b, (afterFlush g.st flushTo flushed).pending.lookup a = some b → a < b
    rw [hpending]
    exact h.proper
  · have hff : (afterFlush g.st flushTo flushed).flushFailed = false := hff
    have hlt : (afterFlush g.st flushTo flushed).durable <
        (afterFlush g.st flushTo flushed).committed := hlt
    rw [afterFlush_eq] at hff hlt
    cases flushed with
    | false => simp at hff
    | true =>
        have hlt : max g.st.durable flushTo < g.st.committed := hlt
        refine h.ahead i hleads ?_
        rw [hi]
        exact Nat.lt_of_le_of_lt (Nat.le_max_right _ _) hlt
  · rw [hnone j] at hj
    cases hj

/-- A mark that moves no watermark back, and what it adds to the budget. -/
theorem Thrifty.settle (h : Thrifty budget g) {r : State × Bool} {budget' : Nat}
    (hled : Led (g.settle r)) (hproper : ∀ a b, r.1.pending.lookup a = some b → a < b)
    (hle : budget ≤ budget') (hd : r.1.durable = g.st.durable)
    (hf : r.1.flushFailed = g.st.flushFailed)
    (hpaid : r.1.committed = g.st.committed ∨ budget < budget') :
    Thrifty budget' (g.settle r) := by
  have hto : ∀ j, ((g.settle r).callers j).flushTo = (g.callers j).flushTo := by
    intro j
    rw [settle_callers]
    cases r.2 <;> simp
  refine { toLed := hled, proper := ?_, flushes_le := ?_, spare := fun hnone hff hlt => ?_,
           ahead := fun j hj hlt => ?_ }
  · rw [settle_st]
    exact hproper
  · rw [settle_flushes]
    exact Nat.le_trans h.flushes_le hle
  · rw [settle_flushes]
    rw [settle_st] at hff hlt
    rcases hpaid with hc | hpaid
    · refine Nat.lt_of_lt_of_le (h.spare (fun j => ?_) (hf ▸ hff) (hc ▸ hd ▸ hlt)) hle
      rw [← settle_leads g r j]
      exact hnone j
    · exact Nat.lt_of_le_of_lt h.flushes_le hpaid
  · rw [settle_flushes]
    rw [settle_leads] at hj
    rw [hto, settle_st] at hlt
    rcases hpaid with hc | hpaid
    · exact Nat.lt_of_lt_of_le (h.ahead j hj (hc ▸ hlt)) hle
    · exact Nat.lt_of_le_of_lt h.flushes_le hpaid

theorem Thrifty.step (h : Thrifty budget g) {m : Move} (hm : m.Proper)
    (hstep : step g m = some g') : Thrifty (budget + m.completes.toNat) g' := by
  have hled := h.toLed.step hstep
  cases takes_of_step hstep with
  | @written start endAt =>
      obtain ⟨hd, -, -, -, hf⟩ := insertRegion_frame g.st start endAt
      obtain ⟨-, hproper⟩ := insertRegion_mono hm h.proper
      exact h.settle hled hproper (Nat.le_succ _) hd hf (Or.inr (Nat.lt_succ_self _))
  | failed => exact h.settle hled h.proper (Nat.le_refl _) rfl rfl (Or.inl rfl)
  | call hi => exact h.round _ (by rw [hi]; rfl)
  | @flush i target flushTo result hi =>
      have hleads := place_leads g (i := i) (c := .relocking target flushTo result)
        (by rw [hi]; rfl)
      refine { toLed := hled, proper := h.proper, flushes_le := h.flushes_le,
               spare := fun hnone => h.spare fun j => (hleads j).symm.trans (hnone j),
               ahead := fun j hj hlt => ?_ }
      refine h.ahead j ((hleads j).symm.trans hj) ?_
      have hlt : ((g.place i (.relocking target flushTo result)).callers j).flushTo <
          g.st.committed := hlt
      by_cases hji : j = i
      · rw [hji, place_self] at hlt
        rw [hji, hi]
        exact hlt
      · rw [place_ne _ _ hji] at hlt
        exact hlt
  | @relockOk i target flushTo hi =>
      rw [← round_place _ i target .away]
      exact (h.relock hi true).round target (by rw [place_self]; rfl)
  | @relockErr i target flushTo e hi =>
      have hr := h.relock hi false
      exact { toLed := hled, proper := hr.proper, flushes_le := hr.flushes_le, spare := hr.spare,
              ahead := hr.ahead }
  | spurious hi => exact h.place (by rw [hi]; rfl) rfl rfl rfl rfl rfl rfl
  | @wake i target hi =>
      rw [← round_place _ i target .away]
      have haway : Thrifty budget ({ g with st := afterWait g.st }.place i .away) :=
        h.place (by rw [hi]; rfl) rfl rfl rfl rfl rfl rfl
      exact haway.round target (by rw [place_self]; rfl)

/-- Along a run the budget grows by one with each completed write. -/
theorem Thrifty.run (h : Thrifty budget g) {moves : List Move} (hproper : ∀ m ∈ moves, m.Proper)
    (hrun : run Group.step g moves = some g') :
    Thrifty (budget + moves.countP Move.completes) g' := by
  induction moves generalizing g budget with
  | nil =>
      cases hrun
      exact h
  | cons m moves ih =>
      obtain ⟨u, hu, hrun⟩ := Option.bind_eq_some_iff.mp hrun
      have hrest := ih (h.step (hproper m List.mem_cons_self) hu)
        (fun m' hm' => hproper m' (List.mem_cons_of_mem _ hm')) hrun
      have hsum : budget + ((moves.countP Move.completes) + if m.completes = true then 1 else 0) =
          budget + m.completes.toNat + moves.countP Move.completes := by
        cases m.completes with
        | true => exact (Nat.add_right_comm budget 1 _).symm
        | false => rfl
      rw [List.countP_cons, hsum]
      exact hrest

end Group

/-- Group commit: flushes are paid for by completed writes.  In every interleaving of marks
and callers of `sync_to`, from a fresh coordinator, and with any writes and flushes failing:

* the store has been asked to flush at most once for each completed write, however many
  callers there were;
* from any moment on it is asked at most once more than writes complete from then on, so
  that callers who find nothing new written share one flush. -/
theorem flushes_bounded_by_writes (recovered : Nat) (earlier later : List Move)
    (hproper : ∀ m ∈ earlier ++ later, m.Proper) (g g' : Group)
    (hearlier : run Group.step (Group.new recovered) earlier = some g)
    (hlater : run Group.step g later = some g') :
    g'.flushes ≤ (earlier ++ later).countP Move.completes ∧
    g'.flushes ≤ g.flushes + later.countP Move.completes + 1 := by
  have h := (Group.new_thrifty recovered).run
    (fun m hm => hproper m (List.mem_append_left _ hm)) hearlier
  have hp : ∀ m ∈ later, m.Proper := fun m hm => hproper m (List.mem_append_right _ hm)
  constructor
  · have hall := (h.run hp hlater).flushes_le
    rw [List.countP_append]
    omega
  · have hrest := (h.restart.run hp hlater).flushes_le
    omega

/-- One write completes, then three callers come at once: one leads, two wait for it and
return without a flush of their own. -/
theorem flushes_bounded_by_writes_three_callers :
    ∃ g g', run Group.step (Group.new 0) [.written 0 10] = some g ∧
      run Group.step g [.call 0 10, .call 1 10, .call 2 10, .flush 0 (.ok ()), .relock 0, .wake 1,
        .wake 2] = some g' ∧
      g'.results = [(10, .ok ()), (10, .ok ()), (10, .ok ())] ∧ g'.flushes ≤ 1 := by
  have heval : (run Group.step (Group.new 0) [.written 0 10]).bind (fun g =>
      (run Group.step g [.call 0 10, .call 1 10, .call 2 10, .flush 0 (.ok ()), .relock 0, .wake 1,
        .wake 2]).map Group.results) =
      some [(10, .ok ()), (10, .ok ()), (10, .ok ())] := by
    decide +kernel
  obtain ⟨g, hg, heval⟩ := Option.bind_eq_some_iff.mp heval
  obtain ⟨g', hg', hresults⟩ := Option.map_eq_some_iff.mp heval
  refine ⟨g, g', hg, hg', hresults, (flushes_bounded_by_writes 0 _ _ ?_ g g' hg hg').1⟩
  intro m hm
  rcases List.mem_append.mp hm with hm | hm
  · rw [List.mem_singleton.mp hm]
    exact (by decide : 0 < 10)
  · simp only [List.mem_cons, List.not_mem_nil, or_false] at hm
    rcases hm with rfl | rfl | rfl | rfl | rfl | rfl | rfl <;> trivial

end WalDb
