/-
Acknowledged records survive any number of power losses.

A log outlives the process that uses it: threads work on it, the power fails, it is
opened again with what stable storage has kept, other threads work on it, and so on.
What one session has acknowledged the next one recovers, and what is recovered is
durable from the start, so that the step from one session to the next can be repeated.
The records keep their offsets throughout and stay the first of the log.
-/
import WalDb.Coordinator

namespace WalDb

open Lib Record

namespace Sys

/-- What can become of a log: a step of one of its threads, or a power loss and an open of
whatever image keeps the bytes of stable storage.  A reopen may not lower the limit on the
record size. -/
inductive Later (s : Sys) : Sys → Prop
  | refl : Later s s
  | step {u u' : Sys} {a : Action} (h : Later s u) (hstep : Sys.step u a = some u')
      (hreserved : u'.reserved < 2 ^ 64) : Later s u'
  | powerLoss {u : Sys} {wal : Wal HeadStore} (config : WalConfig) (image : HeadStore)
      (h : Later s u) (hhead : image.headAt = u.wal.head)
      (hkept : ∀ o b, u.wal.store.stable o = some b → image.data[o]? = some b)
      (hmax : u.wal.maxRecordSize ≤ config.maxRecordSize)
      (hopen : Wal.withStoreAndConfig config image = (.ok wal, wal.store)) : Later s (opened wal)

variable {s s' : Sys} {qs : List (List UInt8)} {head : Nat}

theorem Later.inv (h : Later s s') (hinv : Inv s) : Inv s' := by
  induction h with
  | refl => exact hinv
  | step _ hstep hreserved ih => exact ih.step hstep hreserved
  | powerLoss _ _ _ _ _ _ hopen => exact opened_inv hopen

/-- A session goes on. -/
theorem Later.run {u : Sys} (h : Later s u) {acts : List Action}
    (hrun : run Sys.step u acts = some s') (hreserved : s'.reserved < 2 ^ 64) : Later s s' := by
  induction acts generalizing u with
  | nil =>
      cases hrun
      exact h
  | cons a acts ih =>
      obtain ⟨v, hv, hrun⟩ := Option.bind_eq_some_iff.mp hrun
      exact ih (h.step hv (Nat.lt_of_le_of_lt (run_reserved_le hrun) hreserved)) hrun

/-! ## What a step keeps -/

theorem round_log (s : Sys) (t target : Nat) : (s.round t target).log = s.log := by
  obtain ⟨st, pc, acks, heq⟩ := s.round_eq t target
  rw [heq]
  rfl

theorem syncCheck_keeps_durable (st : Commit.State) (target : Nat) :
    (Commit.syncCheck st target).1.durable = st.durable := by
  rcases Commit.syncCheck_cases st target with ⟨e, heq⟩ | ⟨heq, -⟩ | ⟨heq, -⟩ | heq <;> rw [heq]

theorem round_durable (s : Sys) (t target : Nat) :
    (s.round t target).wal.commit.durable = s.wal.commit.durable := by
  have hsame := syncCheck_keeps_durable s.wal.commit target
  unfold Sys.round
  generalize Commit.syncCheck s.wal.commit target = r at hsame
  obtain ⟨st, exit⟩ := r
  cases exit with
  | done result => cases result <;> exact hsame
  | lead flushTo => exact hsame
  | wait => exact hsame

/-- A step adds to the log at its end, and never takes a promise back. -/
theorem step_extends {a : Action} (hstep : Sys.step s a = some s') :
    s.log <+: s'.log ∧ s.wal.commit.durable ≤ s'.wal.commit.durable := by
  cases takes_of_step hstep with
  | reserve => exact ⟨List.prefix_append _ _, Nat.le_refl _⟩
  | markOk => exact ⟨List.prefix_refl _, Nat.le_of_eq (Commit.insertRegion_frame _ _ _).1.symm⟩
  | enter | wake =>
      rw [round_log, round_durable]
      exact ⟨List.prefix_refl _, Nat.le_refl _⟩
  | relockOk =>
      rw [round_log, round_durable]
      exact ⟨List.prefix_refl _, Commit.durable_le_afterFlush _ _ _⟩
  | relockErr => exact ⟨List.prefix_refl _, Commit.durable_le_afterFlush _ _ _⟩
  | _ => exact ⟨List.prefix_refl _, Nat.le_refl _⟩

/-- The payloads `qs` are the first of a log with its head at `head`, and durable. -/
structure Carries (head : Nat) (qs : List (List UInt8)) (s : Sys) : Prop where
  head_eq : s.wal.head = head
  initial : qs <+: s.log
  durable : ∀ r ∈ located head qs, r.1 + framedLen r.2.length ≤ s.wal.commit.durable

/-- What was acknowledged is kept. -/
theorem Inv.carries (h : Inv s) {T : Nat} (hT : T ∈ s.acks) :
    ∃ qs, Carries s.wal.head qs s ∧ s.recordsBelow T = Wal.recordsFrom s.wal.head qs := by
  obtain ⟨qs, hqs, hfilter⟩ := located_filter s.wal.head T s.log
  refine ⟨qs, ⟨rfl, hqs, fun r hr => ?_⟩, ?_⟩
  · exact Nat.le_trans ((mem_of_located_filter hfilter r).mp hr).2 (h.acks T hT)
  · show List.map _ ((located s.wal.head s.log).filter _) = _
    rw [hfilter]
    rfl

theorem Carries.step (h : Carries head qs s) {a : Action} (hstep : Sys.step s a = some s') :
    Carries head qs s' where
  head_eq := (step_sameLog hstep).head_eq.trans h.head_eq
  initial := h.initial.trans (step_extends hstep).1
  durable r hr := Nat.le_trans (h.durable r hr) (step_extends hstep).2

/-- An image with the bytes of stable storage has the kept records in it. -/
theorem Carries.intact (h : Carries head qs s) (hinv : Inv s) {image : HeadStore}
    (hkept : ∀ o b, s.wal.store.stable o = some b → image.data[o]? = some b) {m : Nat}
    (hmax : s.wal.maxRecordSize ≤ m) : Intact (Image.ofList image.data) m head qs := by
  obtain ⟨hlen, hstable⟩ := hinv.stable
  have hqs := h.initial
  have hdurable := h.durable
  rw [← h.head_eq] at hdurable ⊢
  refine hinv.intact_below hinv.tracks.durable_le hqs (fun r hr => ?_) (fun o _ ho => ?_) hmax
  · exact ⟨(located_initial hqs).subset hr, hdurable r hr⟩
  · have hget := List.getElem?_eq_getElem (show o < s.wal.store.data.length by omega)
    rw [hget]
    exact hkept o _ (by rw [hstable o ho, hget])

theorem Carries.isPrefix_payloads (h : Carries head qs s) (hinv : Inv s) {image : HeadStore}
    (hkept : ∀ o b, s.wal.store.stable o = some b → image.data[o]? = some b) {config : WalConfig}
    (hmax : s.wal.maxRecordSize ≤ config.maxRecordSize) :
    qs <+: payloads (Image.ofList image.data) config.maxRecordSize image.data.length head :=
  (h.intact hinv hkept hmax).isPrefix config.maxRecordSize_lt
    fun o (ho : image.data.length ≤ o) => List.getElem?_eq_none ho

/-- The next session recovers what the last one kept, and keeps it. -/
theorem Carries.powerLoss (h : Carries head qs s) (hinv : Inv s) {config : WalConfig}
    {image : HeadStore} (hhead : image.headAt = s.wal.head)
    (hkept : ∀ o b, s.wal.store.stable o = some b → image.data[o]? = some b)
    (hmax : s.wal.maxRecordSize ≤ config.maxRecordSize) {wal : Wal HeadStore}
    (hopen : Wal.withStoreAndConfig config image = (.ok wal, wal.store)) :
    Carries head qs (opened wal) := by
  obtain ⟨hdata, -, htail, hwhead, hcommit, hwmax⟩ := HeadStore.flat.open_ok hopen
  have hhead' : wal.head = head := hwhead.trans (hhead.trans h.head_eq)
  have hlog : (opened wal).log =
      payloads (Image.ofList image.data) config.maxRecordSize image.data.length head := by
    show payloads (Image.ofList wal.store.data) wal.maxRecordSize wal.store.data.length wal.head = _
    rw [hdata, hwmax, hhead', ← h.head_eq, ← hhead]
    exact payloads_take config.maxRecordSize_lt
  have hpre := h.isPrefix_payloads hinv hkept hmax
  refine ⟨hhead', hlog ▸ hpre, fun r hr => ?_⟩
  have hinv' := opened_inv hopen
  have hmem : r ∈ (opened wal).records := by
    show r ∈ located wal.head (opened wal).log
    rw [hlog, hhead']
    exact (located_initial hpre).subset hr
  have hle : r.1 + framedLen r.2.length ≤ wal.tail := (hinv'.record_bounds hmem).2
  show _ ≤ wal.commit.durable
  rw [hcommit, ← htail]
  exact hle

theorem Carries.later (h : Carries head qs s) (hinv : Inv s) (hlater : Later s s') :
    Carries head qs s' := by
  induction hlater with
  | refl => exact h
  | step _ hstep _ ih => exact ih.step hstep
  | powerLoss _ _ hl hhead hkept hmax hopen ih =>
      exact ih.powerLoss (hl.inv hinv) hhead hkept hmax hopen

/-- Opening what stable storage has kept yields the kept records first. -/
theorem Carries.recoversFirst (h : Carries head qs s) (hinv : Inv s) {image : HeadStore}
    (hhead : image.headAt = s.wal.head)
    (hkept : ∀ o b, s.wal.store.stable o = some b → image.data[o]? = some b) {config : WalConfig}
    (hmax : s.wal.maxRecordSize ≤ config.maxRecordSize)
    (hpol : config.openPolicy = .truncateTail) :
    RecoversFirst config image (Wal.recordsFrom head qs) := by
  obtain ⟨wal, hopen, hiter⟩ := HeadStore.flat.reopen config hpol image
  refine ⟨wal, _, hopen, hiter, ?_⟩
  rw [hhead, h.head_eq]
  exact (located_initial (h.isPrefix_payloads hinv hkept hmax)).map _ |>.map _

end Sys

/-- Acknowledged records survive any number of power losses.  Take a log at any point of its
life, after any number of sessions, each with any threads and any failures, and ended by a
power loss that keeps the bytes of stable storage and nothing else.  Once a sync has returned
success for `T`, the records below `T` are the first of the log in every later session, at
the same offsets, and the next open after whatever power loss comes next recovers them. -/
theorem acknowledged_records_survive_crashes (config : WalConfig) (store : HeadStore)
    (wal : Wal HeadStore)
    (hopen : Wal.withStoreAndConfig config store = (.ok wal, wal.store))
    (s : Sys) (hs : Sys.Later (Sys.opened wal) s) (T : Nat) (hT : T ∈ s.acks)
    (s' : Sys) (hlater : Sys.Later s s') :
    s.recordsBelow T <+: Wal.recordsFrom s'.wal.head s'.log ∧
    ∀ (image : HeadStore) (reopenConfig : WalConfig), image.headAt = s'.wal.head →
      (∀ o b, s'.wal.store.stable o = some b → image.data[o]? = some b) →
      s'.wal.maxRecordSize ≤ reopenConfig.maxRecordSize →
      RecoversFirst (reopenConfig.withOpenPolicy .truncateTail) image (s.recordsBelow T) := by
  have hinv := hs.inv (Sys.opened_inv hopen)
  obtain ⟨qs, hcarries, hbelow⟩ := hinv.carries hT
  have hcarries' := hcarries.later hinv hlater
  rw [hbelow]
  refine ⟨?_, fun image reopenConfig hhead hkept hmax => ?_⟩
  · rw [hcarries'.head_eq]
    exact (located_initial hcarries'.initial).map _
  · exact hcarries'.recoversFirst (hlater.inv hinv) hhead hkept hmax rfl

/-- Two sessions.  The first acknowledges two appended records before a flush and a write fail;
the second one cuts off the garbage that the power loss leaves, and acknowledges a third. -/
theorem acknowledged_records_survive_crashes_twice :
    ∃ s s' : Sys, 18 ∈ s.acks ∧ s.recordsBelow 18 = [⟨0, [1]⟩, ⟨9, [2]⟩] ∧ Sys.Later s s' ∧
      s'.wal.truncatedOnOpen = 3 ∧ 27 ∈ s'.acks ∧
      s.recordsBelow 18 <+: Wal.recordsFrom s'.wal.head s'.log := by
  have heval : (run Sys.step (Sys.opened emptyWal) outOfOrderActions).map (fun s =>
      (s.acks, s.recordsBelow 18, s.reserved, s.wal.head, s.wal.maxRecordSize)) =
      some ([18], [⟨0, [1]⟩, ⟨9, [2]⟩], 36, 0, WalConfig.new.maxRecordSize) := by decide +kernel
  obtain ⟨s, hrun, hs⟩ := Option.map_eq_some_iff.mp heval
  simp only [Prod.mk.injEq] at hs
  obtain ⟨hacks, hbelow, hreserved, hhead, hmax⟩ := hs
  have hack : 18 ∈ s.acks := by
    rw [hacks]
    exact List.mem_singleton_self 18
  -- The power loss leaves three bytes of garbage behind the acknowledged records.
  obtain ⟨⟨data, headAt, hdlt, hhle⟩, hdata, hheadAt, hopen⟩ := HeadStore.flat.open_eq WalConfig.new rfl
    ⟨frame [1] ++ frame [2] ++ [1, 2, 3], 0, by decide +kernel, Nat.zero_le _⟩
  rw [show logEnd _ _ _ _ = 18 by decide +kernel] at hdata hopen
  dsimp only at hdata hheadAt hopen
  rw [show List.take 18 (frame [1] ++ frame [2] ++ [1, 2, 3]) = frame [1] ++ frame [2] by
    decide +kernel] at hdata
  subst hdata hheadAt
  have hlater : Sys.Later s (Sys.opened _) :=
    .powerLoss WalConfig.new _ .refl hhead.symm (fun o b hb => by
      have hkept := outOfOrderActions_stable hrun hb
      show (frame [1] ++ frame [2] ++ [1, 2, 3])[o]? = some b
      rw [List.getElem?_append_left (List.getElem?_eq_some_iff.mp hkept).1]
      exact hkept) (Nat.le_of_eq hmax) hopen
  -- The second session cuts the garbage off, appends a record there and syncs it.
  obtain ⟨s', hrun', hs'⟩ := Option.map_eq_some_iff.mp (show (run Sys.step (Sys.opened
      { tail := 18, store := ⟨frame [1] ++ frame [2], 0, by decide +kernel, Nat.zero_le _⟩,
        maxRecordSize := WalConfig.new.maxRecordSize,
        recoveryPolicy := WalConfig.new.recoveryPolicy, head := 0, commit := Commit.new 18,
        truncatedOnOpen := (frame [1] ++ frame [2] ++ [1, 2, 3]).length - 18 })
      [.append 0 [5] true, .land 0 9, .wrote 0 true, .mark 0, .enter 0,
        .flush 0 true (fun _ => false), .relock 0]).map (fun s =>
          (s.acks, s.reserved, s.wal.truncatedOnOpen)) = some ([27], 27, 3) by decide +kernel)
  simp only [Prod.mk.injEq] at hs'
  obtain ⟨hacks', hreserved', hcut⟩ := hs'
  have hlater' : Sys.Later s s' := hlater.run hrun' (by rw [hreserved']; decide)
  refine ⟨s, s', hack, hbelow, hlater', hcut, by rw [hacks']; exact List.mem_singleton_self 27, ?_⟩
  exact (acknowledged_records_survive_crashes WalConfig.new _ emptyWal open_emptyWal s
    (Sys.Later.refl.run hrun (by rw [hreserved]; decide)) 18 hack s' hlater').1
end WalDb
