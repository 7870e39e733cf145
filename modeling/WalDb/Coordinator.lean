/-
The threads of a log as callers of its coordinator.

`System` cuts `append`, `append_and_sync` and `sync` wherever another thread can see
what has been done so far, and has the store's bytes in its state; `Group.Machine` has
`commit.rs` alone, with callers that come and go as they like.  Here the first is shown
to be a case of the second.  A step of a thread is a move of the coordinator or leaves
it alone, the marks fall on the ranges that the log has reserved, once on each, and the
answers are the same.  Whatever holds in every run of the coordinator therefore holds
in every run of the log.
-/
import WalDb.TruncateAfter
import WalDb.Group.Watermarks

namespace WalDb

open Lib Record

/-- The caller of `sync_to` that a thread is: none, except inside `sync_to`. -/
def Pc.Plays : Pc → Caller → Prop
  | .flushing target flushTo _, c => c = .flushing target flushTo
  | .relocking target flushTo ok, c =>
      ∃ result, c = .relocking target flushTo result ∧ result.toBool = ok
  | .waiting target, c => c = .waiting target
  | .woken target, c => c = .woken target
  | _, c => c = .away

namespace Sys

/-- The coordinator of a log, seen without the log. -/
structure Projects (s : Sys) (g : Group) : Prop where
  st_eq : g.st = s.wal.commit
  plays : ∀ t, (s.threads t).Plays (g.callers t)
  acked : ∀ T ∈ s.acks, T = 0 ∨ (T, .ok ()) ∈ g.results
  told : ∀ T, (T, .ok ()) ∈ g.results → T ∈ s.acks

/-- The move of the coordinator that a step of a thread is, if it is one. -/
def moves (s : Sys) : Action → List Move
  | .mark t =>
      match s.threads t with
      | .marking start record true _ => [.written start (start + framedLen record.length)]
      | .marking start _ false _ => [.failed start]
      | .overflowed start => [.failed start]
      | _ => []
  | .enter t =>
      match s.threads t with
      | .entering target => [.call t target]
      | _ => []
  | .flush t ok _ =>
      [.flush t (if ok then .ok () else .error (.io "flushing to stable storage" .os))]
  | .relock t => [.relock t]
  | .spurious t => [.spurious t]
  | .wake t => [.wake t]
  | _ => []

/-- The moves of the coordinator along a run. -/
def trace : Sys → List Action → List Move
  | _, [] => []
  | s, a :: acts =>
      s.moves a ++ match s.step a with
        | some s' => trace s' acts
        | none => []

/-! ## Threads and callers -/

theorem plays_notified {threads : Nat → Pc} {c : Caller} {u : Nat} (h : (threads u).Plays c) :
    (notifyAll threads u).Plays c.notified := by
  unfold notifyAll
  cases hu : threads u with
  | relocking target flushTo ok =>
      rw [hu] at h
      obtain ⟨result, rfl, hok⟩ := h
      exact ⟨result, rfl, hok⟩
  | _ =>
      rw [hu] at h
      cases h
      rfl

/-- A thread moves, and its caller with it. -/
theorem plays_place {threads : Nat → Pc} {g : Group} (h : ∀ u, (threads u).Plays (g.callers u))
    {t : Nat} {pc : Pc} {c : Caller} (hpc : pc.Plays c) (u : Nat) :
    (setPc threads t pc u).Plays ((g.place t c).callers u) := by
  by_cases hu : u = t
  · rw [hu, setPc_self, Group.place_self]
    exact hpc
  · rw [setPc_ne _ _ hu, Group.place_ne _ _ hu]
    exact h u

/-- A thread outside `sync_to` moves, and stays outside. -/
theorem plays_outside {threads : Nat → Pc} {g : Group} (h : ∀ u, (threads u).Plays (g.callers u))
    {t : Nat} {pc : Pc} (hold : g.callers t = .away) (hpc : pc.Plays .away) (u : Nat) :
    (setPc threads t pc u).Plays (g.callers u) := by
  by_cases hu : u = t
  · rw [hu, setPc_self, hold]
    exact hpc
  · rw [setPc_ne _ _ hu]
    exact h u

variable {s s' : Sys} {g : Group}

/-- A step that does not touch the coordinator. -/
theorem Projects.outside (h : Projects s g) {t : Nat} (pc : Pc) (hold : (s.threads t).Plays .away)
    (hpc : pc.Plays .away) (hcommit : s'.wal.commit = s.wal.commit) (hacks : s'.acks = s.acks)
    (hthreads : s'.threads = setPc s.threads t pc) : Projects s' g where
  st_eq := by rw [hcommit]; exact h.st_eq
  plays u := by
    rw [hthreads]
    refine plays_outside h.plays ?_ hpc u
    have ht := h.plays t
    cases hpc' : s.threads t <;> rw [hpc'] at hold ht
    case flushing => cases hold
    case relocking =>
      obtain ⟨result, hc, -⟩ := hold
      cases hc
    case waiting => cases hold
    case woken => cases hold
    all_goals exact ht
  acked := by rw [hacks]; exact h.acked
  told := by rw [hacks]; exact h.told

/-- A round of `sync_to` is a round of its caller. -/
theorem Projects.round (h : Projects s g) (t target : Nat) :
    Projects (s.round t target) (g.round t target) := by
  unfold Sys.round Group.round
  rw [h.st_eq]
  generalize Commit.syncCheck s.wal.commit target = r
  obtain ⟨st, exit⟩ := r
  cases exit with
  | done result =>
      cases result with
      | ok u =>
          refine ⟨rfl, plays_place h.plays rfl, fun T hT => ?_, fun T hT => ?_⟩
          · rcases List.mem_cons.mp hT with rfl | hT
            · exact Or.inr List.mem_cons_self
            · exact (h.acked T hT).imp id (List.mem_cons_of_mem _)
          · rcases List.mem_cons.mp hT with heq | hT
            · cases heq
              exact List.mem_cons_self
            · exact List.mem_cons_of_mem _ (h.told T hT)
      | error e =>
          refine ⟨rfl, plays_place h.plays rfl, fun T hT => ?_, fun T hT => ?_⟩
          · exact (h.acked T hT).imp id (List.mem_cons_of_mem _)
          · rcases List.mem_cons.mp hT with heq | hT
            · cases heq
            · exact h.told T hT
  | lead flushTo => exact ⟨rfl, plays_place h.plays rfl, h.acked, h.told⟩
  | wait => exact ⟨rfl, plays_place h.plays rfl, h.acked, h.told⟩

/-- The end of a write, with the notification it decides on. -/
theorem Projects.settle (h : Projects s g) {t start : Nat} {status : Commit.Status}
    {r : Commit.State × Bool} {pc : Pc} (hold : g.callers t = .away) (hpc : pc.Plays .away) :
    Projects (s.settle t start status r pc) (g.settle r) := by
  refine ⟨Group.settle_st g r, fun u => ?_, fun T hT => ?_, fun T hT => ?_⟩
  · show (setPc (if r.2 then notifyAll s.threads else s.threads) t pc u).Plays _
    rw [Group.settle_callers]
    by_cases hu : u = t
    · rw [hu, setPc_self, hold]
      cases r.2 <;> exact hpc
    · rw [setPc_ne _ _ hu]
      cases r.2 with
      | true => exact plays_notified (h.plays u)
      | false => exact h.plays u
  · rw [Group.settle_results]
    exact h.acked T hT
  · rw [Group.settle_results] at hT
    exact h.told T hT

/-- The leader takes the lock again. -/
theorem Projects.relock (h : Projects s g) (flushTo : Nat) (ok : Bool) :
    Projects { s.withCommit (Commit.afterFlush s.wal.commit flushTo ok) with
        threads := notifyAll s.threads }
      { g with st := Commit.afterFlush g.st flushTo ok }.notifyAll where
  st_eq := by rw [h.st_eq]; rfl
  plays _ := plays_notified (h.plays _)
  acked := h.acked
  told := h.told

/-- Every step of a thread is its move of the coordinator. -/
theorem Projects.step (h : Projects s g) {a : Action} (hstep : step s a = some s') :
    ∃ g', run Group.step g (s.moves a) = some g' ∧ Projects s' g' := by
  have hplays : ∀ {t : Nat} {pc : Pc}, s.threads t = pc → pc.Plays (g.callers t) :=
    fun {t pc} ht => ht ▸ h.plays t
  cases takes_of_step hstep with
  | refuse => exact ⟨g, rfl, h⟩
  | @reserve t record ts ht =>
      refine ⟨g, rfl, h.outside (t := t) _ (by rw [ht]; rfl) ?_ rfl rfl rfl⟩
      split <;> rfl
  | @land t n start done record ts ht =>
      exact ⟨g, rfl, h.outside (t := t) (.writing start record (done + n) ts)
        (by rw [ht]; rfl) rfl rfl rfl rfl⟩
  | @wroteOk t start record ts ht =>
      exact ⟨g, rfl, h.outside (t := t) (.marking start record true ts)
        (by rw [ht]; rfl) rfl rfl rfl rfl⟩
  | @wroteErr t start done record ts ht =>
      exact ⟨g, rfl, h.outside (t := t) (.marking start record false ts)
        (by rw [ht]; rfl) rfl rfl rfl rfl⟩
  | @markOk t start record ts ht =>
      refine ⟨g.settle (Commit.markWritten g.st start (start + framedLen record.length)), ?_, ?_⟩
      · simp only [moves, ht]
        rfl
      · rw [h.st_eq]
        exact h.settle (hplays ht) (by cases ts <;> rfl)
  | @markErr t start record ts ht =>
      refine ⟨g.settle (Commit.markFailed g.st start), ?_, ?_⟩
      · simp only [moves, ht]
        rfl
      · rw [h.st_eq]
        exact h.settle (hplays ht) rfl
  | @markOverflow t start ht =>
      refine ⟨g.settle (Commit.markFailed g.st start), ?_, ?_⟩
      · simp only [moves, ht]
        rfl
      · rw [h.st_eq]
        exact h.settle (hplays ht) rfl
  | syncEmpty =>
      refine ⟨g, rfl, ⟨h.st_eq, h.plays, fun T hT => ?_, fun T hT => ?_⟩⟩
      · rcases List.mem_cons.mp hT with rfl | hT
        · exact Or.inl rfl
        · exact h.acked T hT
      · exact List.mem_cons_of_mem _ (h.told T hT)
  | @sync t ht =>
      exact ⟨g, rfl, h.outside (t := t) (.entering s.wal.tail) (by rw [ht]; rfl) rfl rfl rfl
        rfl⟩
  | @enter t target ht =>
      refine ⟨g.round t target, ?_, h.round t target⟩
      have hcaller : g.callers t = .away := hplays ht
      simp only [moves, ht, run, Group.step, hcaller]
      rfl
  | @flush t target flushTo snap ok dropped ht =>
      have hcaller : g.callers t = .flushing target flushTo := hplays ht
      refine ⟨g.place t (.relocking target flushTo
        (if ok then .ok () else .error (.io "flushing to stable storage" .os))), ?_,
        h.st_eq, plays_place h.plays ⟨_, rfl, by cases ok <;> rfl⟩, h.acked, h.told⟩
      simp only [moves, run, Group.step, hcaller]
      rfl
  | @relockOk t target flushTo ht =>
      obtain ⟨result, hcaller, hok⟩ : ∃ result, g.callers t = .relocking target flushTo result ∧
        result.toBool = true := hplays ht
      cases result with
      | error e => cases hok
      | ok u =>
          refine ⟨_, ?_, (h.relock flushTo true).round t target⟩
          simp only [moves, run, Group.step, hcaller]
          rfl
  | @relockErr t target flushTo ht =>
      obtain ⟨result, hcaller, hok⟩ : ∃ result, g.callers t = .relocking target flushTo result ∧
        result.toBool = false := hplays ht
      cases result with
      | ok u => cases hok
      | error e =>
          have hr := h.relock flushTo false
          refine ⟨{ g with st := Commit.afterFlush g.st flushTo false }.notifyAll.finish t target
            (.error e), ?_, hr.st_eq, plays_place hr.plays (show Pc.idle.Plays .away from rfl), fun T hT => ?_,
            fun T hT => ?_⟩
          · simp only [moves, run, Group.step, hcaller]
            rfl
          · exact (hr.acked T hT).imp id (List.mem_cons_of_mem _)
          · rcases List.mem_cons.mp hT with heq | hT
            · cases heq
            · exact hr.told T hT
  | @spurious t target ht =>
      have hcaller : g.callers t = .waiting target := hplays ht
      refine ⟨g.place t (.woken target), ?_, h.st_eq, plays_place h.plays rfl, h.acked, h.told⟩
      simp only [moves, run, Group.step, hcaller]
      rfl
  | @wake t target ht =>
      have hcaller : g.callers t = .woken target := hplays ht
      have hwait : Projects (s.withCommit (Commit.afterWait s.wal.commit))
          { g with st := Commit.afterWait g.st } :=
        ⟨by rw [h.st_eq]; rfl, h.plays, h.acked, h.told⟩
      refine ⟨_, ?_, hwait.round t target⟩
      simp only [moves, run, Group.step, hcaller]
      rfl

/-! ## Whole runs -/

/-- The run of the coordinator that belongs to a run of the log.  `rs` are the ranges
reserved since the log was opened with its end at `base`. -/
structure Coordinated (base : Nat) (moves : List Move) (rs : List Span) (s : Sys) (g : Group) :
    Prop extends Projects s g where
  run_eq : run Group.step (Group.new base) moves = some g
  tiles : Tiles base rs s.wal.tail
  mem_ranges : ∀ r ∈ rs, r ∈ s.ranges
  marks : Marks rs moves
  settled : ∀ a ∈ moves.filterMap Move.marks, s.status a ≠ .inflight
  inflight : ∀ r ∈ s.records, s.status r.1 = .inflight →
    (⟨r.1, r.1 + framedLen r.2.length⟩ : Span) ∈ rs
  within : ∀ i target, .call i target ∈ moves → target ≤ s.wal.tail
  entering : ∀ t target, s.threads t = .entering target → target ≤ s.wal.tail

variable {base : Nat} {ms : List Move} {rs : List Span}

theorem Coordinated.mark_lt (h : Coordinated base ms rs s g) {a : Nat}
    (ha : a ∈ ms.filterMap Move.marks) : a < s.wal.tail := by
  obtain ⟨m, hm, hma⟩ := List.mem_filterMap.mp ha
  have hr : ∃ r ∈ rs, r.lo = a := by
    cases m with
    | written start endAt =>
        cases hma
        exact ⟨_, h.marks.written _ _ hm, rfl⟩
    | failed start =>
        cases hma
        exact h.marks.failed _ hm
    | _ => cases hma
  obtain ⟨r, hr, rfl⟩ := hr
  have := h.tiles.bounds hr
  omega

/-- A step that reserves nothing and marks nothing. -/
theorem Coordinated.unmarked (h : Coordinated base ms rs s g) {a : Action} {g' : Group}
    (hmarks : (s.moves a).filterMap Move.marks = [])
    (hwithin : ∀ i target, .call i target ∈ s.moves a → target ≤ s.wal.tail)
    (hrun : run Group.step g (s.moves a) = some g') (hproj : Projects s' g')
    (htail : s'.wal.tail = s.wal.tail) (hhead : s'.wal.head = s.wal.head)
    (hlog : s'.log = s.log) (hstatus : s'.status = s.status)
    (hentering : ∀ t target, s'.threads t = .entering target → target ≤ s.wal.tail) :
    Coordinated base (ms ++ s.moves a) rs s' g' where
  toProjects := hproj
  run_eq := by
    rw [run_append h.run_eq]
    exact hrun
  tiles := by rw [htail]; exact h.tiles
  mem_ranges := by rw [ranges, hhead, hlog]; exact h.mem_ranges
  marks :=
    { written := fun a b hmem => by
        rcases List.mem_append.mp hmem with hmem | hmem
        · exact h.marks.written a b hmem
        · have : a ∈ (s.moves _).filterMap Move.marks := List.mem_filterMap.mpr ⟨_, hmem, rfl⟩
          rw [hmarks] at this
          cases this
      failed := fun a hmem => by
        rcases List.mem_append.mp hmem with hmem | hmem
        · exact h.marks.failed a hmem
        · have : a ∈ (s.moves _).filterMap Move.marks := List.mem_filterMap.mpr ⟨_, hmem, rfl⟩
          rw [hmarks] at this
          cases this
      distinct := by
        rw [List.filterMap_append, hmarks, List.append_nil]
        exact h.marks.distinct }
  settled := by
    rw [List.filterMap_append, hmarks, List.append_nil, hstatus]
    exact h.settled
  inflight := by rw [records, hhead, hlog, hstatus]; exact h.inflight
  within i target hmem := by
    rw [htail]
    rcases List.mem_append.mp hmem with hmem | hmem
    · exact h.within i target hmem
    · exact hwithin i target hmem
  entering := by rw [htail]; exact hentering

/-- A write ends: its range is one of the log's, and is marked for the first time. -/
theorem Coordinated.marked (h : Coordinated base ms rs s g) {m : Move} {g' : Group} {start : Nat}
    {record : List UInt8} (hmem : (start, record) ∈ s.records)
    (hfl : s.status start = .inflight)
    (hm : m = .written start (start + framedLen record.length) ∨ m = .failed start)
    (hrun : run Group.step g [m] = some g') (hproj : Projects s' g')
    (htail : s'.wal.tail = s.wal.tail) (hhead : s'.wal.head = s.wal.head) (hlog : s'.log = s.log)
    {status : Commit.Status} (hne : status ≠ .inflight)
    (hstatus : s'.status = Commit.setStatus s.status start status)
    (hentering : ∀ t target, s'.threads t = .entering target → target ≤ s.wal.tail) :
    Coordinated base (ms ++ [m]) rs s' g' := by
  have hrs := h.inflight (start, record) hmem hfl
  have hmarks : [m].filterMap Move.marks = [start] := by rcases hm with rfl | rfl <;> rfl
  have hnew : start ∉ ms.filterMap Move.marks := fun hold => h.settled start hold hfl
  have hother : ∀ a, a ≠ start → s'.status a = s.status a := fun a ha => by
    rw [hstatus, Commit.setStatus_ne _ _ ha]
  have hself : s'.status start = status := by rw [hstatus, Commit.setStatus_self]
  refine
    { toProjects := hproj, run_eq := by rw [run_append h.run_eq]; exact hrun,
      tiles := by rw [htail]; exact h.tiles,
      mem_ranges := by rw [ranges, hhead, hlog]; exact h.mem_ranges,
      marks := ⟨fun a b hab => ?_, fun a ha => ?_, ?_⟩, settled := fun a ha => ?_,
      inflight := fun r hr hr' => ?_, within := fun i target hi => ?_,
      entering := by rw [htail]; exact hentering }
  · rcases List.mem_append.mp hab with hab | hab
    · exact h.marks.written a b hab
    · rcases hm with rfl | rfl <;> cases List.mem_singleton.mp hab
      exact hrs
  · rcases List.mem_append.mp ha with ha | ha
    · exact h.marks.failed a ha
    · rcases hm with rfl | rfl <;> cases List.mem_singleton.mp ha
      exact ⟨_, hrs, rfl⟩
  · rw [List.filterMap_append, hmarks]
    exact List.nodup_append.mpr ⟨h.marks.distinct, List.nodup_singleton _, fun a ha b hb heq =>
      hnew (List.mem_singleton.mp hb ▸ heq ▸ ha)⟩
  · rw [List.filterMap_append, hmarks] at ha
    by_cases heq : a = start
    · rw [heq, hself]
      exact hne
    · rw [hother a heq]
      rcases List.mem_append.mp ha with ha | ha
      · exact h.settled a ha
      · exact absurd (List.mem_singleton.mp ha) heq
  · rw [records, hhead, hlog] at hr
    by_cases heq : r.1 = start
    · rw [heq, hself] at hr'
      exact absurd hr' hne
    · rw [hother _ heq] at hr'
      exact h.inflight r hr hr'
  · rw [htail]
    rcases List.mem_append.mp hi with hi | hi
    · exact h.within i target hi
    · rcases hm with rfl | rfl <;> cases List.mem_singleton.mp hi

/-- A range is reserved at the tail. -/
theorem Coordinated.reserve (h : Coordinated base ms rs s g) (hinv : Inv s) {t : Nat} {record : List UInt8}
    {ts : Bool} (hres : s.reserved + framedLen record.length < 2 ^ 64)
    (hproj : Projects (s.reserve t record ts) g) :
    Coordinated base ms (rs ++ [⟨s.wal.tail, s.wal.tail + framedLen record.length⟩])
      (s.reserve t record ts) g := by
  rw [hinv.reserved_eq] at hres
  have htail : (s.reserve t record ts).wal.tail = s.wal.tail + framedLen record.length :=
    Nat.mod_eq_of_lt hres
  have hpos := framedLen_pos record.length
  refine
    { toProjects := hproj, run_eq := h.run_eq, tiles := ?_, mem_ranges := fun r hr => ?_,
      marks := ⟨fun a b hab => List.mem_append_left _ (h.marks.written a b hab), fun a ha => ?_,
        h.marks.distinct⟩,
      settled := fun a ha => ?_, inflight := fun r hr hr' => ?_, within := fun i target hi => ?_,
      entering := fun u target hu => ?_ }
  · rw [htail]
    exact h.tiles.append ⟨rfl, Nat.lt_add_of_pos_right hpos, rfl⟩
  · rw [hinv.reserve_ranges]
    rcases List.mem_append.mp hr with hr | hr
    · exact List.mem_append_left _ (h.mem_ranges r hr)
    · exact List.mem_append_right _ hr
  · obtain ⟨r, hr, hlo⟩ := h.marks.failed a ha
    exact ⟨r, List.mem_append_left _ hr, hlo⟩
  · have hlt := h.mark_lt ha
    show Commit.setStatus s.status s.wal.tail .inflight a ≠ .inflight
    rw [Commit.setStatus_ne _ _ (Nat.ne_of_lt hlt)]
    exact h.settled a ha
  · rw [hinv.reserve_records] at hr
    rcases List.mem_append.mp hr with hr | hr
    · rw [(hinv.reserve_kept hr).2] at hr'
      exact List.mem_append_left _ (h.inflight r hr hr')
    · rw [List.mem_singleton.mp hr]
      exact List.mem_append_right _ List.mem_cons_self
  · rw [htail]
    exact Nat.le_trans (h.within i target hi) (Nat.le_add_right _ _)
  · rw [htail]
    rw [reserve_threads hres] at hu
    by_cases hut : u = t
    · rw [hut, setPc_self] at hu
      cases hu
    · rw [setPc_ne _ _ hut] at hu
      exact Nat.le_trans (h.entering u target hu) (Nat.le_add_right _ _)

/-- A thread that is about to enter `sync_to` was so before, unless it is the one that
moved. -/
theorem Coordinated.entering_follows (h : Coordinated base ms rs s g) {t : Nat} {threads : Nat → Pc}
    (hothers : ∀ u, u ≠ t → Follows (s.threads u) (threads u))
    (hself : ∀ target, threads t = .entering target → target ≤ s.wal.tail) (u target : Nat)
    (hu : threads u = .entering target) : target ≤ s.wal.tail := by
  by_cases hut : u = t
  · exact hself target (hut ▸ hu)
  · rcases hothers u hut with heq | ⟨T, -, hwoken⟩
    · exact h.entering u target (heq ▸ hu)
    · rw [hwoken] at hu
      cases hu

/-- A round leaves its thread inside `sync_to` or idle. -/
theorem round_entering (s : Sys) (t target : Nat) :
    ∃ pc, (s.round t target).threads = setPc s.threads t pc ∧ ∀ T, pc ≠ .entering T := by
  unfold Sys.round
  generalize Commit.syncCheck s.wal.commit target = r
  obtain ⟨st, exit⟩ := r
  cases exit with
  | done result => cases result <;> exact ⟨.idle, rfl, fun T hT => by cases hT⟩
  | lead flushTo => exact ⟨_, rfl, fun T hT => by cases hT⟩
  | wait => exact ⟨_, rfl, fun T hT => by cases hT⟩

/-- Every step of a run goes on with the run of the coordinator. -/
theorem Coordinated.step (h : Coordinated base ms rs s g) (hinv : Inv s) {a : Action}
    (hstep : step s a = some s') (hres : s'.reserved < 2 ^ 64) :
    ∃ rs' g', Coordinated base (ms ++ s.moves a) rs' s' g' := by
  obtain ⟨g', hrun, hproj⟩ := h.toProjects.step hstep
  have hround : ∀ {u : Sys} {t target : Nat}, (∀ v, v ≠ t → Follows (s.threads v) (u.threads v)) →
      ∀ v T, (u.round t target).threads v = .entering T → T ≤ s.wal.tail := by
    intro u t target hothers v T hv
    obtain ⟨pc, hpc, hne⟩ := u.round_entering t target
    rw [hpc] at hv
    refine h.entering_follows (t := t) (fun w hw => ?_) (fun T hT => ?_) v T hv
    · rw [setPc_ne _ _ hw]
      exact hothers w hw
    · rw [setPc_self] at hT
      exact absurd hT (hne T)
  have hsame : ∀ {t : Nat} {pc : Pc}, (∀ T, pc = .entering T → T ≤ s.wal.tail) →
      ∀ v T, setPc s.threads t pc v = .entering T → T ≤ s.wal.tail := fun {t pc} hpc =>
    h.entering_follows (setPc_follows _ _) fun T hT => hpc T (by rwa [setPc_self] at hT)
  have hrounded : ∀ (u : Sys) (t target : Nat), (u.round t target).wal.tail = u.wal.tail ∧
      (u.round t target).wal.head = u.wal.head ∧ (u.round t target).log = u.log ∧
      (u.round t target).status = u.status := by
    intro u t target
    obtain ⟨st, pc, acks, heq⟩ := u.round_eq t target
    rw [heq]
    exact ⟨rfl, rfl, rfl, rfl⟩
  have hnone : ∀ i target, Move.call i target ∈ [] → target ≤ s.wal.tail := by simp
  cases takes_of_step hstep with
  | refuse =>
      exact ⟨rs, g', h.unmarked rfl hnone hrun hproj rfl rfl rfl rfl h.entering⟩
  | @reserve t record ts ht =>
      cases hrun
      rw [show s.moves (.append t record ts) = [] from rfl, List.append_nil]
      exact ⟨_, g, h.reserve hinv hres hproj⟩
  | land | wroteOk | wroteErr =>
      exact ⟨rs, g', h.unmarked rfl hnone hrun hproj rfl rfl rfl rfl
        (hsame fun T hT => by cases hT)⟩
  | @markOk t start record ts ht =>
      have hth := hinv.thread t
      rw [ht] at hth
      have hle := (hinv.record_bounds hth.1).2
      have hmoves : s.moves (.mark t) = [.written start (start + framedLen record.length)] := by
        simp only [moves, ht]
      rw [hmoves] at hrun ⊢
      refine ⟨rs, g', h.marked hth.1 hth.2.1 (Or.inl rfl) hrun hproj rfl rfl rfl (by decide) rfl
        (h.entering_follows (fun u hu => settle_follows s hu) fun T hT => ?_)⟩
      have hT : setPc _ t (if ts then Pc.entering (start + framedLen record.length) else .idle) t =
        .entering T := hT
      rw [setPc_self] at hT
      cases ts <;> cases hT
      exact hle
  | @markErr t start record ts ht =>
      have hth := hinv.thread t
      rw [ht] at hth
      have hmoves : s.moves (.mark t) = [.failed start] := by simp only [moves, ht]
      rw [hmoves] at hrun ⊢
      refine ⟨rs, g', h.marked hth.1 hth.2.1 (Or.inr rfl) hrun hproj rfl rfl rfl (by decide) rfl
        (h.entering_follows (fun u hu => settle_follows s hu) fun T hT => ?_)⟩
      have hT : setPc _ t Pc.idle t = .entering T := hT
      rw [setPc_self] at hT
      cases hT
  | @markOverflow t start ht =>
      have hth := hinv.thread t
      rw [ht] at hth
      exact hth.elim
  | syncEmpty =>
      exact ⟨rs, g', h.unmarked rfl hnone hrun hproj rfl rfl rfl rfl h.entering⟩
  | sync =>
      exact ⟨rs, g', h.unmarked rfl hnone hrun hproj rfl rfl rfl rfl
        (hsame fun T hT => by cases hT; exact Nat.le_refl _)⟩
  | @enter t target ht =>
      obtain ⟨htail, hhead, hlog, hstatus⟩ := hrounded s t target
      have hmoves : s.moves (.enter t) = [.call t target] := by simp only [moves, ht]
      refine ⟨rs, g', h.unmarked (by rw [hmoves]; rfl) (fun i T hi => ?_) hrun hproj htail hhead
        hlog hstatus (hround fun v _ => Or.inl rfl)⟩
      rw [hmoves] at hi
      cases List.mem_singleton.mp hi
      exact h.entering t target ht
  | flush | spurious =>
      exact ⟨rs, g', h.unmarked rfl (fun i T hi => by cases List.mem_singleton.mp hi) hrun hproj
        rfl rfl rfl rfl (hsame fun T hT => by cases hT)⟩
  | @relockOk t target flushTo ht =>
      obtain ⟨htail, hhead, hlog, hstatus⟩ := hrounded
        ({ s.withCommit (Commit.afterFlush s.wal.commit flushTo true) with
          threads := notifyAll s.threads } : Sys) t target
      exact ⟨rs, g', h.unmarked rfl (fun i T hi => by cases List.mem_singleton.mp hi) hrun hproj
        htail hhead hlog hstatus (hround fun v _ => notifyAll_follows _ v)⟩
  | @relockErr t target flushTo ht =>
      refine ⟨rs, g', h.unmarked rfl (fun i T hi => by cases List.mem_singleton.mp hi) hrun hproj
        rfl rfl rfl rfl (h.entering_follows (t := t) (fun u hu => ?_) fun T hT => ?_)⟩
      · show Follows (s.threads u) (setPc (notifyAll s.threads) t .idle u)
        rw [setPc_ne _ _ hu]
        exact notifyAll_follows _ u
      · have hT : setPc (notifyAll s.threads) t Pc.idle t = .entering T := hT
        rw [setPc_self] at hT
        cases hT
  | @wake t target ht =>
      obtain ⟨htail, hhead, hlog, hstatus⟩ :=
        hrounded (s.withCommit (Commit.afterWait s.wal.commit)) t target
      exact ⟨rs, g', h.unmarked rfl (fun i T hi => by cases List.mem_singleton.mp hi) hrun hproj
        htail hhead hlog hstatus (hround fun v _ => Or.inl rfl)⟩

theorem opened_coordinated (wal : Wal HeadStore) (hcommit : wal.commit = Commit.new wal.tail) :
    Coordinated wal.tail [] [] (opened wal) (Group.new wal.tail) where
  st_eq := hcommit.symm
  plays _ := rfl
  acked _ h := by cases h
  told _ h := by cases h
  run_eq := rfl
  tiles := rfl
  mem_ranges _ h := by cases h
  marks := ⟨fun _ _ h => (by cases h), fun _ h => (by cases h), List.nodup_nil⟩
  settled _ h := by cases h
  inflight _ _ h := by cases h
  within _ _ h := by cases h
  entering _ _ h := by cases h

theorem run_reserved_le {acts : List Action} (hrun : run Sys.step s acts = some s') :
    s.reserved ≤ s'.reserved := by
  have hkeep : ∀ u a u', s.reserved ≤ u.reserved → Sys.step u a = some u' →
      s.reserved ≤ u'.reserved := fun _ _ _ hle hstep =>
    Nat.le_trans hle (step_sameLog hstep).reserved_ge
  exact run_invariant hkeep (Nat.le_refl _) hrun

theorem Coordinated.run (h : Coordinated base ms rs s g) (hinv : Inv s) {acts : List Action}
    (hrun : run Sys.step s acts = some s') (hres : s'.reserved < 2 ^ 64) :
    ∃ rs' g', Coordinated base (ms ++ s.trace acts) rs' s' g' := by
  induction acts generalizing s ms rs g with
  | nil =>
      cases hrun
      rw [trace, List.append_nil]
      exact ⟨rs, g, h⟩
  | cons a acts ih =>
      obtain ⟨u, hu, hrun⟩ := Option.bind_eq_some_iff.mp hrun
      have hle : u.reserved < 2 ^ 64 := Nat.lt_of_le_of_lt (run_reserved_le hrun) hres
      obtain ⟨rs1, g1, h1⟩ := h.step hinv hu hle
      obtain ⟨rs2, g2, h2⟩ := ih h1 (hinv.step hu hle) hrun
      refine ⟨rs2, g2, ?_⟩
      rw [trace, hu, ← List.append_assoc]
      exact h2

end Sys

/-- The log's threads are callers of its coordinator.  Every interleaving of any threads over
an opened log is an interleaving of the coordinator's sections alone, from a coordinator that
starts at the recovered end: the same watermarks, poison, counter and flags result, every
thread inside `sync_to` is the caller of its number, and the successes that were reported are
the same.  The marks are those of the ranges reserved since the open, which tile the log from
the recovered end to the tail, with no range marked twice, and no target lies past the tail. -/
theorem log_runs_coordinator (config : WalConfig) (store : HeadStore) (wal : Wal HeadStore)
    (hopen : Wal.withStoreAndConfig config store = (.ok wal, wal.store))
    (acts : List Action) (s : Sys) (hrun : run Sys.step (Sys.opened wal) acts = some s)
    (hreserved : s.reserved < 2 ^ 64) :
    let moves := (Sys.opened wal).trace acts
    ∃ (rs : List Span) (g : Group),
      run Group.step (Group.new wal.tail) moves = some g ∧
      g.st = s.wal.commit ∧ (∀ t, (s.threads t).Plays (g.callers t)) ∧
      (∀ T, 0 < T → (T ∈ s.acks ↔ (T, .ok ()) ∈ g.results)) ∧
      Tiles wal.tail rs s.wal.tail ∧ (∀ r ∈ rs, r ∈ s.ranges) ∧ Marks rs moves ∧
      ∀ i target, .call i target ∈ moves → target ≤ s.wal.tail := by
  intro moves
  have hcommit : wal.commit = Commit.new wal.tail := by
    obtain ⟨-, -, htail, -, hcommit, -⟩ := HeadStore.flat.open_ok hopen
    rw [hcommit, htail]
  obtain ⟨rs, g, h⟩ :=
    (Sys.opened_coordinated wal hcommit).run (Sys.opened_inv hopen) hrun hreserved
  refine ⟨rs, g, h.run_eq, h.st_eq, h.plays, fun T hpos => ⟨fun hT => ?_, h.told T⟩, h.tiles,
    h.mem_ranges, h.marks, h.within⟩
  exact (h.acked T hT).resolve_left (Nat.ne_of_gt hpos)

/-- Two threads over an empty log.  Thread 1 waits for thread 0's write, is woken by its mark
and flushes for both. -/
theorem log_runs_coordinator_two_threads :
    let acts : List Action :=
      [.append 0 [5] true, .sync 1, .enter 1, .land 0 9, .wrote 0 true, .mark 0, .wake 1,
        .enter 0, .flush 1 true fun _ => false, .relock 1, .wake 0]
    ∃ (s : Sys) (g : Group) (rs : List Span),
      run Sys.step (Sys.opened emptyWal) acts = some s ∧ s.acks = [9, 9] ∧
      run Group.step (Group.new 0) ((Sys.opened emptyWal).trace acts) = some g ∧
      g.st = s.wal.commit ∧ Tiles 0 rs 9 := by
  intro acts
  have heval : ((run Sys.step (Sys.opened emptyWal) acts).map fun s =>
      (s.acks, s.wal.tail, s.reserved)) = some ([9, 9], 9, 9) := by
    decide +kernel
  obtain ⟨s, hrun, heq⟩ := Option.map_eq_some_iff.mp heval
  simp only [Prod.mk.injEq] at heq
  obtain ⟨rs, g, hg, hst, -, -, htiles, -⟩ := log_runs_coordinator WalConfig.new _ emptyWal
    open_emptyWal acts s hrun (by rw [heq.2.2]; decide)
  rw [heq.2.1] at htiles
  exact ⟨s, g, rs, hrun, heq.1, hg, hst, htiles⟩

end WalDb
