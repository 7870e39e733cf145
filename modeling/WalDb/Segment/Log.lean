/-
A log over a segmented store: append, sync, both truncations and reopening.

`truncate_before` and `truncate_after` move opposite ends of the log, and neither
looks at the other end.  `truncate_after` accepts any intact frame at the LSN it is
given, also one below the head whose segment is still there, and then cuts the log
below its own head.  Where every truncation is to a boundary of a live record the head
never passes the end, and every record stays readable, across reopens as well.
-/
import WalDb.Lib.Run
import WalDb.Segment.Sound

namespace WalDb

open Lib Record SegmentedStore

/-- A log in use, with what its user knows: the LSNs that appends have returned, and the
records appended since the last truncation. -/
structure Session where
  wal : Wal SegmentedStore
  lsns : List Nat
  recent : List Wal.Record
  /-- A call has panicked, or would wait for ever. -/
  broken : Bool

namespace Session

inductive LogOp where
  | append (record : List UInt8)
  | sync
  | truncateBefore (lsn : Nat)
  | truncateAfter (lsn : Nat)
  | reopen

/-- Go on after a call has returned.  Runs without I/O errors are looked at, so a call
that ends in one is not part of them. -/
def after {α : Type} (s : Session) (result : Except Fault α × Wal SegmentedStore)
    (ok : α → Wal SegmentedStore → Session) : Option Session :=
  match result with
  | (.ok a, wal) => some (ok a wal)
  | (.error (.err (.io _ _)), _) => none
  | (.error (.err _), wal) => some { s with wal := wal }
  | (.error _, wal) => some { s with wal := wal, broken := true }

/-- One operation.  A truncation is to an LSN that an earlier append has returned. -/
def step (config : WalConfig) (s : Session) : LogOp → Option Session
  | .append record => s.after (s.wal.append record) fun lsn wal =>
      { s with
        wal := wal
        lsns := lsn :: s.lsns
        recent := s.recent ++ [{ lsn := lsn, data := record }] }
  | .sync => s.after s.wal.sync fun _ wal => { s with wal := wal }
  | .truncateBefore lsn =>
      if lsn ∈ s.lsns then
        s.after (s.wal.truncateBefore lsn) fun _ wal => { s with wal := wal, recent := [] }
      else none
  | .truncateAfter lsn =>
      if lsn ∈ s.lsns then
        s.after (s.wal.truncateAfter lsn) fun _ wal => { s with wal := wal, recent := [] }
      else none
  | .reopen =>
      match openSegmentedWith config s.wal.store.segmentSize false s.wal.store.dir with
      | .ok wal => some { s with wal := wal }
      | .error (.err (.io _ _)) => none
      | .error _ => some { s with broken := true }

def ofWal (wal : Wal SegmentedStore) : Session := ⟨wal, [], [], false⟩

/-! ## The property -/

/-- The iterator of the log runs to its end and yields each of the records. -/
def Yields (wal : Wal SegmentedStore) (records : List Wal.Record) : Prop :=
  ∃ items wal', wal.iter.collect wal = (.ok items, wal') ∧ ∀ r ∈ records, .ok r ∈ items

/-- The two ends of the log are in order, in memory and on disk, and every record appended
since the last truncation is read back, now and after a reopen. -/
structure InOrder (config : WalConfig) (s : Session) : Prop where
  calls_return : s.broken = false
  head_le : s.wal.head ≤ s.wal.commit.committed
  committed_eq : s.wal.commit.committed = s.wal.tail
  tail_eq : s.wal.tail = s.wal.store.maxWritten
  storeHead_eq : s.wal.store.head = s.wal.head
  marker_le : s.wal.store.dir.marker.getD 0 ≤ s.wal.store.maxWritten
  iterates : Yields s.wal s.recent
  reopens : ∃ wal, openSegmentedWith config s.wal.store.segmentSize false s.wal.store.dir = .ok wal ∧
    Yields wal s.recent

/-! ## The condition -/

/-- The record that can be read at `lsn`. -/
def readable (s : Session) (lsn : Nat) : Option (List UInt8) :=
  recordAt s.wal.store.image s.wal.maxRecordSize lsn

/-- The records of the log, each with its LSN. -/
def live (s : Session) : List (Nat × List UInt8) :=
  located s.wal.head (payloads s.wal.store.image s.wal.maxRecordSize s.wal.store.maxWritten s.wal.head)

/-- `lsn` is strictly inside a live record. -/
def Inside (s : Session) (lsn : Nat) : Prop :=
  ∃ r ∈ s.live, r.1 < lsn ∧ lsn < r.1 + framedLen r.2.length

instance (s : Session) (lsn : Nat) : Decidable (s.Inside lsn) :=
  inferInstanceAs (Decidable (∃ r ∈ s.live, _))

/-- The condition on an operation: a truncation is not to the inside of a live record, and
`truncate_after` is not to a record below the head, unless that one ends at the head or
cannot be read any more. -/
def Aligned (s : Session) : LogOp → Prop
  | .truncateBefore lsn => ¬ s.Inside lsn
  | .truncateAfter lsn =>
      s.wal.head ≤ lsn ∧ ¬ s.Inside lsn ∨
        ∀ p ∈ s.readable lsn, lsn + framedLen p.length = s.wal.head
  | .append _ | .sync | .reopen => True

instance (s : Session) : ∀ op, Decidable (s.Aligned op)
  | .truncateBefore lsn => inferInstanceAs (Decidable (¬ s.Inside lsn))
  | .truncateAfter lsn => inferInstanceAs (Decidable (_ ∨ ∀ p ∈ s.readable lsn, _))
  | .append _ | .sync | .reopen => inferInstanceAs (Decidable True)

/-! ## The invariant -/

/-- The log holds the records `ps`, those appended since the last truncation among them,
and its files and its marker would let it be found again. -/
structure Holding (config : WalConfig) (s : Session) (ps : List (List UInt8)) : Prop extends
    Wal.Sound config s.wal ps where
  recent_mem : ∀ r ∈ s.recent, r ∈ Wal.recordsFrom s.wal.head ps
  lsns_lt : ∀ lsn ∈ s.lsns, lsn < 2 ^ 64
  unbroken : s.broken = false

section Steps

variable {config : WalConfig} {s s' : Session} {ps : List (List UInt8)}

theorem yields_of_steady {wal : Wal SegmentedStore} {records : List Wal.Record}
    (h : Wal.Steady wal ps) (hmem : ∀ r ∈ records, r ∈ Wal.recordsFrom wal.head ps) :
    Yields wal records := by
  obtain ⟨t, hrun, -⟩ := h.collect
  exact ⟨_, _, hrun, fun r hr => List.mem_map_of_mem (hmem r hr)⟩

theorem Holding.reopen (h : Holding config s ps) :
    ∃ wal, openSegmentedWith config s.wal.store.segmentSize false s.wal.store.dir = .ok wal ∧
      Holding config { s with wal := wal } ps := by
  obtain ⟨wal, hopen, hsound, hhead, -⟩ := h.toSound.reopen false
  refine ⟨wal, hopen, hsound, fun r hr => ?_, h.lsns_lt, h.unbroken⟩
  show r ∈ Wal.recordsFrom wal.head ps
  rw [hhead]
  exact h.recent_mem r hr

theorem Holding.inOrder (h : Holding config s ps) : InOrder config s where
  calls_return := h.unbroken
  head_le := by
    rw [h.committed_eq, h.tail_eq]
    exact h.head_le
  committed_eq := h.committed_eq
  tail_eq := h.tail_eq
  storeHead_eq := h.head_eq
  marker_le := by
    rw [h.marker_eq]
    exact h.head_le
  iterates := yields_of_steady h.toSteady h.recent_mem
  reopens := by
    obtain ⟨wal, hopen, hwal⟩ := h.reopen
    exact ⟨wal, hopen, yields_of_steady hwal.toSteady hwal.recent_mem⟩

/-! ### Appending and syncing -/

theorem Holding.append (h : Holding config s ps) {record : List UInt8}
    (hstep : step config s (.append record) = some s') : ∃ qs, Holding config s' qs := by
  rw [step] at hstep
  by_cases hlen : record.length ≤ s.wal.maxRecordSize
  · by_cases hfit : s.wal.tail + framedLen record.length < 2 ^ 64
    · obtain ⟨t, hrun, -, hsound⟩ := h.toSound.append hlen hfit
      rw [hrun] at hstep
      cases hstep
      refine ⟨ps ++ [record], hsound, fun r hr => ?_, fun lsn hlsn => ?_, h.unbroken⟩
      · show r ∈ Wal.recordsFrom s.wal.head (ps ++ [record])
        rw [Wal.recordsFrom, located_append, List.map_append, List.mem_append]
        rcases List.mem_append.mp hr with hr | hr
        · exact Or.inl (h.recent_mem r hr)
        · rw [List.mem_singleton.mp hr, h.end_eq]
          exact Or.inr List.mem_cons_self
      · rcases List.mem_cons.mp hlsn with rfl | hlsn
        · omega
        · exact h.lsns_lt lsn hlsn
    · obtain ⟨t, hrun⟩ := Wal.append_overflow hlen (Nat.not_lt.mp hfit)
      rw [hrun] at hstep
      cases hstep
  · rw [Wal.append_tooLarge (Nat.not_le.mp hlen)] at hstep
    cases hstep
    exact ⟨ps, h⟩

theorem Holding.sync (h : Holding config s ps) (hstep : step config s .sync = some s') :
    ∃ qs, Holding config s' qs := by
  obtain ⟨wal, hrun, hsound, hflush⟩ := h.toSound.sync
  rw [step, hrun] at hstep
  cases hstep
  refine ⟨ps, hsound, fun r hr => ?_, h.lsns_lt, h.unbroken⟩
  show r ∈ Wal.recordsFrom wal.head ps
  rw [hflush.alike.head_eq]
  exact h.recent_mem r hr

/-! ### Truncating -/

theorem Holding.live_eq (h : Holding config s ps) : s.live = located s.wal.head ps := by
  rw [live, h.payloads_eq]

theorem Holding.truncateBefore (h : Holding config s ps) {lsn : Nat} (hok : ¬ s.Inside lsn)
    (hstep : step config s (.truncateBefore lsn) = some s') : ∃ qs, Holding config s' qs := by
  rw [step] at hstep
  split at hstep
  · -- The new head is a boundary between two live records.
    obtain ⟨ps1, ps2, rfl, hsplit⟩ := located_split s.wal.head lsn ps
      fun r hr hin => hok ⟨r, by rw [h.live_eq]; exact hr, hin⟩
    rw [h.end_eq] at hsplit
    obtain ⟨t, hrun, -, hsound⟩ := h.toSound.truncateBefore hsplit
    rw [hrun] at hstep
    cases hstep
    exact ⟨ps2, hsound, fun _ hr => absurd hr List.not_mem_nil, h.lsns_lt, h.unbroken⟩
  · cases hstep

/-- The record that an aligned `truncate_after` finds ends an initial part of the log. -/
theorem Holding.kept_prefix (h : Holding config s ps) {lsn : Nat}
    (hok : s.Aligned (.truncateAfter lsn)) {p : List UInt8} (hp : s.readable lsn = some p) :
    ∃ qs rest, ps = qs ++ rest ∧ s.wal.head + (frames qs).length = lsn + framedLen p.length := by
  rcases hok with ⟨hle, hin⟩ | hends
  · obtain ⟨ps1, ps2, rfl, hsplit⟩ := located_split s.wal.head lsn ps
      fun r hr hc => hin ⟨r, by rw [h.live_eq]; exact hr, hc⟩
    have hlt := h.sight.serves.frame_le h.max_lt hp
    have htail := h.tail_eq
    have hend := h.end_eq
    have hlsn : lsn = s.wal.head + (frames ps1).length := by
      rw [framedLen, headerLen] at hlt
      omega
    obtain ⟨-, hintact⟩ := intact_append_iff.mp h.intact
    rw [← hlsn] at hintact
    cases ps2 with
    | nil =>
        rw [List.append_nil] at hend
        rw [framedLen, headerLen] at hlt
        omega
    | cons q rest =>
        have hq := ((intact_cons_iff h.max_lt).mp hintact).1
        rw [readable] at hp
        rw [hp] at hq
        cases hq
        refine ⟨ps1 ++ [p], rest, by simp, ?_⟩
        rw [frames_append, List.length_append, hlsn]
        simp [Nat.add_assoc]
  · exact ⟨[], ps, rfl, (hends p hp).symm⟩

theorem Holding.truncateAfter (h : Holding config s ps) {lsn : Nat}
    (hok : s.Aligned (.truncateAfter lsn))
    (hstep : step config s (.truncateAfter lsn) = some s') : ∃ qs, Holding config s' qs := by
  rw [step] at hstep
  split at hstep
  · rename_i hmem
    cases hp : s.readable lsn with
    | none =>
        obtain ⟨detail, t, hfail, ht⟩ := Wal.truncateAfter_none h.bounded.sight.toProbes hp
          (fun _ _ hask => hask.lt (h.lsns_lt lsn hmem)) (SameFiles.refl h.ready)
        rw [hfail] at hstep
        cases hstep
        exact ⟨ps, h.toSound.reads ht, h.recent_mem, h.lsns_lt, h.unbroken⟩
    | some p =>
        obtain ⟨qs, rest, rfl, hlen⟩ := h.kept_prefix hok hp
        obtain ⟨t, hrun, hsound⟩ := h.toSound.truncateAfter hp hlen
        rw [hrun] at hstep
        cases hstep
        exact ⟨qs, hsound, fun _ hr => absurd hr List.not_mem_nil, h.lsns_lt, h.unbroken⟩
  · cases hstep

/-! ### Runs -/

theorem Holding.step {op : LogOp} (h : Holding config s ps) (hok : s.Aligned op)
    (hstep : s.step config op = some s') : ∃ qs, Holding config s' qs := by
  cases op with
  | append record => exact h.append hstep
  | sync => exact h.sync hstep
  | truncateBefore lsn => exact h.truncateBefore hok hstep
  | truncateAfter lsn => exact h.truncateAfter hok hstep
  | reopen =>
      obtain ⟨wal, hopen, hwal⟩ := h.reopen
      rw [Session.step, hopen] at hstep
      cases hstep
      exact ⟨ps, hwal⟩

end Steps

/-- Where every truncation is to a boundary of a live record, and none is to a record below
the head, the head never passes the end: in memory and on disk, after any run of appends,
syncs, truncations at both ends and reopens.  No call panics, and every record appended
since the last truncation is read back. -/
theorem head_never_passes_end {config : WalConfig} {size : Nat} {created : Bool}
    {wal : Wal SegmentedStore} {ops : List LogOp} {s : Session}
    (hopen : openSegmentedWith config size created Dir.empty = .ok wal)
    (haligned : Along (step config) Aligned (ofWal wal) ops)
    (hrun : run (step config) (ofWal wal) ops = some s) : InOrder config s := by
  have hkeep : ∀ v op v', (∃ ps, Holding config v ps) → v.Aligned op →
      v.step config op = some v' → ∃ ps, Holding config v' ps :=
    fun v op v' ⟨_, hv⟩ hok hstep => hv.step hok hstep
  obtain ⟨ps, hs⟩ := run_along hkeep
    ⟨[], (Wal.sound_empty hopen).1, fun _ hr => absurd hr List.not_mem_nil,
      fun _ hlsn => absurd hlsn List.not_mem_nil, rfl⟩ haligned hrun
  exact hs.inOrder

/-- Truncations at both ends, to boundaries, with a reopen between them. -/
theorem head_never_passes_end_mixed :
    ∃ wal s, openSegmentedWith smallRecords 16 true Dir.empty = .ok wal ∧
      run (step smallRecords) (ofWal wal) [.append [1], .append [], .append [2, 3], .append [4],
        .truncateBefore 9, .reopen, .truncateAfter 17, .append [5], .sync] = some s ∧
      s.wal.head = 9 ∧ s.wal.tail = 36 ∧ InOrder smallRecords s := by
  have hobs : ((openSegmentedWith smallRecords 16 true Dir.empty).toOption.bind fun wal =>
      (run (step smallRecords) (ofWal wal) [.append [1], .append [], .append [2, 3], .append [4],
        .truncateBefore 9, .reopen, .truncateAfter 17, .append [5], .sync]).map fun s =>
          (s.wal.head, s.wal.tail, decide (Along (step smallRecords) Aligned (ofWal wal)
            [.append [1], .append [], .append [2, 3], .append [4], .truncateBefore 9, .reopen,
              .truncateAfter 17, .append [5], .sync]))) = some (9, 36, true) := by decide +kernel
  obtain ⟨wal, hopen, hobs⟩ := Option.bind_eq_some_iff.mp hobs
  obtain ⟨s, hrun, hobs⟩ := Option.map_eq_some_iff.mp hobs
  simp only [Prod.mk.injEq] at hobs
  obtain ⟨hhead, htail, halign⟩ := hobs
  have hopen := Act.eq_ok_of_toOption hopen
  exact ⟨wal, s, hopen, hrun, hhead, htail,
    head_never_passes_end hopen (of_decide_eq_true halign) hrun⟩

/-- Three records; the first two are dropped, but their segment stays.  `truncate_after`
finds the first one there and cuts the log below its head; the next `truncate_before`
panics in `clamp`. -/
theorem head_passes_end :
    ∃ wal s s', openSegmentedWith smallRecords 64 true Dir.empty = .ok wal ∧
      run (step smallRecords) (ofWal wal) [.append [], .append [], .append [], .sync,
        .truncateBefore 16, .truncateAfter 0] = some s ∧
      s.wal.head = 16 ∧ s.wal.tail = 8 ∧ ¬ InOrder smallRecords s ∧
      s.step smallRecords (.truncateBefore 8) = some s' ∧ s'.broken = true := by
  have hobs : ((openSegmentedWith smallRecords 64 true Dir.empty).toOption.bind fun wal =>
      (run (step smallRecords) (ofWal wal) [.append [], .append [], .append [], .sync,
        .truncateBefore 16, .truncateAfter 0]).bind fun s =>
          (s.step smallRecords (.truncateBefore 8)).map fun s' =>
            (s.wal.head, s.wal.commit.committed, s.wal.tail, s'.broken)) =
        some (16, 8, 8, true) := by decide +kernel
  obtain ⟨wal, hopen, hobs⟩ := Option.bind_eq_some_iff.mp hobs
  obtain ⟨s, hrun, hobs⟩ := Option.bind_eq_some_iff.mp hobs
  obtain ⟨s', hstep, hobs⟩ := Option.map_eq_some_iff.mp hobs
  simp only [Prod.mk.injEq] at hobs
  obtain ⟨hhead, hcommitted, htail, hbroken⟩ := hobs
  refine ⟨wal, s, s', Act.eq_ok_of_toOption hopen, hrun, hhead, htail, fun h => ?_, hstep, hbroken⟩
  have := h.head_le
  omega

end Session
end WalDb
