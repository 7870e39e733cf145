/-
A log over a segmented store behaves as a list of records.

`RecordList` is what the log is for: a head, and the records with their offsets.  It
knows nothing of segments, of files or of frames in them.  Every call of one thread on
the log is answered as the list answers it, reopening included, as long as the LSNs
that a call names are those of records in the log.
-/
import WalDb.Lib.Simulation
import WalDb.Segment.Sound

namespace WalDb

open Lib Record SegmentedStore

/-- The calls on a log. -/
inductive Call where
  | append (record : List UInt8)
  | sync
  | iter
  | iterFrom (lsn : Nat)
  | truncateAfter (lsn : Nat)
  | truncateBefore (lsn : Nat)
  | reopen

/-- What a call returns; a reopen returns the number of bytes that it cut. -/
inductive Answer where
  | done
  | lsn (lsn : Nat)
  | head (head : Nat)
  | records (items : List (Except WalError Wal.Record))
  | opened (cut : Nat)
  deriving DecidableEq

/-! ## The list of records -/

/-- The records in order, each with its offset.  Those below the head are hidden. -/
structure RecordList where
  head : Nat
  entries : List (Nat × List UInt8)

namespace RecordList

def empty : RecordList := ⟨0, []⟩

def visible (m : RecordList) : List (Nat × List UInt8) :=
  m.entries.filter fun r => decide (m.head ≤ r.1)

/-- Where the last record ends. -/
def endAt (m : RecordList) : Nat := m.entries.getLast?.elim 0 fun r => r.1 + framedLen r.2.length

def items (rs : List (Nat × List UInt8)) : List (Except WalError Wal.Record) :=
  rs.map fun r => .ok { lsn := r.1, data := r.2 }

def call (maxRecordSize : Nat) (m : RecordList) : Call → Except Fault Answer × RecordList
  | .append record =>
      if maxRecordSize < record.length then
        (.error (.err (.recordTooLarge record.length maxRecordSize)), m)
      else (.ok (.lsn m.endAt), { m with entries := m.entries ++ [(m.endAt, record)] })
  | .sync => (.ok .done, m)
  | .iter => (.ok (.records (items m.visible)), m)
  | .iterFrom lsn =>
      (.ok (.records (items (m.visible.filter fun r => decide (lsn ≤ r.1)))), m)
  | .truncateAfter lsn =>
      (.ok .done, { m with entries := m.entries.filter fun r => decide (r.1 ≤ lsn) })
  | .truncateBefore lsn => (.ok (.head lsn), { m with head := lsn })
  | .reopen => (.ok (.opened 0), m)

/-- The LSNs that a call names are those of records in the log; a prefix may also be
dropped up to the end. -/
def Names (m : RecordList) : Call → Prop
  | .iterFrom lsn => ∃ r ∈ m.visible, r.1 = lsn
  | .truncateAfter lsn => ∃ r ∈ m.visible, r.1 = lsn
  | .truncateBefore lsn => (∃ r ∈ m.visible, r.1 = lsn) ∨ lsn = m.endAt
  | _ => True

instance (m : RecordList) : ∀ c, Decidable (m.Names c)
  | .iterFrom lsn => inferInstanceAs (Decidable (∃ r ∈ m.visible, r.1 = lsn))
  | .truncateAfter lsn => inferInstanceAs (Decidable (∃ r ∈ m.visible, r.1 = lsn))
  | .truncateBefore lsn => inferInstanceAs (Decidable ((∃ r ∈ m.visible, r.1 = lsn) ∨ _))
  | .append _ | .sync | .iter | .reopen => inferInstanceAs (Decidable True)

end RecordList

/-! ## The log -/

namespace Wal

def answered {α : Type} (result : Except Fault α × Wal SegmentedStore) (answer : α → Answer) :
    Except Fault Answer × Wal SegmentedStore := (result.1.map answer, result.2)

/-- A call on a log over a segmented store. -/
def call (config : WalConfig) (wal : Wal SegmentedStore) :
    Call → Except Fault Answer × Wal SegmentedStore
  | .append record => answered (wal.append record) .lsn
  | .sync => answered wal.sync fun _ => .done
  | .iter => answered (wal.iter.collect wal) .records
  | .iterFrom lsn => answered ((wal.iterFrom lsn).collect wal) .records
  | .truncateAfter lsn => answered (wal.truncateAfter lsn) fun _ => .done
  | .truncateBefore lsn => answered (wal.truncateBefore lsn) .head
  | .reopen =>
      match openSegmentedWith config wal.store.segmentSize false wal.store.dir with
      | .ok wal' => (.ok (.opened wal'.truncatedOnOpen), wal')
      | .error fault => (.error fault, wal)

end Wal

/-- The call did not end in an I/O error. -/
def NoIoError : Except Fault Answer → Prop
  | .error (.err (.io _ _)) => False
  | _ => True

instance : DecidablePred NoIoError
  | .error (.err (.io _ _)) => .isFalse id
  | .error (.err (.recordTooLarge _ _)) => .isTrue trivial
  | .error (.err (.corruption _ _)) => .isTrue trivial
  | .error (.panics _) => .isTrue trivial
  | .error .blocked => .isTrue trivial
  | .ok _ => .isTrue trivial

/-! ## Where the records of a list lie -/

namespace RecordList

variable {dropped ps : List (List UInt8)} {m : RecordList}

theorem endAt_located (head : Nat) (ps : List (List UInt8)) :
    endAt ⟨head, located 0 ps⟩ = (frames ps).length := by
  rcases List.eq_nil_or_concat ps with rfl | ⟨qs, p, rfl⟩
  · rfl
  · rw [endAt, List.concat_eq_append, located_append, frames_append, List.length_append]
    simp [located]

/-- What lies at or above a boundary between the records. -/
theorem filter_ge (off : Nat) (ps qs : List (List UInt8)) :
    (located off (ps ++ qs)).filter (fun r => decide (off + (frames ps).length ≤ r.1)) =
      located (off + (frames ps).length) qs := by
  rw [located_append, List.filter_append, List.filter_eq_nil_iff.mpr, List.nil_append,
    List.filter_eq_self]
  · intro r hr
    exact decide_eq_true (mem_located_bounds hr).1
  · intro r hr
    have hend := (mem_located_bounds hr).2
    have hpos := framedLen_pos r.2.length
    simp only [decide_eq_true_eq]
    omega

/-- What lies at or below the start of a record. -/
theorem filter_le (off : Nat) (ps : List (List UInt8)) (p : List UInt8) (qs : List (List UInt8)) :
    (located off (ps ++ p :: qs)).filter (fun r => decide (r.1 ≤ off + (frames ps).length)) =
      located off (ps ++ [p]) := by
  have hpos := framedLen_pos p.length
  have hbefore : ∀ r ∈ located off ps, decide (r.1 ≤ off + (frames ps).length) = true := by
    intro r hr
    have hend := (mem_located_bounds hr).2
    exact decide_eq_true (by omega)
  have hafter : ∀ r ∈ located (off + (frames ps).length + framedLen p.length) qs,
      ¬ decide (r.1 ≤ off + (frames ps).length) = true := by
    intro r hr
    have hstart := (mem_located_bounds hr).1
    simp only [decide_eq_true_eq]
    omega
  rw [located_append, located_append, List.filter_append, List.filter_eq_self.mpr hbefore, located,
    List.filter_cons, if_pos (by simp), List.filter_eq_nil_iff.mpr hafter]
  rfl

end RecordList

/-! ## The log answers as the list -/

/-- The list holds the records of the log, behind those that have been dropped. -/
structure Refines (config : WalConfig) (wal : Wal SegmentedStore) (m : RecordList)
    (dropped ps : List (List UInt8)) : Prop where
  sound : Wal.Sound config wal ps
  entries_eq : m.entries = located 0 (dropped ++ ps)
  head_eq : m.head = (frames dropped).length
  sameHead : wal.head = m.head

section Refines

variable {config : WalConfig} {wal : Wal SegmentedStore} {m : RecordList}
  {dropped ps : List (List UInt8)}

theorem Refines.endAt_eq (h : Refines config wal m dropped ps) : m.endAt = wal.tail := by
  have hm : m.endAt = RecordList.endAt ⟨m.head, located 0 (dropped ++ ps)⟩ := by
    rw [← h.entries_eq]
  rw [hm, RecordList.endAt_located, frames_append, List.length_append, ← h.head_eq, ← h.sameHead]
  exact h.sound.end_eq

theorem Refines.visible_eq (h : Refines config wal m dropped ps) :
    m.visible = located wal.head ps := by
  have hfilter := RecordList.filter_ge 0 dropped ps
  rw [Nat.zero_add, ← h.head_eq, ← h.entries_eq] at hfilter
  rw [h.sameHead]
  exact hfilter

theorem Refines.items_visible (h : Refines config wal m dropped ps) :
    RecordList.items m.visible = (Wal.recordsFrom wal.head ps).map .ok := by
  rw [h.visible_eq, RecordList.items, Wal.recordsFrom, List.map_map]
  rfl

/-- A record that a call names splits the log. -/
theorem Refines.named (h : Refines config wal m dropped ps) {lsn : Nat}
    (hr : ∃ r ∈ m.visible, r.1 = lsn) :
    ∃ ps1 p ps2, ps = ps1 ++ p :: ps2 ∧ lsn = wal.head + (frames ps1).length := by
  obtain ⟨r, hr, rfl⟩ := hr
  rw [h.visible_eq] at hr
  obtain ⟨ps1, ps2, heq, hlsn⟩ := located_mem_split hr
  exact ⟨ps1, r.2, ps2, heq, hlsn⟩

/-- The log answers a call, and the two go on together. -/
def Agrees (config : WalConfig) (result : Except Fault Answer × Wal SegmentedStore)
    (result' : Except Fault Answer × RecordList) : Prop :=
  result.1 = result'.1 ∧ ∃ dropped ps, Refines config result.2 result'.2 dropped ps

theorem Refines.append (h : Refines config wal m dropped ps) (record : List UInt8)
    (hio : NoIoError (wal.call config (.append record)).1) :
    Agrees config (wal.call config (.append record))
      (m.call config.maxRecordSize (.append record)) := by
  have hmax := h.sound.max_eq
  rw [RecordList.call, Wal.call] at *
  by_cases hlen : record.length ≤ config.maxRecordSize
  · rw [if_neg (Nat.not_lt.mpr hlen)]
    rw [← hmax] at hlen
    by_cases hfit : wal.tail + framedLen record.length < 2 ^ 64
    · obtain ⟨s', hrun, -, hsound⟩ := h.sound.append hlen hfit
      rw [hrun]
      refine ⟨by rw [h.endAt_eq]; rfl, dropped, ps ++ [record], hsound, ?_, h.head_eq, h.sameHead⟩
      rw [← List.append_assoc, located_append, ← h.entries_eq, h.endAt_eq, ← h.sound.end_eq,
        frames_append, List.length_append, h.sameHead, h.head_eq, Nat.zero_add]
      rfl
    · obtain ⟨wal', hrun⟩ := Wal.append_overflow hlen (Nat.not_lt.mp hfit)
      rw [hrun] at hio
      exact hio.elim
  · rw [if_pos (Nat.not_le.mp hlen)]
    rw [← hmax] at hlen
    rw [Wal.append_tooLarge (Nat.not_le.mp hlen), hmax]
    exact ⟨rfl, dropped, ps, h⟩

theorem Refines.sync (h : Refines config wal m dropped ps) :
    Agrees config (wal.call config .sync) (m.call config.maxRecordSize .sync) := by
  obtain ⟨wal', hrun, hsound, hflush⟩ := h.sound.sync
  rw [Wal.call, hrun]
  exact ⟨rfl, dropped, ps, hsound, h.entries_eq, h.head_eq, hflush.alike.head_eq.trans h.sameHead⟩

/-- Reading changes nothing. -/
theorem Refines.reads (h : Refines config wal m dropped ps) {s' : SegmentedStore}
    (hs : SameFiles wal.store s') : Refines config { wal with store := s' } m dropped ps :=
  ⟨h.sound.reads hs, h.entries_eq, h.head_eq, h.sameHead⟩

theorem Refines.iter (h : Refines config wal m dropped ps) :
    Agrees config (wal.call config .iter) (m.call config.maxRecordSize .iter) := by
  obtain ⟨s', hrun, hs'⟩ := h.sound.toSteady.collect
  rw [Wal.call, RecordList.call, hrun, h.items_visible]
  exact ⟨rfl, dropped, ps, h.reads hs'⟩

theorem Refines.iterFrom (h : Refines config wal m dropped ps) {lsn : Nat}
    (hr : ∃ r ∈ m.visible, r.1 = lsn) :
    Agrees config (wal.call config (.iterFrom lsn))
      (m.call config.maxRecordSize (.iterFrom lsn)) := by
  obtain ⟨ps1, p, ps2, rfl, hlsn⟩ := h.named hr
  obtain ⟨s', hrun, hs'⟩ := h.sound.toSteady.collectFrom hlsn
  rw [Wal.call, RecordList.call, hrun, h.visible_eq, hlsn, RecordList.filter_ge]
  refine ⟨?_, dropped, _, h.reads hs'⟩
  rw [RecordList.items, Wal.recordsFrom, List.map_map]
  rfl

theorem Refines.truncateAfter (h : Refines config wal m dropped ps) {lsn : Nat}
    (hr : ∃ r ∈ m.visible, r.1 = lsn) :
    Agrees config (wal.call config (.truncateAfter lsn))
      (m.call config.maxRecordSize (.truncateAfter lsn)) := by
  obtain ⟨ps1, p, ps2, rfl, hlsn⟩ := h.named hr
  obtain ⟨-, hintact⟩ := intact_append_iff.mp h.sound.intact
  rw [← hlsn] at hintact
  obtain ⟨hp, -⟩ := (intact_cons_iff h.sound.max_lt).mp hintact
  have hsplit : Wal.Sound config wal ((ps1 ++ [p]) ++ ps2) := by
    rw [List.append_assoc]
    exact h.sound
  have hend : wal.head + (frames (ps1 ++ [p])).length = lsn + framedLen p.length := by
    rw [frames_append, List.length_append, hlsn]
    simp [Nat.add_assoc]
  obtain ⟨s', hrun, hsound⟩ := hsplit.truncateAfter hp hend
  rw [Wal.call, RecordList.call, hrun]
  refine ⟨rfl, dropped, ps1 ++ [p], hsound, ?_, h.head_eq, h.sameHead⟩
  have hfilter := RecordList.filter_le 0 (dropped ++ ps1) p ps2
  rw [frames_append, List.length_append, Nat.zero_add, ← h.head_eq, ← h.sameHead, ← hlsn,
    List.append_assoc, List.append_assoc, ← h.entries_eq] at hfilter
  exact hfilter

theorem Refines.truncateBefore (h : Refines config wal m dropped ps) {lsn : Nat}
    (hr : (∃ r ∈ m.visible, r.1 = lsn) ∨ lsn = m.endAt) :
    Agrees config (wal.call config (.truncateBefore lsn))
      (m.call config.maxRecordSize (.truncateBefore lsn)) := by
  obtain ⟨ps1, ps2, rfl, hlsn⟩ : ∃ ps1 ps2, ps = ps1 ++ ps2 ∧
      lsn = wal.head + (frames ps1).length := by
    rcases hr with hr | hr
    · obtain ⟨ps1, p, ps2, heq, hlsn⟩ := h.named hr
      exact ⟨ps1, p :: ps2, heq, hlsn⟩
    · refine ⟨ps, [], (List.append_nil _).symm, ?_⟩
      rw [hr, h.endAt_eq, h.sound.end_eq]
  have hend := h.sound.end_eq
  rw [frames_append, List.length_append] at hend
  have hsplit : min (max lsn wal.head) wal.tail = wal.head + (frames ps1).length := by omega
  obtain ⟨s', hrun, -, hsound⟩ := h.sound.truncateBefore hsplit
  rw [Wal.call, RecordList.call, hrun]
  refine ⟨by rw [hlsn]; rfl, dropped ++ ps1, ps2, hsound, ?_, ?_, hlsn.symm⟩
  · rw [List.append_assoc]
    exact h.entries_eq
  · show lsn = _
    rw [frames_append, List.length_append, hlsn, h.sameHead, h.head_eq]

theorem Refines.reopen (h : Refines config wal m dropped ps) :
    Agrees config (wal.call config .reopen) (m.call config.maxRecordSize .reopen) := by
  obtain ⟨wal', hopen, hsound, hhead, -, hcut, -⟩ := h.sound.reopen false
  rw [Wal.call, hopen]
  refine ⟨?_, dropped, ps, hsound, h.entries_eq, h.head_eq, hhead.trans h.sameHead⟩
  show Except.ok (Answer.opened wal'.truncatedOnOpen) = _
  rw [hcut]
  rfl

theorem Refines.call (h : Refines config wal m dropped ps) {c : Call} (hc : m.Names c)
    (hio : NoIoError (wal.call config c).1) :
    Agrees config (wal.call config c) (m.call config.maxRecordSize c) := by
  cases c with
  | append record => exact h.append record hio
  | sync => exact h.sync
  | iter => exact h.iter
  | iterFrom lsn => exact h.iterFrom hc
  | truncateAfter lsn => exact h.truncateAfter hc
  | truncateBefore lsn => exact h.truncateBefore hc
  | reopen => exact h.reopen

end Refines

/-- A segmented log refines the list of records.  Over any segment size a log in an empty
directory opens, and then answers every list of calls, reopens among them, exactly as the
list of records does, if the LSNs in the calls are those of records in the log and no call
ends in an I/O error. -/
theorem segmented_log_refines_record_list (config : WalConfig) {size : Nat} (hsize : 0 < size)
    (created : Bool) :
    ∃ wal, openSegmentedWith config size created Dir.empty = .ok wal ∧
      ∀ calls, Throughout (RecordList.call config.maxRecordSize) RecordList.Names .empty calls →
        (∀ a ∈ answers (Wal.call config) wal calls, NoIoError a) →
        answers (Wal.call config) wal calls =
          answers (RecordList.call config.maxRecordSize) .empty calls := by
  obtain ⟨wal, hopen, hsound, hhead, -⟩ := Wal.open_empty config hsize created
  refine ⟨wal, hopen, fun calls hnames hio => ?_⟩
  have hkeep : ∀ wal m c, (∃ dropped ps, Refines config wal m dropped ps) → m.Names c →
      NoIoError (wal.call config c).1 →
      (wal.call config c).1 = (m.call config.maxRecordSize c).1 ∧
        ∃ dropped ps, Refines config (wal.call config c).2 (m.call config.maxRecordSize c).2
          dropped ps := by
    intro wal m c h hc hno
    obtain ⟨dropped, ps, h⟩ := h
    exact h.call hc hno
  exact answers_eq (fun wal m => ∃ dropped ps, Refines config wal m dropped ps) hkeep
    ⟨[], [], hsound, rfl, rfl, hhead⟩ hnames hio

/-- Records that end inside, at and past segments of sixteen bytes, truncated at both ends,
with a reopen after each truncation. -/
theorem segmented_log_refines_record_list_mixed :
    ∃ wal, openSegmentedWith smallRecords 16 true Dir.empty = .ok wal ∧
      answers (Wal.call smallRecords) wal [.append [1], .append [2, 3, 4, 5, 6, 7, 8], .append [],
          .append [9], .truncateBefore 9, .reopen, .truncateAfter 24, .sync, .reopen, .append [10],
          .iterFrom 24, .truncateBefore 41, .iter] =
        [.ok (.lsn 0), .ok (.lsn 9), .ok (.lsn 24), .ok (.lsn 32), .ok (.head 9), .ok (.opened 0),
          .ok .done, .ok .done, .ok (.opened 0), .ok (.lsn 32),
          .ok (.records [.ok ⟨24, []⟩, .ok ⟨32, [10]⟩]), .ok (.head 41), .ok (.records [])] := by
  have hio : (openSegmentedWith smallRecords 16 true Dir.empty).toOption.map (fun wal =>
      decide (∀ a ∈ answers (Wal.call smallRecords) wal [.append [1],
        .append [2, 3, 4, 5, 6, 7, 8], .append [], .append [9], .truncateBefore 9, .reopen,
        .truncateAfter 24, .sync, .reopen, .append [10], .iterFrom 24, .truncateBefore 41, .iter],
        NoIoError a)) = some true := by decide +kernel
  obtain ⟨wal, hopen, hrefines⟩ :=
    segmented_log_refines_record_list smallRecords (show 0 < 16 by decide) true
  rw [hopen] at hio
  refine ⟨wal, hopen, ?_⟩
  rw [hrefines _ (by decide +kernel) (of_decide_eq_true (Option.some.inj hio))]
  decide +kernel

end WalDb
