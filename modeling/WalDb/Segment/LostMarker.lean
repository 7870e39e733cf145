/-
Opening a log whose head marker cannot be read.

Without a marker the head is taken to be 0, and the records are looked for from there.
As long as segment 0 is there, everything that was ever appended and not truncated at
the end is there as well: the dropped records are read again, and the live ones follow
them.  Once `truncate_before` has removed segment 0 there is no record at 0, and a
lenient open cuts the whole log away.
-/
import WalDb.Segment.Log

namespace WalDb

open Lib Record SegmentedStore

namespace Wal

/-- A call that returns Ok, or a reopen that does. -/
def perform (config : WalConfig) (wal : Wal SegmentedStore) :
    Session.LogOp → Option (Wal SegmentedStore)
  | .append record => Act.final (Wal.append record) wal
  | .sync => Act.final Wal.sync wal
  | .truncateBefore lsn => Act.final (Wal.truncateBefore lsn) wal
  | .truncateAfter lsn => Act.final (Wal.truncateAfter lsn) wal
  | .reopen => (openSegmentedWith config wal.store.segmentSize false wal.store.dir).toOption

/-- A truncation is to a boundary between records. -/
def Aligned (wal : Wal SegmentedStore) (op : Session.LogOp) : Prop := (Session.ofWal wal).Aligned op

instance (wal : Wal SegmentedStore) (op : Session.LogOp) : Decidable (wal.Aligned op) :=
  inferInstanceAs (Decidable ((Session.ofWal wal).Aligned op))

/-- Segment 0 has been removed, or the records below the head are all still there. -/
structure Rooted (config : WalConfig) (wal : Wal SegmentedStore) (ps : List (List UInt8)) : Prop
    extends Sound config wal ps where
  rooted : wal.store.seg 0 = none ∧ wal.store.segmentSize ≤ wal.head ∨
    ∃ qs, wal.head = (frames qs).length ∧ Intact wal.store.image wal.maxRecordSize 0 qs

section Rooted

variable {config : WalConfig} {wal wal' : Wal SegmentedStore} {ps ps' : List (List UInt8)}

/-- A call that leaves the head and what is below it. -/
theorem Rooted.keep (h : Rooted config wal ps) (hsound : Sound config wal' ps')
    (hhead : wal'.head = wal.head) (hsize : wal'.store.segmentSize = wal.store.segmentSize)
    (hseg : wal.store.segmentSize ≤ wal.head → wal.store.seg 0 = none → wal'.store.seg 0 = none)
    (himage : ∀ o b, o < wal.head → wal.store.image o = some b → wal'.store.image o = some b) :
    Rooted config wal' ps' := by
  refine ⟨hsound, h.rooted.imp (fun hgone => ?_) ?_⟩
  · rw [hhead, hsize]
    exact ⟨hseg hgone.2 hgone.1, hgone.2⟩
  · rintro ⟨qs, hqs, hintact⟩
    refine ⟨qs, hhead.trans hqs, ?_⟩
    rw [hsound.max_eq, ← h.max_eq]
    exact hintact.mono fun o b _ ho hb => himage o b (by omega) hb

theorem Rooted.append (h : Rooted config wal ps) {record : List UInt8}
    (hstep : wal.perform config (.append record) = some wal') : ∃ ps', Rooted config wal' ps' := by
  obtain ⟨lsn, hrun⟩ := Act.final_eq_some hstep
  obtain ⟨hlen, hfit, -⟩ := Wal.append_eq_ok h.toSettled hrun
  obtain ⟨s', hrun', hw, hsound⟩ := h.toSound.append hlen hfit
  rw [hrun] at hrun'
  cases hrun'
  have hle := h.head_le
  rw [← h.tail_eq] at hle
  refine ⟨_, h.keep hsound rfl hw.segmentSize_eq (fun hsize hnone => ?_) fun o b ho hb => ?_⟩
  · show s'.seg 0 = none
    rw [hw.seg_eq, patched, if_neg, hnone]
    rw [Touches]
    omega
  · exact hw.image_out (Or.inl (by omega)) hb

theorem Rooted.sync (h : Rooted config wal ps) (hstep : wal.perform config .sync = some wal') :
    ∃ ps', Rooted config wal' ps' := by
  obtain ⟨u, hrun⟩ := Act.final_eq_some hstep
  obtain ⟨wal1, hrun', hsound, hflush⟩ := h.toSound.sync
  rw [hrun] at hrun'
  cases hrun'
  refine ⟨ps, ?_⟩
  rcases hflush with ⟨-, rfl⟩ | ⟨-, s', hs', rfl⟩
  · exact h
  · refine h.keep hsound rfl hs'.segmentSize_eq (fun _ hnone => ?_) fun o b _ hb => ?_
    · exact hs'.seg_none hnone
    · show s'.image o = some b
      rw [hs'.image_eq]
      exact hb

theorem Rooted.reopen (h : Rooted config wal ps) (hstep : wal.perform config .reopen = some wal') :
    ∃ ps', Rooted config wal' ps' := by
  obtain ⟨wal1, hopen, hsound, hhead, -, -, -, hs⟩ := h.toSound.reopen false
  rw [perform, hopen] at hstep
  cases hstep
  refine ⟨ps, h.keep hsound hhead hs.segmentSize_eq (fun _ hnone => ?_) fun o b _ hb => ?_⟩
  · rw [hs.seg_eq, hnone]
  · rw [image, hs.segmentSize_eq, hs.seg_eq]
    exact hb

theorem Sound.holding (h : Sound config wal ps) : Session.Holding config (Session.ofWal wal) ps :=
  ⟨h, fun _ hr => absurd hr List.not_mem_nil, fun _ hr => absurd hr List.not_mem_nil, rfl⟩

/-- What `truncate_before` leaves below the new head: it has removed segment 0, or nothing. -/
theorem Rooted.drop {ps1 ps2 : List (List UInt8)} (h : Rooted config wal (ps1 ++ ps2)) {lsn : Nat}
    {s' : SegmentedStore} (hdrop : Dropped lsn wal.store s')
    (hsound : Sound config { wal with store := s', head := wal.head + (frames ps1).length } ps2) :
    Rooted config { wal with store := s', head := wal.head + (frames ps1).length } ps2 := by
  have hnew : wal.store.clampedHead lsn = wal.head + (frames ps1).length :=
    hdrop.head_eq.symm.trans hsound.head_eq
  have hseg := hdrop.seg_eq
  rw [hnew] at hseg
  refine ⟨hsound, ?_⟩
  show s'.seg 0 = none ∧ s'.segmentSize ≤ wal.head + (frames ps1).length ∨
    ∃ qs, wal.head + (frames ps1).length = (frames qs).length ∧
      Intact s'.image wal.maxRecordSize 0 qs
  rw [hdrop.segmentSize_eq]
  by_cases hk : 0 < wal.store.keepFrom (wal.head + (frames ps1).length)
  · left
    refine ⟨by rw [hseg, if_pos hk], ?_⟩
    have hpos := Nat.lt_of_lt_of_le hk (Nat.min_le_left _ _)
    exact (Nat.div_pos_iff.mp hpos).2
  · have hsame : ∀ i, s'.seg i = wal.store.seg i := fun i => by rw [hseg, if_neg (by omega)]
    have himage : s'.image = wal.store.image := by
      funext o
      exact image_eq_of_seg hdrop.segmentSize_eq (hsame _)
    rw [himage, hsame]
    refine h.rooted.imp (fun hgone => ⟨hgone.1, by omega⟩) ?_
    rintro ⟨qs, hqs, hintact⟩
    refine ⟨qs ++ ps1, by rw [frames_append, List.length_append, hqs], hintact.append ?_⟩
    rw [Nat.zero_add, ← hqs]
    exact (intact_append_iff.mp h.intact).1

theorem Rooted.truncateBefore (h : Rooted config wal ps) {lsn : Nat}
    (hok : wal.Aligned (.truncateBefore lsn))
    (hstep : wal.perform config (.truncateBefore lsn) = some wal') :
    ∃ ps', Rooted config wal' ps' := by
  obtain ⟨newHead, hrun⟩ := Act.final_eq_some hstep
  obtain ⟨ps1, ps2, rfl, hsplit⟩ := located_split wal.head lsn ps
    fun r hr hin => hok ⟨r, by rw [h.toSound.holding.live_eq]; exact hr, hin⟩
  rw [h.end_eq] at hsplit
  obtain ⟨s', hrun', hdrop, hsound⟩ := h.toSound.truncateBefore hsplit
  rw [hrun] at hrun'
  cases hrun'
  exact ⟨ps2, h.drop hdrop hsound⟩

theorem Rooted.truncateAfter (h : Rooted config wal ps) {lsn : Nat}
    (hok : wal.Aligned (.truncateAfter lsn))
    (hstep : wal.perform config (.truncateAfter lsn) = some wal') :
    ∃ ps', Rooted config wal' ps' := by
  obtain ⟨u, hrun⟩ := Act.final_eq_some hstep
  rw [Wal.truncateAfter] at hrun
  obtain ⟨_, _, hkept, -⟩ := Act.bind_eq_ok hrun
  obtain ⟨p, hp⟩ := Wal.recordAt_of_keptEnd h.sight.toProbes (SameFiles.refl h.ready) hkept
  obtain ⟨qs, rest, rfl, hlen⟩ := h.toSound.holding.kept_prefix hok hp
  have hlen : wal.head + (frames qs).length = lsn + framedLen p.length := hlen
  obtain ⟨s1, s2, s3, hrun', h1, h2, h3⟩ := h.toSound.truncateAfter_cuts hp
  rw [Wal.truncateAfter, hrun] at hrun'
  cases hrun'
  have hsize : s3.segmentSize = wal.store.segmentSize :=
    h3.segmentSize_eq.trans (h2.segmentSize_eq.trans h1.segmentSize_eq)
  refine ⟨qs, h.keep (h.toSound.cutAt hlen h1 h2 h3) rfl hsize (fun _ hnone => ?_)
    fun o b ho hb => ?_⟩
  · refine h3.seg_none ?_
    rw [h2.seg_eq, h1.seg_eq, hnone, cut_none]
  · show s3.image o = some b
    rw [h3.image_eq]
    exact h2.image_below (by omega) (by rw [h1.image_eq]; exact hb)

theorem Rooted.step {op : Session.LogOp} (h : Rooted config wal ps) (hok : wal.Aligned op)
    (hstep : wal.perform config op = some wal') : ∃ ps', Rooted config wal' ps' := by
  cases op with
  | append record => exact h.append hstep
  | sync => exact h.sync hstep
  | truncateBefore lsn => exact h.truncateBefore hok hstep
  | truncateAfter lsn => exact h.truncateAfter hok hstep
  | reopen => exact h.reopen hstep

/-! ## Opening without a marker -/

/-- No byte of the live records has been deleted or cut. -/
def KeepsLive (wal wal' : Wal SegmentedStore) : Prop :=
  ∀ o, wal.head ≤ o → o < wal.tail → wal'.store.image o = wal.store.image o

/-- Everything that is there from 0 on is read again. -/
theorem Rooted.payloads_zero (h : Rooted config wal ps) {qs : List (List UInt8)}
    (hqs : wal.head = (frames qs).length) (hintact : Intact wal.store.image wal.maxRecordSize 0 qs) :
    Intact wal.store.image config.maxRecordSize 0 (qs ++ ps) ∧
      logEnd wal.store.image config.maxRecordSize wal.store.maxWritten 0 = wal.store.maxWritten := by
  have hend := h.end_eq
  have htail := h.tail_eq
  have hall : Intact wal.store.image config.maxRecordSize 0 (qs ++ ps) := by
    rw [← h.max_eq]
    refine hintact.append ?_
    rw [Nat.zero_add, ← hqs]
    exact h.intact
  have htotal : 0 + (frames (qs ++ ps)).length = wal.store.maxWritten := by
    rw [frames_append, List.length_append]
    omega
  refine ⟨hall, ?_⟩
  rw [logEnd, hall.payloads_eq config.maxRecordSize_lt h.past htotal, htotal]

/-- Where segment 0 is gone, there is no record at 0, and the open cuts all there is. -/
theorem Rooted.keepsLive_gone (h : Rooted config wal ps) {s : SegmentedStore}
    (hfound : Found config s wal') (hhead : s.head = 0) (himage : s.image = wal.store.image)
    (hnone : wal.store.seg 0 = none) : wal.KeepsLive wal' ↔ wal.head = wal.tail := by
  have hzero : wal.store.image 0 = none := by
    rw [image, Nat.zero_div, hnone]
    split <;> rfl
  have htail := hfound.tail_eq
  rw [himage, hhead, logEnd_none fun _ => recordAt_none_of_past hzero] at htail
  have hpast := hfound.steady.past wal.head
  rw [← hfound.steady.tail_eq, htail] at hpast
  constructor
  · intro hkeep
    by_contra hne
    have hle := h.head_le
    rw [← h.tail_eq] at hle
    have hlt : wal.head < wal.tail := Nat.lt_of_le_of_ne hle hne
    obtain ⟨b, hb⟩ := h.intact.byte (Nat.le_refl _) (by rw [h.end_eq]; exact hlt)
    rw [← hkeep wal.head (Nat.le_refl _) hlt, hpast (Nat.zero_le _)] at hb
    cases hb
  · intro heq o hlo hhi
    omega

/-- Where records lead from 0 to the head, the open finds them before the live ones. -/
theorem Rooted.keepsLive_whole (h : Rooted config wal ps) {s : SegmentedStore}
    (hfound : Found config s wal') (hhead : s.head = 0) (himage : s.image = wal.store.image)
    (htotal : s.maxWritten = wal.store.maxWritten) {qs : List (List UInt8)}
    (hqs : wal.head = (frames qs).length) (hintact : Intact wal.store.image wal.maxRecordSize 0 qs) :
    wal.KeepsLive wal' ∧ (wal.head = wal.tail ∨ (wal.store.seg 0).isSome = true) := by
  obtain ⟨hall, hend⟩ := h.payloads_zero hqs hintact
  have htail := hfound.tail_eq
  rw [himage, htotal, hhead, hend, ← htotal] at htail
  constructor
  · intro o _ _
    rcases hfound.files with ⟨-, hsame⟩ | ⟨hlt, -⟩
    · rw [hsame.image_eq, himage]
    · omega
  · by_cases heq : wal.head = wal.tail
    · exact Or.inl heq
    · right
      have hpos : 0 < (frames (qs ++ ps)).length := by
        have := h.end_eq
        rw [frames_append, List.length_append]
        omega
      obtain ⟨b, hb⟩ := hall.byte (Nat.le_refl 0) (by omega)
      have := seg_of_image hb
      rwa [Nat.zero_div] at this

/-- Without a marker a lenient open keeps the live records exactly if there are none, or if
segment 0 is there. -/
theorem Rooted.open_lost (h : Rooted config wal ps) (hpol : config.openPolicy = .truncateTail)
    {bytes : Option (List UInt8)}
    (hlost : ({ wal.store.dir with headFile := bytes } : Dir).marker = none) :
    ∃ wal', openSegmentedWith config wal.store.segmentSize false
        { wal.store.dir with headFile := bytes } = .ok wal' ∧
      (wal.KeepsLive wal' ↔ wal.head = wal.tail ∨ (wal.store.seg 0).isSome = true) := by
  obtain ⟨s, hs, hopen⟩ := openSegmentedWith_eq config wal.store.segmentSize_pos false
    (d := { wal.store.dir with headFile := bytes }) h.ready.faults_eq
  have hfiles : s.FilesFit := fun i file hfile => by
    rw [hs.segmentSize_eq]
    exact h.filesFit i file (by rwa [seg, hs.dir_eq] at hfile)
  obtain ⟨wal', hwal, hfound⟩ := hs.found hfiles h.ready.faults_eq hpol
  refine ⟨wal', by rw [hopen, hwal], ?_⟩
  have hhead : s.head = 0 := by
    rw [hs.head_eq, hlost]
    exact Nat.zero_min _
  have himage : s.image = wal.store.image := by
    funext o
    refine image_eq_of_seg hs.segmentSize_eq ?_
    rw [seg, hs.dir_eq]
    rfl
  rcases h.rooted with ⟨hnone, -⟩ | ⟨qs, hqs, hintact⟩
  · rw [h.keepsLive_gone hfound hhead himage hnone, hnone]
    simp
  · obtain ⟨hkeep, hlive⟩ :=
      h.keepsLive_whole hfound hhead himage (hs.spans.unique h.spans) hqs hintact
    exact iff_of_true hkeep hlive

end Rooted

/-- Take any log that appends, syncs, truncations at record boundaries and reopens have made of
an empty directory, and replace its head marker by anything that cannot be read.  A lenient
open keeps every byte of the live records exactly if there is no live record, or if segment 0
has not been removed. -/
theorem lost_marker_keeps_records_iff {config : WalConfig}
    (hpol : config.openPolicy = .truncateTail) {size : Nat} {created : Bool}
    {start wal : Wal SegmentedStore} {ops : List Session.LogOp}
    (hopen : openSegmentedWith config size created Dir.empty = .ok start)
    (haligned : Along (perform config) Aligned start ops)
    (hrun : run (perform config) start ops = some wal) {bytes : Option (List UInt8)}
    (hlost : ({ wal.store.dir with headFile := bytes } : Dir).marker = none) :
    ∃ wal', openSegmentedWith config wal.store.segmentSize false
        { wal.store.dir with headFile := bytes } = .ok wal' ∧
      (wal.KeepsLive wal' ↔ wal.head = wal.tail ∨ (wal.store.seg 0).isSome = true) := by
  have hkeep : ∀ v op v', (∃ ps, Rooted config v ps) → v.Aligned op →
      v.perform config op = some v' → ∃ ps, Rooted config v' ps :=
    fun v op v' ⟨_, hv⟩ hok hstep => hv.step hok hstep
  obtain ⟨hsound, hhead, -⟩ := sound_empty hopen
  obtain ⟨ps, hs⟩ := run_along hkeep
    ⟨[], hsound, Or.inr ⟨[], hhead, Intact.nil _ _ _⟩⟩ haligned hrun
  exact hs.open_lost hpol hlost

/-- The head has moved within segment 0, and the marker is cut short. -/
theorem lost_marker_keeps_records_iff_first_segment :
    ∃ start wal wal', openSegmentedWith smallRecords 16 true Dir.empty = .ok start ∧
      run (perform smallRecords) start
        [.append [1], .append [2], .append [3], .sync, .truncateBefore 9] = some wal ∧
      wal.head = 9 ∧ wal.tail = 27 ∧
      openSegmentedWith smallRecords 16 false
        { wal.store.dir with headFile := some [9, 0, 0] } = .ok wal' ∧ wal.KeepsLive wal' := by
  have hobs : ((openSegmentedWith smallRecords 16 true Dir.empty).toOption.bind fun start =>
      (run (perform smallRecords) start
        [.append [1], .append [2], .append [3], .sync, .truncateBefore 9]).map fun wal =>
          decide (Along (perform smallRecords) Aligned start
              [.append [1], .append [2], .append [3], .sync, .truncateBefore 9] ∧
            wal.head = 9 ∧ wal.tail = 27 ∧ wal.store.segmentSize = 16 ∧
            (wal.store.seg 0).isSome = true)) = some true := by
    decide +kernel
  obtain ⟨start, hopen, hobs⟩ := Option.bind_eq_some_iff.mp hobs
  obtain ⟨wal, hrun, hobs⟩ := Option.map_eq_some_iff.mp hobs
  obtain ⟨haligned, hhead, htail, hsize, hseg⟩ := of_decide_eq_true hobs
  have hopen := Act.eq_ok_of_toOption hopen
  obtain ⟨wal', hopen', hiff⟩ := lost_marker_keeps_records_iff rfl hopen haligned hrun
    (show ({ wal.store.dir with headFile := some [9, 0, 0] } : Dir).marker = none from rfl)
  rw [hsize] at hopen'
  exact ⟨start, wal, wal', hopen, hrun, hhead, htail, hopen', hiff.mpr (Or.inr hseg)⟩

/-- Five records, of which the last two are live when segments 0 and 1 have been removed.
Without the marker the open cuts all of the log. -/
theorem lost_marker_cuts_live_records :
    ∃ start wal wal', openSegmentedWith smallRecords 16 true Dir.empty = .ok start ∧
      run (perform smallRecords) start [.append [1, 1, 1, 1], .append [2, 2, 2, 2],
        .append [3, 3, 3, 3], .append [4, 4, 4, 4], .append [5, 5, 5, 5], .sync,
        .truncateBefore 36] = some wal ∧
      wal.head = 36 ∧ wal.tail = 60 ∧
      openSegmentedWith smallRecords 16 false { wal.store.dir with headFile := none } = .ok wal' ∧
      wal'.truncatedOnOpen = 60 ∧ wal'.store.dir.segments.keys = [] ∧ ¬ wal.KeepsLive wal' := by
  have hobs : ((openSegmentedWith smallRecords 16 true Dir.empty).toOption.bind fun start =>
      (run (perform smallRecords) start [.append [1, 1, 1, 1], .append [2, 2, 2, 2],
        .append [3, 3, 3, 3], .append [4, 4, 4, 4], .append [5, 5, 5, 5], .sync,
        .truncateBefore 36]).bind fun wal =>
          (openSegmentedWith smallRecords 16 false
            { wal.store.dir with headFile := none }).toOption.map fun wal' =>
              decide (wal.head = 36 ∧ wal.tail = 60 ∧ wal'.truncatedOnOpen = 60 ∧
                wal'.store.dir.segments.keys = [] ∧
                wal'.store.image 36 ≠ wal.store.image 36)) = some true := by
    decide +kernel
  obtain ⟨start, hopen, hobs⟩ := Option.bind_eq_some_iff.mp hobs
  obtain ⟨wal, hrun, hobs⟩ := Option.bind_eq_some_iff.mp hobs
  obtain ⟨wal', hopen', hobs⟩ := Option.map_eq_some_iff.mp hobs
  obtain ⟨hhead, htail, hcut, hkeys, hne⟩ := of_decide_eq_true hobs
  exact ⟨start, wal, wal', Act.eq_ok_of_toOption hopen, hrun, hhead, htail,
    Act.eq_ok_of_toOption hopen', hcut, hkeys, fun h => hne (h 36 (by omega) (by omega))⟩

end Wal

end WalDb
