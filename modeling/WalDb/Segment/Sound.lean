/-
A log over a segmented store that its files would give back.

`Sound` adds to `Steady` what a reopen relies on: no file is longer than a segment, the
highest one ends at the tail, and the marker records the head.  Every call of one thread
keeps it, with the records changed as the call says.
-/
import WalDb.Segment.Reopen

namespace WalDb

open Lib Record SegmentedStore

namespace Wal

/-- The log holds the records `ps`, and its files and its marker say so. -/
structure Sound (config : WalConfig) (wal : Wal SegmentedStore) (ps : List (List UInt8)) :
    Prop extends Steady wal ps where
  max_eq : wal.maxRecordSize = config.maxRecordSize
  short : wal.store.Short
  ends : wal.store.EndsAt wal.store.maxWritten
  marker_eq : wal.store.dir.marker.getD 0 = wal.head

section Sound

variable {config : WalConfig} {wal : Wal SegmentedStore} {ps : List (List UInt8)}

theorem Sound.head_le (h : Sound config wal ps) : wal.head ≤ wal.store.maxWritten := by
  rw [← h.tail_eq, ← h.end_eq]
  exact Nat.le_add_right _ _

theorem Sound.spans (h : Sound config wal ps) :
    wal.store.dir.Spans wal.store.segmentSize wal.store.maxWritten := h.ends.spans h.fits

/-- No file of a sound log reaches the last offset. -/
theorem Sound.filesFit (h : Sound config wal ps) : wal.store.FilesFit :=
  filesFit_of_segLen fun _ _ hn => Nat.lt_of_le_of_lt (h.ends.reach h.short hn) h.fits

theorem Sound.bounded (h : Sound config wal ps) :
    Bounded wal.store.image wal.store.maxWritten (SameFiles wal.store) :=
  SegmentedStore.bounded h.past h.fits h.filesFit

theorem Sound.transfer (h : Sound config wal ps) {wal' : Wal SegmentedStore}
    (hsteady : Steady wal' ps) (ha : Alike wal wal') : Sound config wal' ps where
  toSteady := hsteady
  max_eq := ha.max_eq.trans h.max_eq
  short := (short_congr ha.segmentSize_eq ha.segLen_eq).mpr h.short
  ends := by
    rw [endsAt_congr ha.segmentSize_eq ha.segLen_eq, ha.maxWritten_eq]
    exact h.ends
  marker_eq := by
    rw [Dir.marker_congr ha.headFile_eq, ha.head_eq]
    exact h.marker_eq

theorem Sound.reads (h : Sound config wal ps) {s' : SegmentedStore} (hs : SameFiles wal.store s') :
    Sound config { wal with store := s' } ps :=
  h.transfer (h.toSteady.reads hs)
    ⟨rfl, rfl, hs.segmentSize_eq, hs.segLen_eq, hs.maxWritten_eq, hs.headFile_eq⟩

/-! ## Appending and syncing -/

theorem Sound.append (h : Sound config wal ps) {record : List UInt8}
    (hlen : record.length ≤ wal.maxRecordSize)
    (hfit : wal.tail + framedLen record.length < 2 ^ 64) :
    ∃ s', wal.append record = (.ok wal.tail, wal.appended record s') ∧
      Written wal.tail (frame record) wal.store s' ∧
      Sound config (wal.appended record s') (ps ++ [record]) := by
  obtain ⟨s', hrun, hw, hsteady⟩ := h.toSteady.append hlen hfit
  have htail := h.tail_eq
  have hne : frame record ≠ [] := List.ne_nil_of_length_pos (by
    rw [frame_length, framedLen, headerLen]
    omega)
  refine ⟨s', hrun, hw, hsteady, h.max_eq, hw.toPatched.short h.short, ?_, ?_⟩
  · show s'.EndsAt s'.maxWritten
    have := hw.toPatched.endsAt hne (by rw [frame_length]; exact hfit)
      (fun i hi => by rw [htail]; exact h.ends.low hi) (h.past _ (by omega))
    rwa [hw.maxWritten_eq, Nat.max_eq_right (by omega)]
  · show s'.dir.marker.getD 0 = wal.head
    rw [Dir.marker_congr hw.headFile_eq]
    exact h.marker_eq

/-- Appending records one after the other adds those that are not too large. -/
theorem Sound.appendEach (h : Sound config wal ps) {records : List (List UInt8)}
    {wal' : Wal SegmentedStore} (hrun : wal.appendEach records = (.ok (), wal')) :
    Sound config wal' (ps ++ accepted wal.maxRecordSize records) ∧ wal'.head = wal.head ∧
      wal'.store.segmentSize = wal.store.segmentSize := by
  have hnil : Sound config wal (ps ++ []) := by rwa [List.append_nil]
  refine appendEach_induct (P := fun qs w => Sound config w (ps ++ qs) ∧ w.head = wal.head ∧
    w.store.segmentSize = wal.store.segmentSize) (fun hw => hw.1.toSteady) ?_ ⟨hnil, rfl, rfl⟩ hrun
  rintro qs w record lsn w' ⟨hsound, hhead, hsize⟩ happ
  obtain ⟨hlen, hfit, -⟩ := Wal.append_eq_ok hsound.toSettled happ
  obtain ⟨s', happ', hw, hsound'⟩ := hsound.append hlen hfit
  rw [happ] at happ'
  cases happ'
  exact ⟨by rwa [List.append_assoc] at hsound', hhead, hw.segmentSize_eq.trans hsize⟩

theorem Sound.sync (h : Sound config wal ps) :
    ∃ wal', Wal.sync wal = (.ok (), wal') ∧ Sound config wal' ps ∧ Flushes wal wal' := by
  obtain ⟨wal', hrun, hsteady, hflush⟩ := h.toSteady.sync
  exact ⟨wal', hrun, h.transfer hsteady hflush.alike, hflush⟩

/-! ## Truncating -/

/-- A log whose head has moved up past some records, and that has lost segments below the one
of the new head, holds the records that are left. -/
theorem Sound.thin {ps1 ps2 : List (List UInt8)} (h : Sound config wal (ps1 ++ ps2)) {newHead : Nat}
    (hnew : newHead = wal.head + (frames ps1).length) {s' : SegmentedStore} (hready : Ready s')
    (ht : Thinned (wal.store.keepFrom newHead) wal.store s')
    (hmax : s'.maxWritten = wal.store.maxWritten) (hhead : s'.head = newHead)
    (hmarker : s'.dir.marker.getD 0 = newHead) :
    Sound config { wal with store := s', head := newHead } ps2 := by
  have hend := h.end_eq
  have htail := h.tail_eq
  rw [frames_append, List.length_append] at hend
  obtain ⟨-, hintact⟩ := intact_append_iff.mp h.intact
  have hkept : ∀ o, newHead ≤ o → s'.image o = wal.store.image o := fun o ho =>
    ht.image_kept (Nat.le_trans (Nat.min_le_left _ _) (Nat.div_le_div_right ho))
  refine ⟨⟨⟨h.committed_eq, h.durable_le, h.pending_eq, h.syncing_eq, h.poison_eq,
    h.flushFailed_eq⟩, h.max_lt, hready, fun o ho => ?_, ?_, htail.trans hmax.symm, hhead, ?_, ?_⟩,
    h.max_eq, ht.short h.short, ?_, hmarker⟩
  · have ho : s'.maxWritten ≤ o := ho
    rw [hmax] at ho
    show s'.image o = none
    rw [hkept o (by omega)]
    exact h.past o ho
  · show s'.maxWritten < 2 ^ 64
    rw [hmax]
    exact h.fits
  · rw [hnew]
    refine hintact.mono fun o b hlo _ hb => ?_
    show s'.image o = some b
    rw [hkept o (by omega)]
    exact hb
  · show newHead + _ = wal.tail
    omega
  · show s'.EndsAt s'.maxWritten
    rw [hmax]
    exact ht.endsAt h.short h.ends (Nat.min_le_right _ _)

/-- `truncate_before` at a boundary between two records drops the records below it. -/
theorem Sound.truncateBefore {ps1 ps2 : List (List UInt8)} (h : Sound config wal (ps1 ++ ps2))
    {lsn : Nat}
    (hsplit : min (max lsn wal.head) wal.tail = wal.head + (frames ps1).length) :
    ∃ s', wal.truncateBefore lsn = (.ok (wal.head + (frames ps1).length),
        { wal with store := s', head := wal.head + (frames ps1).length }) ∧
      Dropped lsn wal.store s' ∧
      Sound config { wal with store := s', head := wal.head + (frames ps1).length } ps2 := by
  have hle : wal.store.head ≤ wal.store.maxWritten := by
    rw [h.head_eq]
    exact h.head_le
  obtain ⟨s', hdrop, hs'⟩ := SegmentedStore.truncateBefore_ok h.ready hle lsn
  have hnew : wal.store.clampedHead lsn = wal.head + (frames ps1).length := by
    rw [clampedHead, h.head_eq, ← h.tail_eq, hsplit]
  have hmarker := marker_headMarker (Nat.lt_of_le_of_lt (clampedHead_le _ lsn) h.fits)
    hs'.headFile_eq
  rw [hnew] at hdrop hmarker
  refine ⟨s', Wal.truncateBefore_ok hdrop, hs', h.thin rfl hs'.toReady ?_ hs'.maxWritten_eq
    (hs'.head_eq.trans hnew) (by rw [hmarker]; rfl)⟩
  rw [← hnew]
  exact hs'.thinned

/-- A log cut at the end of an initial part of its records holds that part. -/
theorem Sound.cutAt {qs rest : List (List UInt8)} (h : Sound config wal (qs ++ rest)) {newEnd : Nat}
    (hend : wal.head + (frames qs).length = newEnd) {s1 s2 s3 : SegmentedStore}
    (h1 : SameFiles wal.store s1) (h2 : Truncated newEnd s1 s2) (h3 : Synced s2 s3) :
    Sound config (wal.cutAt newEnd s3) qs := by
  have htotal := h.end_eq
  have htail := h.tail_eq
  rw [frames_append, List.length_append] at htotal
  obtain ⟨hintact, -⟩ := intact_append_iff.mp h.intact
  have hshort1 : s1.Short := (short_congr h1.segmentSize_eq h1.segLen_eq).mpr h.short
  have hends1 : s1.EndsAt wal.store.maxWritten :=
    (endsAt_congr h1.segmentSize_eq h1.segLen_eq).mpr h.ends
  have hmax3 : s3.maxWritten = newEnd := h3.maxWritten_eq.trans h2.maxWritten_eq
  -- The cut is at the end, or in a segment that holds a live byte.
  have hends2 : s2.EndsAt newEnd := by
    by_cases hlt : newEnd < wal.store.maxWritten
    · obtain ⟨b, hb⟩ := h.intact.byte (o := newEnd) (by omega)
        (by rw [frames_append, List.length_append]; omega)
      rw [← h1.image_eq] at hb
      exact h2.endsAt (seg_of_image hb)
    · rw [show wal.store.maxWritten = newEnd by omega] at hends1
      exact h2.endsAt_self hends1
  refine ⟨⟨h.toSettled.cutAt newEnd s3, h.max_lt, h3.toReady, fun o ho => ?_, ?_, hmax3.symm, ?_, ?_,
    hend⟩, h.max_eq, ?_, ?_, ?_⟩
  · have ho : s3.maxWritten ≤ o := ho
    show s3.image o = none
    rw [h3.image_eq]
    exact h2.image_past (hmax3 ▸ ho)
  · show s3.maxWritten < 2 ^ 64
    have := h.fits
    omega
  · exact h3.head_eq.trans (h2.head_eq.trans (h1.head_eq.trans h.head_eq))
  · show Intact s3.image _ _ _
    rw [h3.image_eq]
    refine hintact.mono fun o b _ ho hb => h2.image_below (by omega) ?_
    rw [h1.image_eq]
    exact hb
  · exact (short_congr h3.segmentSize_eq h3.segLen_eq).mpr (h2.short hshort1)
  · show s3.EndsAt s3.maxWritten
    rw [hmax3, endsAt_congr h3.segmentSize_eq h3.segLen_eq]
    exact hends2
  · show s3.dir.marker.getD 0 = wal.head
    rw [Dir.marker_congr (h3.headFile_eq.trans (h2.headFile_eq.trans h1.headFile_eq))]
    exact h.marker_eq

/-- What `truncate_after` at an intact record does: it reads the record, cuts the store at its
end and flushes it. -/
theorem Sound.truncateAfter_cuts (h : Sound config wal ps) {lsn : Nat} {p : List UInt8}
    (hp : recordAt wal.store.image wal.maxRecordSize lsn = some p) :
    ∃ s1 s2 s3, wal.truncateAfter lsn = (.ok (), wal.cutAt (lsn + framedLen p.length) s3) ∧
      SameFiles wal.store s1 ∧ Truncated (lsn + framedLen p.length) s1 s2 ∧ Synced s2 s3 := by
  obtain ⟨s1, hkept, h1⟩ := Wal.keptEnd_record h.sight.serves h.max_lt hp (SameFiles.refl h.ready)
  obtain ⟨s2, hcut, h2⟩ := truncate_ok h1.toReady (lsn + framedLen p.length)
  obtain ⟨s3, hsync, h3⟩ := sync_ok h2.toReady
  exact ⟨s1, s2, s3, Wal.truncateAfter_ok hkept hcut hsync, h1, h2, h3⟩

/-- `truncate_after` at an intact record that ends an initial part of the records keeps that
part. -/
theorem Sound.truncateAfter {qs rest : List (List UInt8)} (h : Sound config wal (qs ++ rest))
    {lsn : Nat} {p : List UInt8} (hp : recordAt wal.store.image wal.maxRecordSize lsn = some p)
    (hend : wal.head + (frames qs).length = lsn + framedLen p.length) :
    ∃ s', wal.truncateAfter lsn = (.ok (), wal.cutAt (lsn + framedLen p.length) s') ∧
      Sound config (wal.cutAt (lsn + framedLen p.length) s') qs := by
  obtain ⟨s1, s2, s3, hrun, h1, h2, h3⟩ := h.truncateAfter_cuts hp
  exact ⟨s3, hrun, h.cutAt hend h1 h2 h3⟩

/-! ## Opening -/

theorem Sound.reopen (h : Sound config wal ps) (created : Bool) :
    ∃ wal', openSegmentedWith config wal.store.segmentSize created wal.store.dir = .ok wal' ∧
      Sound config wal' ps ∧ wal'.head = wal.head ∧ wal'.tail = wal.tail ∧
      wal'.truncatedOnOpen = 0 ∧ wal'.commit = Commit.new wal.tail ∧
      Reopened wal.store wal'.store := by
  have hmark : min (wal.store.dir.marker.getD 0) wal.store.maxWritten = wal.head := by
    rw [h.marker_eq]
    exact Nat.min_eq_left h.head_le
  obtain ⟨wal', hopen, hsteady, hhead, htail, hcut, hmax, hcommit, hs⟩ :=
    h.toSteady.reopen h.max_eq h.spans hmark created
  refine ⟨wal', hopen, ?_, hhead, htail, hcut, hcommit, hs⟩
  exact h.transfer hsteady ⟨hhead, hmax.trans h.max_eq.symm, hs.segmentSize_eq,
    fun i => by rw [segLen, segLen, hs.seg_eq], hs.maxWritten_eq, hs.headFile_eq⟩

/-- An empty directory opens as a log that holds nothing. -/
theorem open_empty (config : WalConfig) {size : Nat} (hsize : 0 < size) (created : Bool) :
    ∃ wal, openSegmentedWith config size created Dir.empty = .ok wal ∧
      Sound config wal [] ∧ wal.head = 0 ∧ wal.store.syncedFrom = 0 ∧
      ∀ i, wal.store.segLen i = none := by
  obtain ⟨s, hs, heq⟩ := openSegmentedWith_eq config hsize created (d := Dir.empty) rfl
  have hlen : s.maxWritten = 0 := hs.spans.unique (Or.inl ⟨fun _ => rfl, rfl⟩)
  have hhead : s.head = 0 := by
    have := hs.head_le
    omega
  have hnone : ∀ i, s.segLen i = none := fun i => by
    rw [segLen, seg, hs.dir_eq]
    rfl
  have hend : payloads s.image config.maxRecordSize s.maxWritten s.head = [] :=
    payloads_none fun hlt => by omega
  obtain ⟨s', hs', hwal, hsteady⟩ := hs.open_whole config rfl
    (by rw [logEnd, hend, hhead, hlen]; rfl)
  rw [hend] at hsteady
  refine ⟨_, by rw [heq, hwal], ⟨hsteady, rfl, ?_, ?_, ?_⟩, hhead, ?_,
    fun i => (hs'.segLen_eq i).trans (hnone i)⟩
  · refine (short_congr hs'.segmentSize_eq hs'.segLen_eq).mpr fun i n hn => ?_
    rw [hnone] at hn
    cases hn
  · exact (endsAt_congr hs'.segmentSize_eq hs'.segLen_eq).mpr
      (Or.inl ⟨hnone, hs'.maxWritten_eq.trans hlen⟩)
  · show s'.dir.marker.getD 0 = s.head
    rw [Dir.marker_congr (hs'.headFile_eq.trans (by rw [hs.dir_eq])), hhead]
    rfl
  · show s'.syncedFrom = 0
    rw [hs'.syncedFrom_eq, hs.syncedFrom_eq, hlen, Nat.zero_div]

theorem sound_empty {size : Nat} {created : Bool}
    (hopen : openSegmentedWith config size created Dir.empty = .ok wal) :
    Sound config wal [] ∧ wal.head = 0 ∧ wal.store.syncedFrom = 0 ∧
      ∀ i, wal.store.segLen i = none := by
  obtain ⟨wal', hopen', hsound⟩ := open_empty config (openSegmentedWith_pos hopen) created
  rw [hopen] at hopen'
  cases hopen'
  exact hsound

/-- The log of the records, appended in a new directory and synced. -/
def freshLog (config : WalConfig) (size : Nat) (records : List (List UInt8)) :
    Option (Wal SegmentedStore) :=
  (openSegmentedWith config size true Dir.empty).toOption.bind fun wal =>
    (Act.final (Wal.appendEach records) wal).bind (Act.final Wal.sync)

theorem sound_freshLog {size : Nat} {records : List (List UInt8)}
    (h : freshLog config size records = some wal) :
    Sound config wal (accepted config.maxRecordSize records) ∧ wal.head = 0 := by
  obtain ⟨wal0, hopen, h⟩ := Option.bind_eq_some_iff.mp h
  obtain ⟨wal1, happend, hsync⟩ := Option.bind_eq_some_iff.mp h
  obtain ⟨hsound0, hhead0, -⟩ := sound_empty (Act.eq_ok_of_toOption hopen)
  obtain ⟨_, happend⟩ := Act.final_eq_some happend
  obtain ⟨_, hsync⟩ := Act.final_eq_some hsync
  obtain ⟨hsound1, hhead1, -⟩ := hsound0.appendEach happend
  obtain ⟨wal2, hsync2, hsound2, hflush⟩ := hsound1.sync
  rw [hsync] at hsync2
  cases hsync2
  rw [hsound0.max_eq] at hsound2
  exact ⟨hsound2, by rw [hflush.alike.head_eq, hhead1, hhead0]⟩

end Sound

end Wal

/-- A lenient open that finds a record makes a sound log, whatever it cuts, if the marker lies
within the files and no file is too long. -/
theorem SegmentedStore.Found.sound {config : WalConfig} {size : Nat} {created : Bool} {d : Dir}
    {s : SegmentedStore} {wal : Wal SegmentedStore} (h : Found config s wal)
    (hopen : Opened size created d s) (hshort : s.Short)
    (hfits : ∀ i, ∀ n ∈ s.segLen i, i * s.segmentSize + n < 2 ^ 64)
    (hmarker : d.marker.getD 0 ≤ s.maxWritten) (hlt : wal.head < wal.tail) :
    wal.Sound config (payloads s.image config.maxRecordSize s.maxWritten s.head) := by
  have hends : wal.store.EndsAt wal.tail ∧ wal.store.Short := by
    rcases h.files with ⟨heq, hsame⟩ | ⟨-, s1, h1, h2⟩
    · rw [endsAt_congr hsame.segmentSize_eq hsame.segLen_eq,
        short_congr hsame.segmentSize_eq hsame.segLen_eq, heq]
      exact ⟨endsAt_of_fits hopen.spans_self hfits, hshort⟩
    · have hshort1 := (short_congr h1.segmentSize_eq h1.segLen_eq).mpr hshort
      rw [h.head_eq] at hlt
      exact ⟨h.endsAt_cut h1 h2 hshort1 hlt, h2.short hshort1⟩
  rw [h.steady.tail_eq] at hends
  refine ⟨h.steady, h.max_eq, hends.2, hends.1, ?_⟩
  rw [Dir.marker_congr (h.headFile_eq.trans (by rw [hopen.dir_eq])), h.head_eq, hopen.head_eq]
  omega

end WalDb
