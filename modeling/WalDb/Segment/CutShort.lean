/-
A process that stops while `truncate_after` runs.

`truncate` goes through the listing of the directory in whatever order it comes, and
removes or shrinks one file after another.  When the process stops in between, some
segments past the new end are gone and others are still there, so the records that were
to be dropped may be readable up to the first missing byte.  What a reopen finds is an
initial part of the records that reaches at least to the new end; it cuts the rest, and
nothing of it comes back.
-/
import WalDb.Segment.Sound

namespace WalDb

open Lib Record SegmentedStore

namespace Wal

/-- `truncate_after`, stopped when the files of the segments `handled` have been dealt with. -/
def truncateAfterStopped (lsn : Nat) (handled : List Nat) : Act (Wal SegmentedStore) Fault Unit := do
  let newEnd ← keptEnd lsn
  onStore do
    let s ← Act.get
    os "reading the log directory"
    truncateEntries (newEnd / s.segmentSize) (newEnd % s.segmentSize) handled

end Wal

namespace SegmentedStore

/-- Some of the segments have been cut to `len`. -/
structure PartlyCut (len : Nat) (s s' : SegmentedStore) : Prop extends Ready s' where
  segmentSize_eq : s'.segmentSize = s.segmentSize
  headFile_eq : s'.dir.headFile = s.dir.headFile
  seg_eq : ∀ i, s'.seg i = s.seg i ∨
    s'.seg i = cut (len / s.segmentSize) (len % s.segmentSize) i (s.seg i)

section PartlyCut

variable {s s' : SegmentedStore} {len : Nat}

theorem truncateEntries_partlyCut (h : Ready s) {handled : List Nat} (hnodup : handled.Nodup)
    (hmem : ∀ i ∈ handled, (s.seg i).isSome = true) (len : Nat) :
    ∃ s', truncateEntries (len / s.segmentSize) (len % s.segmentSize) handled s = (.ok (), s') ∧
      PartlyCut len s s' := by
  obtain ⟨s', hrun, hready, hframe, hseg, -⟩ := truncateEntries_ok (len / s.segmentSize)
    (len % s.segmentSize) hnodup h hmem
  refine ⟨s', hrun, hready, hframe.segmentSize_eq, hframe.headFile_eq, fun i => ?_⟩
  rw [hseg]
  split
  · exact Or.inr rfl
  · exact Or.inl rfl

/-- No file is longer than it was. -/
theorem PartlyCut.reach (h : PartlyCut len s s') (hs : s.Short) {total : Nat}
    (he : s.EndsAt total) (hle : len ≤ total) {i n : Nat} (hn : s'.segLen i = some n) :
    n ≤ s.segmentSize ∧ i * s.segmentSize + n ≤ total := by
  have hold : s.segLen i = some n → n ≤ s.segmentSize ∧ i * s.segmentSize + n ≤ total :=
    fun hn => ⟨hs i n hn, he.reach hs hn⟩
  rcases h.seg_eq i with heq | hcut
  · rw [segLen, heq] at hn
    exact hold hn
  · rw [segLen_cut hcut] at hn
    split at hn
    · cases hn
    · split at hn
      · rename_i heq
        obtain ⟨k, -, rfl⟩ := Option.map_eq_some_iff.mp hn
        have := div_bounds s.segmentSize_pos len
        rw [heq]
        exact ⟨Nat.le_of_lt (Nat.mod_lt _ s.segmentSize_pos), by omega⟩
      · exact hold hn

theorem PartlyCut.image_below (h : PartlyCut len s s') {o : Nat} (hlt : o < len) {b : UInt8}
    (hb : s.image o = some b) : s'.image o = some b := by
  rcases h.seg_eq (o / s.segmentSize) with heq | hcut
  · rw [image, h.segmentSize_eq, heq]
    exact hb
  · exact image_cut_below h.segmentSize_eq hcut hlt hb

theorem PartlyCut.image_past (h : PartlyCut len s s') {o : Nat} (hle : len ≤ o) {b : UInt8}
    (hb : s'.image o = some b) : s.image o = some b := by
  rcases h.seg_eq (o / s.segmentSize) with heq | hcut
  · rw [image, h.segmentSize_eq, heq] at hb
    exact hb
  · rw [image_cut_past h.segmentSize_eq hcut hle] at hb
    cases hb

end PartlyCut

end SegmentedStore

section Stopped

variable {config : WalConfig} {wal : Wal SegmentedStore} {qs rest : List (List UInt8)}
  {newEnd : Nat} {s1 s2 : SegmentedStore}

/-- What is left from the head on is all of what is to be kept, and part of what was there. -/
theorem Wal.Sound.partlyCut_image (h : wal.Sound config (qs ++ rest))
    (hend : newEnd = wal.head + (frames qs).length) (h1 : SameFiles wal.store s1)
    (h2 : PartlyCut newEnd s1 s2) {o : Nat} (hlo : wal.head ≤ o) :
    (o < newEnd → s2.image o = wal.store.image o) ∧
      ∀ b, s2.image o = some b → wal.store.image o = some b := by
  have hbelow : o < newEnd → s2.image o = wal.store.image o := by
    intro hlt
    obtain ⟨b, hb⟩ := h.intact.byte hlo (by rw [frames_append, List.length_append]; omega)
    rw [hb]
    exact h2.image_below hlt (by rw [h1.image_eq]; exact hb)
  refine ⟨hbelow, fun b hb => ?_⟩
  by_cases hlt : o < newEnd
  · rwa [← hbelow hlt]
  · rw [← h1.image_eq]
    exact h2.image_past (Nat.not_lt.mp hlt) hb

/-- An image that keeps the first records of a log, and has nothing that the log has not, holds
an initial part of the records, those included. -/
theorem Wal.Sound.payloads_between (h : wal.Sound config (qs ++ rest)) {img : Image UInt8}
    {size : Nat} (hpast : ∀ o, size ≤ o → img o = none)
    (himage : ∀ o, wal.head ≤ o →
      (o < wal.head + (frames qs).length → img o = wal.store.image o) ∧
        ∀ b, img o = some b → wal.store.image o = some b) :
    qs <+: payloads img config.maxRecordSize size wal.head ∧
      payloads img config.maxRecordSize size wal.head <+: qs ++ rest := by
  constructor
  · refine Intact.isPrefix config.maxRecordSize_lt hpast ?_
    rw [← h.max_eq]
    refine (intact_append_iff.mp h.intact).1.mono fun o b hlo hhi hb => ?_
    rw [(himage o hlo).1 hhi]
    exact hb
  · rw [← h.payloads_eq, h.max_eq]
    refine Intact.isPrefix config.maxRecordSize_lt h.past ?_
    exact (intact_payloads config.maxRecordSize_lt wal.head).mono
      fun o b hlo _ hb => (himage o hlo).2 b hb

/-- What is left of a log that has partly been cut at the end of an initial part of its
records opens as a log of an initial part that is not shorter. -/
theorem Wal.Sound.open_partlyCut (h : wal.Sound config (qs ++ rest)) (hne : qs ≠ [])
    (hpol : config.openPolicy = .truncateTail) (hend : newEnd = wal.head + (frames qs).length)
    (h1 : SameFiles wal.store s1) (h2 : PartlyCut newEnd s1 s2) :
    ∃ wal2 ps, openSegmentedWith config s2.segmentSize false s2.dir = .ok wal2 ∧
      wal2.Sound config ps ∧ qs <+: ps ∧ ps <+: qs ++ rest ∧ wal2.head = wal.head ∧
      wal2.store.segmentSize = s2.segmentSize := by
  have hpos := frames_length_pos hne
  have htotal := h.end_eq
  have htail := h.tail_eq
  have hfits := h.fits
  rw [frames_append, List.length_append] at htotal
  have himage := fun o => h.partlyCut_image hend h1 h2 (o := o)
  have hreach := fun i n => h2.reach (i := i) (n := n)
    ((short_congr h1.segmentSize_eq h1.segLen_eq).mpr h.short)
    ((endsAt_congr h1.segmentSize_eq h1.segLen_eq).mpr h.ends) (by omega)
  obtain ⟨s, hs, hopen⟩ := openSegmentedWith_eq config s2.segmentSize_pos false h2.faults_eq
  have hfiles : s.FilesFit := filesFit_of_segLen fun i n hn => by
    rw [hs.segmentSize_eq, h2.segmentSize_eq]
    rw [segLen, hs.seg_eq] at hn
    exact Nat.lt_of_le_of_lt (hreach i n hn).2 hfits
  obtain ⟨wal2, hwal, hfound⟩ := hs.found hfiles h2.faults_eq hpol
  have hpast : ∀ o, s.maxWritten ≤ o → s.image o = none := fun o ho => past_of_spans hs.spans_self ho
  -- The last kept byte is there, so the head lies within the files.
  have hlast : newEnd ≤ s.maxWritten := by
    obtain ⟨b, hb⟩ := h.intact.byte (o := newEnd - 1) (by omega)
      (by rw [frames_append, List.length_append]; omega)
    rw [← (himage _ (by omega)).1 (by omega), ← hs.image_eq] at hb
    by_contra hgt
    rw [hpast _ (by omega)] at hb
    cases hb
  have hmarker : s2.dir.marker.getD 0 = wal.head := by
    rw [Dir.marker_congr (h2.headFile_eq.trans h1.headFile_eq)]
    exact h.marker_eq
  have hhead : s.head = wal.head := by
    rw [hs.head_eq, hmarker]
    omega
  obtain ⟨hqs, hps⟩ := h.payloads_between hpast fun o hlo => by
    rw [hs.image_eq, ← hend]
    exact himage o hlo
  rw [← hhead] at hqs hps
  have hlt : wal2.head < wal2.tail := by
    have hsome := frames_length_pos fun hnil => hne (List.prefix_nil.mp (hnil ▸ hqs))
    rw [hfound.head_eq, hfound.tail_eq, logEnd]
    omega
  have hlen : ∀ i n, s.segLen i = some n →
      n ≤ s.segmentSize ∧ i * s.segmentSize + n ≤ wal.store.maxWritten := by
    intro i n hn
    rw [segLen, hs.seg_eq] at hn
    rw [hs.segmentSize_eq, h2.segmentSize_eq]
    exact hreach i n hn
  have hsound := hfound.sound hs (fun i n hn => (hlen i n hn).1)
    (fun i n hn => Nat.lt_of_le_of_lt (hlen i n hn).2 hfits) (by omega) hlt
  exact ⟨wal2, _, by rw [hopen, hwal], hsound, hqs, hps, hfound.head_eq.trans hhead,
    hfound.segmentSize_eq.trans hs.segmentSize_eq⟩

/-- Up to where it is stopped, `truncate_after` cuts segments at the end of the record it is
to keep as the last one. -/
theorem Wal.Sound.truncateAfterStopped {ps1 ps2 : List (List UInt8)} {p : List UInt8}
    (h : wal.Sound config (ps1 ++ p :: ps2)) {order handled : List Nat}
    (horder : order.Perm wal.store.dir.segments.keys) (hhandled : handled <+: order) :
    ∃ s1 s2, wal.truncateAfterStopped (wal.head + (frames ps1).length) handled =
        (.ok (), { wal with store := s2 }) ∧ SameFiles wal.store s1 ∧
      PartlyCut (wal.head + (frames (ps1 ++ [p])).length) s1 s2 := by
  have hnodup : handled.Nodup :=
    hhandled.sublist.nodup (horder.nodup_iff.mpr wal.store.dir.segments.keys_nodup)
  have hmem : ∀ i ∈ handled, (wal.store.seg i).isSome = true := fun i hi =>
    AList.lookup_isSome.mpr (AList.mem_keys.mpr (horder.subset (hhandled.subset hi)))
  obtain ⟨-, hintact⟩ := intact_append_iff.mp h.intact
  obtain ⟨hp, -⟩ := (intact_cons_iff h.max_lt).mp hintact
  obtain ⟨s1, hkept, h1⟩ := Wal.keptEnd_record h.sight.serves h.max_lt hp (SameFiles.refl h.ready)
  have hend : wal.head + (frames ps1).length + framedLen p.length =
      wal.head + (frames (ps1 ++ [p])).length := by
    rw [frames_append, List.length_append, Nat.add_assoc]
    simp
  rw [hend] at hkept
  obtain ⟨s2, hrun, h2⟩ := truncateEntries_partlyCut h1.toReady hnodup
    (fun i hi => by rw [h1.seg_eq]; exact hmem i hi) (wal.head + (frames (ps1 ++ [p])).length)
  refine ⟨s1, s2, ?_, h1, h2⟩
  rw [Wal.truncateAfterStopped, Act.bind_ok hkept]
  refine Wal.onStore_ok ?_
  rw [Act.get_bind, Act.bind_ok (os_ok h1.faults_eq _)]
  exact hrun

end Stopped

/-- Let the process stop while `truncate_after` goes through the files of a log, in whatever
order they are listed and after however many of them.  A reopen finds the records up to the
one that was to be the last, or more of them, and leaves nothing past their end.  What is
then appended and synced follows them after a further reopen. -/
theorem truncate_after_crash_leaves_prefix {config : WalConfig}
    (hpol : config.openPolicy = .truncateTail) {wal : Wal SegmentedStore}
    {ps1 ps2 : List (List UInt8)} {p : List UInt8} (h : wal.Sound config (ps1 ++ p :: ps2))
    {order handled : List Nat} (horder : order.Perm wal.store.dir.segments.keys)
    (hhandled : handled <+: order) :
    ∃ wal1 wal2 j,
      wal.truncateAfterStopped (wal.head + (frames ps1).length) handled = (.ok (), wal1) ∧
      openSegmentedWith config wal.store.segmentSize false wal1.store.dir = .ok wal2 ∧
      (ps1 ++ [p]).length ≤ j ∧ j ≤ (ps1 ++ p :: ps2).length ∧
      (wal2.iter.collect wal2).1 =
        .ok ((Wal.recordsFrom wal.head ((ps1 ++ p :: ps2).take j)).map .ok) ∧
      WalStore.len wal2.store = (.ok wal2.tail, wal2.store) ∧
      (∀ o, wal2.tail ≤ o → wal2.store.image o = none) ∧
      ∀ records wal3 wal4, wal2.appendEach records = (.ok (), wal3) → wal3.sync = (.ok (), wal4) →
        ∃ wal5, openSegmentedWith config wal.store.segmentSize false wal4.store.dir = .ok wal5 ∧
          wal5.truncatedOnOpen = 0 ∧
          (wal5.iter.collect wal5).1 =
            .ok ((Wal.recordsFrom wal.head ((ps1 ++ p :: ps2).take j ++
              Wal.accepted config.maxRecordSize records)).map .ok) := by
  obtain ⟨s1, s2, hstop, h1, h2⟩ := h.truncateAfterStopped horder hhandled
  have hsize : s2.segmentSize = wal.store.segmentSize := h2.segmentSize_eq.trans h1.segmentSize_eq
  have h' : wal.Sound config ((ps1 ++ [p]) ++ ps2) := by
    rwa [List.append_assoc, List.singleton_append]
  obtain ⟨wal2, ps, hopen, hsound, hkept, hps, hhead, hsize2⟩ :=
    h'.open_partlyCut (by simp) hpol rfl h1 h2
  rw [List.append_assoc, List.singleton_append] at hps
  rw [hsize] at hopen hsize2
  obtain ⟨s', hrun, -⟩ := hsound.toSteady.collect
  have htake := List.prefix_iff_eq_take.mp hps
  refine ⟨_, wal2, ps.length, hstop, hopen, hkept.length_le, hps.length_le, ?_, ?_, ?_, ?_⟩
  · rw [hrun, hhead, ← htake]
  · rw [hsound.tail_eq]
    rfl
  · rw [hsound.tail_eq]
    exact hsound.past
  · intro records wal3 wal4 happend hsync
    obtain ⟨hsound3, hhead3, hsize3⟩ := hsound.appendEach happend
    obtain ⟨wal4', hsync', hsound4, hflush⟩ := hsound3.sync
    rw [hsync] at hsync'
    cases hsync'
    obtain ⟨wal5, hopen5, hsound5, hhead5, -, hcut5, -⟩ := hsound4.reopen false
    obtain ⟨s5, hrun5, -⟩ := hsound5.toSteady.collect
    rw [hflush.alike.segmentSize_eq, hsize3, hsize2] at hopen5
    refine ⟨wal5, hopen5, hcut5, ?_⟩
    rw [hrun5, hhead5, hflush.alike.head_eq, hhead3, hhead, hsound.max_eq, ← htake]

/-- Five records in segments of sixteen bytes, of which the first two are to be kept.  The
process stops when the highest segment has been removed. -/
theorem truncate_after_crash_leaves_prefix_highest :
    ∃ wal wal1 wal2 j, Wal.freshLog smallRecords 16
        [[1, 1, 1, 1], [2, 2, 2, 2], [3, 3, 3, 3], [4, 4, 4, 4], [5, 5, 5, 5]] = some wal ∧
      List.Perm [3, 1, 0, 2] wal.store.dir.segments.keys ∧
      wal.truncateAfterStopped 12 [3] = (.ok (), wal1) ∧
      openSegmentedWith smallRecords 16 false wal1.store.dir = .ok wal2 ∧ 2 ≤ j ∧ j ≤ 5 ∧
      (wal2.iter.collect wal2).1 = .ok ((Wal.recordsFrom 0 (List.take j
        [[1, 1, 1, 1], [2, 2, 2, 2], [3, 3, 3, 3], [4, 4, 4, 4], [5, 5, 5, 5]])).map .ok) := by
  have hobs : ((Wal.freshLog smallRecords 16
      [[1, 1, 1, 1], [2, 2, 2, 2], [3, 3, 3, 3], [4, 4, 4, 4], [5, 5, 5, 5]]).map fun wal =>
        decide (List.Perm [3, 1, 0, 2] wal.store.dir.segments.keys ∧
          wal.store.segmentSize = 16)) = some true := by
    decide +kernel
  obtain ⟨wal, hlog, hobs⟩ := Option.map_eq_some_iff.mp hobs
  obtain ⟨horder, hsize⟩ := of_decide_eq_true hobs
  obtain ⟨hsound, hhead⟩ := Wal.sound_freshLog hlog
  have hsound : wal.Sound smallRecords
      ([[1, 1, 1, 1]] ++ [2, 2, 2, 2] :: [[3, 3, 3, 3], [4, 4, 4, 4], [5, 5, 5, 5]]) := hsound
  obtain ⟨wal1, wal2, j, hstop, hopen, hlo, hhi, hrun, -⟩ :=
    truncate_after_crash_leaves_prefix rfl hsound horder
      (show [3] <+: [3, 1, 0, 2] from ⟨[1, 0, 2], rfl⟩)
  rw [hhead] at hstop hrun
  rw [hsize] at hopen
  exact ⟨wal, wal1, wal2, j, hlog, horder, hstop, hopen, hlo, hhi, hrun⟩

end WalDb
