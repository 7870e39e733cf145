/-
Flushing a segmented store, across truncations.

`sync` flushes only the segments from `syncedFrom` on, and `truncate` moves
`syncedFrom` to the segment of the new end, whether the segments below it have been
flushed or not.  A truncation over unflushed segments therefore puts them out of the
reach of every later `sync`, which still returns Ok.  Where every truncation finds the
segments below its end flushed, `sync` makes every byte durable.
-/
import WalDb.Lib.Run
import WalDb.Recovery
import WalDb.Segment.Image

namespace WalDb

open Lib

/-- Every byte of the file would survive a power loss. -/
def File.Clean (file : File) : Prop := file.written <+: file.durable

instance (file : File) : Decidable file.Clean := inferInstanceAs (Decidable (_ <+: _))

theorem File.clean_durableSync (file : File) : file.durableSync.Clean := List.prefix_rfl

namespace SegmentedStore

/-- What a power loss leaves at each offset. -/
def durableImage (s : SegmentedStore) : Image UInt8 := fun o =>
  (s.seg (o / s.segmentSize)).bind (·.durable[o % s.segmentSize]?)

/-- There is a byte at `o`, and it would survive a power loss. -/
def DurableAt (s : SegmentedStore) (o : Nat) : Prop :=
  (s.image o).isSome = true ∧ s.durableImage o = s.image o

instance (s : SegmentedStore) (o : Nat) : Decidable (s.DurableAt o) :=
  inferInstanceAs (Decidable (_ ∧ _))

/-- Segment `i` has no unflushed byte. -/
def CleanSeg (s : SegmentedStore) (i : Nat) : Prop := ∀ file ∈ s.seg i, file.Clean

instance (s : SegmentedStore) (i : Nat) : Decidable (s.CleanSeg i) :=
  inferInstanceAs (Decidable (∀ file ∈ s.seg i, _))

theorem CleanSeg.durableAt {s : SegmentedStore} {o : Nat} (h : s.CleanSeg (o / s.segmentSize))
    (ho : (s.image o).isSome = true) : s.DurableAt o := by
  obtain ⟨b, hb⟩ := Option.isSome_iff_exists.mp ho
  refine ⟨ho, ?_⟩
  rw [hb]
  rw [image] at hb
  split at hb
  · obtain ⟨file, hfile, hb⟩ := Option.bind_eq_some_iff.mp hb
    rw [durableImage, hfile]
    obtain ⟨rest, hrest⟩ := h file hfile
    obtain ⟨hlt, -⟩ := List.getElem?_eq_some_iff.mp hb
    show file.durable[o % s.segmentSize]? = some b
    rw [← hrest, List.getElem?_append_left hlt]
    exact hb
  · cases hb

/-- Writing leaves alone what a power loss would leave. -/
theorem Patched.durable_eq {off : Nat} {bytes : List UInt8} {s s' : SegmentedStore}
    (h : Patched off bytes s s') : s'.durableImage = s.durableImage := by
  funext o
  rw [durableImage, durableImage, h.segmentSize_eq, h.seg_eq, patched]
  split
  · cases s.seg (o / s.segmentSize) <;> rfl
  · rfl

theorem Patched.cleanSeg {off i : Nat} {bytes : List UInt8} {s s' : SegmentedStore}
    (h : Patched off bytes s s') (ht : ¬ Touches s.segmentSize off bytes.length i)
    (hc : s.CleanSeg i) : s'.CleanSeg i := by
  intro file hfile
  rw [Option.mem_def, h.seg_eq, patched, if_neg ht] at hfile
  exact hc file hfile

/-! ## Runs of one thread -/

inductive StoreOp where
  | writeAt (bytes : List UInt8)
  | readAt (offset n : Nat)
  | truncate (len : Nat)
  | sync

/-- One operation that returns Ok.  A write starts at the current length, and a
truncation does not go past it. -/
def perform (s : SegmentedStore) : StoreOp → Option SegmentedStore
  | .writeAt bytes => Act.final (WalStore.writeAt s.maxWritten bytes) s
  | .readAt offset n => Act.final (WalStore.readAt offset n) s
  | .truncate len => if len ≤ s.maxWritten then Act.final (WalStore.truncate len) s else none
  | .sync => Act.final WalStore.sync s

/-- The condition on an operation: a write ends at an offset, and a truncation finds
the segments wholly below its end flushed. -/
def Spares (s : SegmentedStore) : StoreOp → Prop
  | .writeAt bytes => s.maxWritten + bytes.length < 2 ^ 64
  | .truncate len => ∀ i < len / s.segmentSize, s.CleanSeg i
  | .readAt _ _ | .sync => True

instance (s : SegmentedStore) : ∀ op, Decidable (s.Spares op)
  | .writeAt _ => inferInstanceAs (Decidable (_ < _))
  | .truncate len => inferInstanceAs (Decidable (∀ i < len / s.segmentSize, s.CleanSeg i))
  | .readAt _ _ | .sync => inferInstanceAs (Decidable True)

/-- Every byte below the length is there and in an open segment, and the segments below
the flush window are flushed. -/
structure Flushable (s : SegmentedStore) : Prop extends Ready s where
  full : ∀ o < s.maxWritten, (s.image o).isSome = true
  past : ∀ o, s.maxWritten ≤ o → s.image o = none
  fits : s.maxWritten < 2 ^ 64
  opened : ∀ i, (s.seg i).isSome = true → i ∈ s.handles
  window : s.syncedFrom ≤ s.maxWritten / s.segmentSize
  clean : ∀ i < s.syncedFrom, s.CleanSeg i

section Steps

variable {s s' : SegmentedStore}

theorem Flushable.writeAt {bytes : List UInt8} (h : Flushable s)
    (hfit : s.maxWritten + bytes.length < 2 ^ 64) (hw : Written s.maxWritten bytes s s') :
    Flushable s' := by
  have hlen : s'.maxWritten = s.maxWritten + bytes.length := by
    rw [hw.maxWritten_eq]
    omega
  have hdiv := div_bounds s.segmentSize_pos s.maxWritten
  refine ⟨hw.toReady, fun o ho => ?_, fun o ho => ?_, by omega, fun i hi => ?_, ?_, fun i hi => ?_⟩
  · by_cases hlt : o < s.maxWritten
    · obtain ⟨b, hb⟩ := Option.isSome_iff_exists.mp (h.full o hlt)
      rw [hw.image_out (Or.inl hlt) hb]
      rfl
    · rw [hw.image_in hfit (by omega) (by omega), List.getElem?_eq_getElem (by omega)]
      rfl
  · exact hw.image_past (by omega) (h.past o (by omega))
  · rw [hw.mem_handles]
    by_cases ht : Touches s.segmentSize s.maxWritten bytes.length i
    · exact Or.inr ht
    · rw [hw.seg_eq, patched, if_neg ht] at hi
      exact Or.inl (h.opened i hi)
  · rw [hw.syncedFrom_eq, hw.segmentSize_eq, hlen]
    exact Nat.le_trans h.window (Nat.div_le_div_right (Nat.le_add_right _ _))
  · -- A write at the end does not reach below the window.
    rw [hw.syncedFrom_eq] at hi
    have := succ_mul_le s.segmentSize (Nat.lt_of_lt_of_le hi h.window)
    exact hw.cleanSeg (by rw [Touches, Nat.succ_mul]; omega) (h.clean i hi)

theorem Flushable.readAt (h : Flushable s) (hr : SameFiles s s') : Flushable s' := by
  refine ⟨hr.toReady, ?_, ?_, by rw [hr.maxWritten_eq]; exact h.fits, fun i hi => ?_, ?_,
    fun i hi file hfile => ?_⟩
  · rw [hr.image_eq, hr.maxWritten_eq]
    exact h.full
  · rw [hr.image_eq, hr.maxWritten_eq]
    exact h.past
  · rw [hr.seg_eq] at hi
    exact hr.handles_ge i (h.opened i hi)
  · rw [hr.syncedFrom_eq, hr.maxWritten_eq, hr.segmentSize_eq]
    exact h.window
  · rw [hr.syncedFrom_eq] at hi
    rw [hr.seg_eq] at hfile
    exact h.clean i hi file hfile

theorem Flushable.truncate {len : Nat} (h : Flushable s) (hle : len ≤ s.maxWritten)
    (hclean : ∀ i < len / s.segmentSize, s.CleanSeg i) (ht : Truncated len s s') :
    Flushable s' := by
  have hlen := ht.maxWritten_eq
  have hfits := h.fits
  refine ⟨ht.toReady, fun o ho => ?_, fun o ho => ht.image_past (by omega), by omega,
    fun i hi => ?_, ?_, fun i hi file hfile => ?_⟩
  · obtain ⟨b, hb⟩ := Option.isSome_iff_exists.mp (h.full o (by omega))
    rw [ht.image_below (by omega) hb]
    rfl
  · rw [ht.seg_eq, cut] at hi
    rw [ht.mem_handles]
    split at hi
    · cases hi
    · rename_i hnot
      refine Or.inl ⟨h.opened i ?_, Nat.not_lt.mp hnot⟩
      split at hi
      · rwa [Option.isSome_map] at hi
      · exact hi
  · rw [ht.syncedFrom_eq, ht.segmentSize_eq, hlen]
  · rw [ht.syncedFrom_eq] at hi
    rw [ht.seg_eq, cut, if_neg (by omega), if_neg (by omega)] at hfile
    exact hclean i hi file hfile

/-- After a flush every segment up to the last byte is clean. -/
theorem Flushable.synced_clean (h : Flushable s) (hs : Synced s s') (hne : s.maxWritten ≠ 0)
    {i : Nat} (hi : i ≤ (s.maxWritten - 1) / s.segmentSize) : s'.CleanSeg i := by
  intro file hfile
  rw [hs.seg_eq] at hfile
  split at hfile
  · obtain ⟨f, -, rfl⟩ := Option.map_eq_some_iff.mp hfile
    exact f.clean_durableSync
  · rename_i hnot
    by_cases hlt : i < s.syncedFrom
    · exact h.clean i hlt file hfile
    · exact absurd ⟨hne, Nat.not_lt.mp hlt, hi, h.opened i (by rw [hfile]; rfl)⟩ hnot

theorem Flushable.sync (h : Flushable s) (hs : Synced s s') : Flushable s' := by
  refine ⟨hs.toReady, ?_, ?_, by rw [hs.maxWritten_eq]; exact h.fits, fun i hi => ?_, ?_,
    fun i hi => ?_⟩
  · rw [hs.image_eq, hs.maxWritten_eq]
    exact h.full
  · rw [hs.image_eq, hs.maxWritten_eq]
    exact h.past
  · rw [hs.handles_eq]
    refine h.opened i ?_
    rw [hs.seg_eq] at hi
    split at hi
    · rwa [Option.isSome_map] at hi
    · exact hi
  · rw [hs.syncedFrom_eq, hs.maxWritten_eq, hs.segmentSize_eq]
    split
    · exact h.window
    · exact Nat.div_le_div_right (Nat.sub_le _ _)
  · rw [hs.syncedFrom_eq] at hi
    split at hi
    · rename_i hzero
      have := h.window
      rw [hzero, Nat.zero_div] at this
      omega
    · rename_i hne
      exact h.synced_clean hs hne (Nat.le_of_lt hi)

/-- A flush makes every byte below the length durable. -/
theorem Flushable.durable (h : Flushable s) (hs : Synced s s') {o : Nat}
    (ho : o < s'.maxWritten) : s'.DurableAt o := by
  have hs' := h.sync hs
  rw [hs.maxWritten_eq] at ho
  refine CleanSeg.durableAt (h.synced_clean hs (by omega) ?_) (hs'.full o ?_)
  · rw [hs.segmentSize_eq]
    exact Nat.div_le_div_right (by omega)
  · rw [hs.maxWritten_eq]
    exact ho

/-- One operation that meets the condition keeps the store flushable. -/
theorem Flushable.perform {op : StoreOp} (h : Flushable s) (hok : s.Spares op)
    (hstep : s.perform op = some s') : Flushable s' := by
  cases op with
  | writeAt bytes =>
      obtain ⟨t, hrun, hw⟩ := writeAt_ok h.toReady hok
      rw [SegmentedStore.perform, Act.final_ok hrun] at hstep
      cases hstep
      exact h.writeAt hok hw
  | readAt offset n =>
      obtain ⟨bs, hrun⟩ := Act.final_eq_some hstep
      have hends := readAt_ends (SameFiles.refl h.toReady) offset n
      rw [Act.Ends, hrun] at hends
      exact h.readAt hends.1
  | truncate len =>
      rw [SegmentedStore.perform] at hstep
      split at hstep
      · rename_i hle
        obtain ⟨t, hrun, ht⟩ := truncate_ok h.toReady len
        rw [Act.final_ok hrun] at hstep
        cases hstep
        exact h.truncate hle hok ht
      · cases hstep
  | sync =>
      obtain ⟨t, hrun, hs⟩ := sync_ok h.toReady
      rw [SegmentedStore.perform, Act.final_ok hrun] at hstep
      cases hstep
      exact h.sync hs

theorem Opened.flushable {size : Nat} {created : Bool} (h : Opened size created Dir.empty s) :
    Flushable s := by
  have hlen : s.maxWritten = 0 := by
    rcases h.spans with ⟨-, hlen⟩ | ⟨i, file, hfile, -⟩
    · exact hlen
    · cases hfile
  have hseg : ∀ i, s.seg i = none := fun i => by
    rw [seg, h.dir_eq]
    rfl
  refine ⟨h.ready rfl, fun o ho => by omega, fun o _ => ?_, by omega, fun i hi => ?_, ?_,
    fun i _ file hfile => ?_⟩
  · rw [image, hseg]
    exact ite_self _
  · rw [hseg] at hi
    cases hi
  · rw [h.syncedFrom_eq, h.segmentSize_eq]
  · rw [hseg] at hfile
    cases hfile

theorem openDir_size_pos {size : Nat} {created : Bool} {d d' : Dir}
    (h : openDir size created d = (.ok s, d')) : 0 < size := by
  refine Nat.pos_of_ne_zero fun hzero => ?_
  rw [openDir, dif_pos hzero] at h
  cases h

/-- A truncation of the log over a flushable store, where the segments below its new end
are flushed, leaves every byte below the new tail durable. -/
theorem Flushable.truncateAfter {wal wal' : Wal SegmentedStore} {lsn : Nat}
    (h : Flushable wal.store) (hm : wal.maxRecordSize < 2 ^ 32)
    (hspares : ∀ p, recordAt wal.store.image wal.maxRecordSize lsn = some p →
      wal.store.Spares (.truncate (lsn + Record.framedLen p.length)))
    (hrun : wal.truncateAfter lsn = (.ok (), wal')) : ∀ o < wal'.tail, wal'.store.DurableAt o := by
  have V := sight h.past h.fits
  rw [Wal.truncateAfter] at hrun
  obtain ⟨_, _, hkept, -⟩ := Act.bind_eq_ok hrun
  obtain ⟨p, hp⟩ := Wal.recordAt_of_keptEnd V.toProbes (SameFiles.refl h.toReady) hkept
  obtain ⟨s1, hend, hs1⟩ := Wal.keptEnd_record V.serves hm hp (SameFiles.refl h.toReady)
  have hle := V.serves.frame_le hm hp
  have hclean := hspares p hp
  obtain ⟨s2, hcut, hs2⟩ := truncate_ok hs1.toReady (lsn + Record.framedLen p.length)
  obtain ⟨s3, hflush, hs3⟩ := sync_ok hs2.toReady
  rw [Act.bind_ok hend, Act.bind_ok (Wal.onStore_ok (by exact hcut)),
    Act.bind_ok (Wal.onStore_ok (by exact hflush))] at hrun
  cases hrun
  have h2 := (h.readAt hs1).truncate (by rw [hs1.maxWritten_eq]; exact hle)
    (fun i hi file hfile => by
      rw [hs1.segmentSize_eq] at hi
      rw [Option.mem_def, hs1.seg_eq] at hfile
      exact hclean i hi file hfile) hs2
  intro o ho
  refine h2.durable hs3 ?_
  rw [hs3.maxWritten_eq, hs2.maxWritten_eq]
  exact ho

end Steps

/-- Where every truncation finds the segments below its end flushed, an Ok from `sync`
means that every byte below the length is durable, and an Ok from `truncate_after` that
every byte below the new end is. -/
theorem sync_durable_across_truncation {size : Nat} {created : Bool} {start s : SegmentedStore}
    {d : Dir} {ops : List StoreOp} (hopen : openDir size created Dir.empty = (.ok start, d))
    (hspares : Along perform Spares start ops) (hrun : run perform start ops = some s) :
    (∀ s', WalStore.sync s = (.ok (), s') → ∀ o < s'.maxWritten, s'.DurableAt o) ∧
      ∀ (wal wal' : Wal SegmentedStore) (lsn : Nat), wal.store = s →
        wal.maxRecordSize < 2 ^ 32 →
        (∀ p, recordAt s.image wal.maxRecordSize lsn = some p →
          s.Spares (.truncate (lsn + Record.framedLen p.length))) →
        wal.truncateAfter lsn = (.ok (), wal') → ∀ o < wal'.tail, wal'.store.DurableAt o := by
  have hstart : Flushable start := by
    obtain ⟨t, hrun, ht⟩ := openDir_ok (openDir_size_pos hopen) created (d := Dir.empty) rfl
    rw [hopen] at hrun
    cases hrun
    exact ht.flushable
  have hkeep : ∀ v op v', Flushable v → v.Spares op → v.perform op = some v' → Flushable v' :=
    fun v op v' hv hok hstep => hv.perform hok hstep
  have h := run_along hkeep hstart hspares hrun
  refine ⟨fun s' hsync o ho => ?_, fun wal wal' lsn hwal hm hok hcut => ?_⟩
  · obtain ⟨t, hrun, ht⟩ := sync_ok h.toReady
    rw [hsync] at hrun
    cases hrun
    exact h.durable ht ho
  · subst hwal
    exact h.truncateAfter hm hok hcut

/-- An empty store with segments of eight bytes. -/
def freshEight : SegmentedStore where
  dir := Dir.empty
  segmentSize := 8
  handles := []
  maxWritten := 0
  syncedFrom := 0
  head := 0
  dirDirty := true
  parentDirty := true
  segmentSize_pos := by decide

theorem openDir_eight : openDir 8 true Dir.empty = (.ok freshEight, Dir.empty) := rfl

/-- A log over a store that holds three empty records. -/
def threeRecords (s : SegmentedStore) : Wal SegmentedStore where
  tail := 24
  store := s
  maxRecordSize := 100
  recoveryPolicy := .stopAtFirstError
  head := 0
  commit := Commit.new 24
  truncatedOnOpen := 0

/-- With a `sync` before them the truncations lose nothing. -/
theorem sync_durable_across_truncation_flushed :
    ∃ s wal',
      run perform freshEight [.writeAt (Record.frame []), .writeAt (Record.frame []),
        .writeAt (Record.frame []), .sync] = some s ∧
      (∀ s', WalStore.sync s = (.ok (), s') → ∀ o < s'.maxWritten, s'.DurableAt o) ∧
      (threeRecords s).truncateAfter 8 = (.ok (), wal') ∧ wal'.tail = 16 ∧
      ∀ o < 16, wal'.store.DurableAt o := by
  have hspares : Along perform Spares freshEight [.writeAt (Record.frame []),
      .writeAt (Record.frame []), .writeAt (Record.frame []), .sync] := by decide +kernel
  have hobs : (run perform freshEight [.writeAt (Record.frame []), .writeAt (Record.frame []),
      .writeAt (Record.frame []), .sync]).map (fun s =>
        (recordAt s.image 100 8, decide (s.Spares (.truncate 16)),
          ((threeRecords s).truncateAfter 8).1.toBool, ((threeRecords s).truncateAfter 8).2.tail)) =
      some (some [], true, true, 16) := by decide +kernel
  obtain ⟨s, hrun, hobs⟩ := Option.map_eq_some_iff.mp hobs
  simp only [Prod.mk.injEq] at hobs
  obtain ⟨hrec, hok, hcut, htail⟩ := hobs
  have hcut := Act.eq_ok_of_toBool hcut
  obtain ⟨h1, h2⟩ := sync_durable_across_truncation openDir_eight hspares hrun
  refine ⟨s, _, hrun, h1, hcut, htail, fun o ho => ?_⟩
  refine h2 (threeRecords s) _ 8 rfl (show 100 < 2 ^ 32 by decide) (fun p hp => ?_) hcut o (by omega)
  cases hrec.symm.trans hp
  exact of_decide_eq_true hok

/-- Thirty bytes are written, cut back to ten, and flushed.  The flush returns Ok, but
the window starts at the second segment: the first one has never been flushed.  A
truncation of a log of three unflushed records loses both records it keeps. -/
theorem truncation_hides_unflushed_segments :
    (∃ s s', run perform freshEight [.writeAt (List.replicate 30 7), .truncate 10] = some s ∧
        WalStore.sync s = (.ok (), s') ∧ s'.maxWritten = 10 ∧ ¬ s'.DurableAt 0) ∧
      ∃ s wal', run perform freshEight [.writeAt (Record.frame []), .writeAt (Record.frame []),
          .writeAt (Record.frame [])] = some s ∧
        (threeRecords s).truncateAfter 8 = (.ok (), wal') ∧ wal'.commit.durable = 16 ∧
        ∀ o < 16, ¬ wal'.store.DurableAt o := by
  constructor
  · have hobs : (run perform freshEight [.writeAt (List.replicate 30 7), .truncate 10]).map (fun s =>
        ((WalStore.sync s).1.toBool, (WalStore.sync s).2.maxWritten,
          decide ((WalStore.sync s).2.DurableAt 0))) = some (true, 10, false) := by decide +kernel
    obtain ⟨s, hrun, hobs⟩ := Option.map_eq_some_iff.mp hobs
    simp only [Prod.mk.injEq] at hobs
    obtain ⟨hok, hlen, hdur⟩ := hobs
    exact ⟨s, _, hrun, Act.eq_ok_of_toBool hok, hlen, of_decide_eq_false hdur⟩
  · have hobs : (run perform freshEight [.writeAt (Record.frame []), .writeAt (Record.frame []),
        .writeAt (Record.frame [])]).map (fun s =>
          (((threeRecords s).truncateAfter 8).1.toBool,
            ((threeRecords s).truncateAfter 8).2.commit.durable,
            (List.range 16).all fun o =>
              !decide (((threeRecords s).truncateAfter 8).2.store.DurableAt o))) =
        some (true, 16, true) := by decide +kernel
    obtain ⟨s, hrun, hobs⟩ := Option.map_eq_some_iff.mp hobs
    simp only [Prod.mk.injEq] at hobs
    obtain ⟨hok, hlen, hdur⟩ := hobs
    refine ⟨s, _, hrun, Act.eq_ok_of_toBool hok, hlen, fun o ho => ?_⟩
    simpa using List.all_eq_true.mp hdur o (List.mem_range.mpr ho)

end SegmentedStore
end WalDb
