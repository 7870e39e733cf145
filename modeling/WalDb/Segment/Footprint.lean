/-
How much of the disk a segmented log takes.

`truncate_before` removes the files below the segment of the new head, but never the last one;
`truncate_after` removes those past the new end.  So no file lies wholly below the head, except
one that ends there, and none starts past the end.  The files are then packed into the bytes
from one segment below the head up to the end: whatever has been appended over time, the log
takes the room of the records that can still be read and of one more segment.
-/
import Mathlib.Data.Finset.Card
import Mathlib.Order.Interval.Finset.Nat
import WalDb.Segment.Refine

namespace WalDb

open Lib Record SegmentedStore

/-! ## Disjoint pieces of a set -/

/-- Disjoint pieces of a set have no more elements together than the set. -/
theorem foldr_card_le {ι : Type} (piece : ι → Finset Nat) {es : List ι} {whole : Finset Nat}
    (hdisj : es.Pairwise fun a b => Disjoint (piece a) (piece b))
    (hsub : ∀ e ∈ es, piece e ⊆ whole) :
    es.foldr (fun e n => (piece e).card + n) 0 ≤ whole.card := by
  induction es generalizing whole with
  | nil => exact Nat.zero_le _
  | cons e es ih =>
      rw [List.pairwise_cons] at hdisj
      rw [List.forall_mem_cons] at hsub
      -- The other pieces lie in what the first one leaves.
      have hrest : ∀ e' ∈ es, piece e' ⊆ whole \ piece e := by
        intro e' he'
        exact Finset.subset_sdiff.mpr ⟨hsub.2 e' he', (hdisj.1 e' he').symm⟩
      have hle := ih hdisj.2 hrest
      have hcard := Finset.card_sdiff_add_card_eq_card hsub.1
      rw [List.foldr_cons]
      omega

/-! ## The files of a directory -/

/-- The bytes in all segment files. -/
def Dir.bytes (d : Dir) : Nat := d.segments.entries.foldr (fun e n => e.2.written.length + n) 0

namespace SegmentedStore

variable {s s' : SegmentedStore} {size : Nat}

/-- The bytes of the flat space that a file holds. -/
def place (size : Nat) (e : Sigma fun _ : Nat => File) : Finset Nat :=
  Finset.Ico (e.1 * size) (e.1 * size + e.2.written.length)

theorem card_place (e : Sigma fun _ : Nat => File) : (place size e).card = e.2.written.length := by
  rw [place, Nat.card_Ico, Nat.add_sub_cancel_left]

theorem segLen_of_mem {e : Sigma fun _ : Nat => File} (he : e ∈ s.dir.segments.entries) :
    s.segLen e.1 = some e.2.written.length := by
  have hseg : s.seg e.1 = some e.2 := AList.mem_lookup_iff.mpr he
  rw [segLen, hseg]
  rfl

theorem disjoint_place {e e' : Sigma fun _ : Nat => File} (hne : e.1 ≠ e'.1)
    (he : e.2.written.length ≤ size) (he' : e'.2.written.length ≤ size) :
    Disjoint (place size e) (place size e') := by
  rw [Finset.disjoint_left]
  intro o ho ho'
  rw [place, Finset.mem_Ico] at ho ho'
  rcases Nat.lt_or_gt_of_ne hne with hlt | hlt
  · have := Nat.mul_le_mul_right size hlt
    rw [Nat.succ_mul] at this
    omega
  · have := Nat.mul_le_mul_right size hlt
    rw [Nat.succ_mul] at this
    omega

/-- No file lies wholly below the head, except one that ends there. -/
structure Trimmed (size : Nat) (s : SegmentedStore) : Prop where
  size_eq : s.segmentSize = size
  reach : ∀ i, (s.segLen i).isSome = true → s.head ≤ (i + 1) * size

/-- The files are packed into what lies between a segment below the head and the end. -/
theorem Trimmed.bytes_le (h : Trimmed size s) (hshort : s.Short) {total : Nat}
    (hends : s.EndsAt total) : s.dir.bytes ≤ total - (s.head - size) := by
  have hsize := h.size_eq
  have hlen : ∀ e ∈ s.dir.segments.entries, e.2.written.length ≤ size := by
    intro e he
    rw [← hsize]
    exact hshort e.1 _ (segLen_of_mem he)
  have hdisj : s.dir.segments.entries.Pairwise fun e e' =>
      Disjoint (place size e) (place size e') :=
    (List.nodupKeys_iff_pairwise.mp s.dir.segments.nodupKeys).imp_of_mem fun he he' hne =>
      disjoint_place hne (hlen _ he) (hlen _ he')
  have hsub : ∀ e ∈ s.dir.segments.entries,
      place size e ⊆ Finset.Ico (s.head - size) total := by
    intro e he
    have hlo := h.reach e.1 (by rw [segLen_of_mem he]; rfl)
    have hhi := hends.reach hshort (segLen_of_mem he)
    rw [Nat.succ_mul] at hlo
    rw [hsize] at hhi
    exact Finset.Ico_subset_Ico (by omega) hhi
  have hle := foldr_card_le (place size) hdisj hsub
  simp only [card_place, Nat.card_Ico] at hle
  exact hle

/-! ## What keeps the files trimmed -/

theorem Trimmed.alike (h : Trimmed size s) (hsize : s'.segmentSize = s.segmentSize)
    (hhead : s'.head = s.head)
    (hfiles : ∀ i, (s'.segLen i).isSome = true → (s.segLen i).isSome = true) :
    Trimmed size s' where
  size_eq := hsize.trans h.size_eq
  reach := fun i hi => hhead ▸ h.reach i (hfiles i hi)

theorem Trimmed.same (h : Trimmed size s) (hsize : s'.segmentSize = s.segmentSize)
    (hhead : s'.head = s.head) (hlen : ∀ i, s'.segLen i = s.segLen i) : Trimmed size s' :=
  h.alike hsize hhead fun i hi => hlen i ▸ hi

theorem Trimmed.sameFiles (h : Trimmed size s) (hs : SameFiles s s') : Trimmed size s' :=
  h.same hs.segmentSize_eq hs.head_eq hs.segLen_eq

theorem Trimmed.synced (h : Trimmed size s) (hs : Synced s s') : Trimmed size s' :=
  h.same hs.segmentSize_eq hs.head_eq hs.segLen_eq

/-- A write behind the head adds files that reach past it. -/
theorem Trimmed.written (h : Trimmed size s) {off : Nat} {bytes : List UInt8}
    (hw : Written off bytes s s') (hoff : s.head ≤ off) : Trimmed size s' where
  size_eq := hw.segmentSize_eq.trans h.size_eq
  reach := by
    intro i hi
    rw [hw.segLen_eq i] at hi
    rw [hw.head_eq]
    by_cases htouch : Touches s.segmentSize off bytes.length i
    · have hlt : off < (i + 1) * s.segmentSize := htouch.1
      rw [h.size_eq] at hlt
      exact Nat.le_trans hoff (Nat.le_of_lt hlt)
    · rw [if_neg htouch] at hi
      exact h.reach i hi

theorem Trimmed.truncated (h : Trimmed size s) {len : Nat} (ht : Truncated len s s') :
    Trimmed size s' := by
  refine h.alike ht.segmentSize_eq ht.head_eq fun i hi => ?_
  rw [ht.segLen_eq i] at hi
  split at hi
  · cases hi
  · split at hi
    · rwa [Option.isSome_map] at hi
    · exact hi

/-- What `truncate_before` keeps reaches to the new head. -/
theorem le_of_keepFrom_le {head i : Nat} (hle : head ≤ s.maxWritten) (hi : s.keepFrom head ≤ i) :
    head ≤ (i + 1) * s.segmentSize := by
  have hpos := s.segmentSize_pos
  rcases min_le_iff.mp hi with hi | hi
  · have hlt := (Nat.div_lt_iff_lt_mul hpos).mp (Nat.lt_succ_of_le hi)
    exact Nat.le_of_lt hlt
  · have hlt := (Nat.div_lt_iff_lt_mul hpos).mp (Nat.lt_succ_of_le hi)
    rw [Nat.succ_eq_add_one] at hlt
    omega

theorem Trimmed.dropped (h : Trimmed size s) {offset : Nat} (hd : Dropped offset s s') :
    Trimmed size s' where
  size_eq := hd.segmentSize_eq.trans h.size_eq
  reach := by
    intro i hi
    rw [segLen_isSome, hd.seg_eq i] at hi
    rw [hd.head_eq, ← h.size_eq]
    by_cases hlow : i < s.keepFrom (s.clampedHead offset)
    · rw [if_pos hlow] at hi
      cases hi
    · exact le_of_keepFrom_le (clampedHead_le s offset) (Nat.not_lt.mp hlow)

end SegmentedStore

section Trimmed

variable {config : WalConfig} {wal : Wal SegmentedStore} {m : RecordList}
  {dropped ps : List (List UInt8)} {size : Nat}

theorem Wal.Flushes.trimmed {wal' : Wal SegmentedStore} (h : Wal.Flushes wal wal')
    (ht : Trimmed size wal.store) : Trimmed size wal'.store := by
  rcases h with ⟨-, rfl⟩ | ⟨-, s', hs', rfl⟩
  · exact ht
  · exact ht.synced hs'

theorem Refines.append_trimmed (h : Refines config wal m dropped ps)
    (ht : Trimmed size wal.store) (record : List UInt8)
    (hio : NoIoError (wal.call config (.append record)).1) :
    Trimmed size (wal.call config (.append record)).2.store := by
  rw [Wal.call] at *
  by_cases hlen : record.length ≤ wal.maxRecordSize
  · by_cases hfit : wal.tail + framedLen record.length < 2 ^ 64
    · obtain ⟨s', hrun, hw, -⟩ := h.sound.append hlen hfit
      have hoff : wal.store.head ≤ wal.tail := by
        rw [h.sound.head_eq, h.sound.tail_eq]
        exact h.sound.head_le
      rw [hrun]
      exact ht.written hw hoff
    · obtain ⟨wal', hrun⟩ := Wal.append_overflow hlen (Nat.not_lt.mp hfit)
      rw [hrun] at hio
      exact hio.elim
  · rw [Wal.append_tooLarge (Nat.not_le.mp hlen)]
    exact ht

theorem Refines.truncateAfter_trimmed (h : Refines config wal m dropped ps)
    (ht : Trimmed size wal.store) {lsn : Nat} (hr : ∃ r ∈ m.visible, r.1 = lsn) :
    Trimmed size (wal.call config (.truncateAfter lsn)).2.store := by
  obtain ⟨ps1, p, ps2, rfl, hlsn⟩ := h.named hr
  obtain ⟨-, hintact⟩ := intact_append_iff.mp h.sound.intact
  rw [← hlsn] at hintact
  obtain ⟨hp, -⟩ := (intact_cons_iff h.sound.max_lt).mp hintact
  obtain ⟨s1, s2, s3, hrun, h1, h2, h3⟩ := h.sound.truncateAfter_cuts hp
  rw [Wal.call, hrun]
  exact ((ht.sameFiles h1).truncated h2).synced h3

theorem Refines.truncateBefore_trimmed (h : Refines config wal m dropped ps)
    (ht : Trimmed size wal.store) (lsn : Nat) :
    Trimmed size (wal.call config (.truncateBefore lsn)).2.store := by
  have hle : wal.store.head ≤ wal.store.maxWritten := by
    rw [h.sound.head_eq]
    exact h.sound.head_le
  obtain ⟨s', hdrop, hs'⟩ := SegmentedStore.truncateBefore_ok h.sound.ready hle lsn
  rw [Wal.call, Wal.truncateBefore_ok hdrop]
  exact ht.dropped hs'

/-- A call that a record list allows leaves the files trimmed. -/
theorem Refines.call_trimmed (h : Refines config wal m dropped ps) (ht : Trimmed size wal.store)
    {c : Call} (hc : m.Names c) (hio : NoIoError (wal.call config c).1) :
    Trimmed size (wal.call config c).2.store := by
  cases c with
  | append record => exact h.append_trimmed ht record hio
  | sync =>
      obtain ⟨wal', hrun, -, hflush⟩ := h.sound.sync
      rw [Wal.call, hrun]
      exact hflush.trimmed ht
  | iter =>
      obtain ⟨s', hrun, hs'⟩ := h.sound.toSteady.collect
      rw [Wal.call, hrun]
      exact ht.sameFiles hs'
  | iterFrom lsn =>
      obtain ⟨ps1, p, ps2, rfl, hlsn⟩ := h.named hc
      obtain ⟨s', hrun, hs'⟩ := h.sound.toSteady.collectFrom hlsn
      rw [Wal.call, hrun]
      exact ht.sameFiles hs'
  | truncateAfter lsn => exact h.truncateAfter_trimmed ht hc
  | truncateBefore lsn => exact h.truncateBefore_trimmed ht lsn
  | reopen =>
      obtain ⟨wal', hopen, hsound, hhead, -, -, -, hs⟩ := h.sound.reopen false
      have hstore : wal'.store.head = wal.store.head := by
        rw [hsound.head_eq, hhead, h.sound.head_eq]
      rw [Wal.call, hopen]
      exact ht.same hs.segmentSize_eq hstore fun i => by rw [segLen, segLen, hs.seg_eq]

/-- A log in an empty directory has the segments it was opened with. -/
theorem segmentSize_of_empty {created : Bool}
    (hopen : openSegmentedWith config size created Dir.empty = .ok wal) :
    wal.store.segmentSize = size := by
  obtain ⟨s, hs, heq⟩ :=
    openSegmentedWith_eq config (openSegmentedWith_pos hopen) created (d := Dir.empty) rfl
  have hlen : s.maxWritten = 0 := hs.spans.unique (Or.inl ⟨fun _ => rfl, rfl⟩)
  have hhead : s.head = 0 := by
    have := hs.head_le
    omega
  have hend : logEnd s.image config.maxRecordSize s.maxWritten s.head = s.maxWritten := by
    rw [logEnd, payloads_none fun hlt => by omega, hhead, hlen]
    rfl
  obtain ⟨s', hs', hwal, -⟩ := hs.open_whole config rfl hend
  rw [heq, hwal] at hopen
  cases hopen
  exact hs'.segmentSize_eq.trans hs.segmentSize_eq

/-- The log after some calls. -/
def Wal.callEach (config : WalConfig) (wal : Wal SegmentedStore) (calls : List Call) :
    Wal SegmentedStore :=
  calls.foldl (fun wal c => (wal.call config c).2) wal

def RecordList.callEach (maxRecordSize : Nat) (m : RecordList) (calls : List Call) : RecordList :=
  calls.foldl (fun m c => (m.call maxRecordSize c).2) m

theorem Refines.callEach (h : Refines config wal m dropped ps) (ht : Trimmed size wal.store)
    {calls : List Call}
    (hnames : Throughout (RecordList.call config.maxRecordSize) RecordList.Names m calls)
    (hio : ∀ a ∈ answers (Wal.call config) wal calls, NoIoError a) :
    ∃ dropped ps, Refines config (wal.callEach config calls)
        (m.callEach config.maxRecordSize calls) dropped ps ∧
      Trimmed size (wal.callEach config calls).store := by
  induction calls generalizing wal m dropped ps with
  | nil => exact ⟨dropped, ps, h, ht⟩
  | cons c calls ih =>
      rw [answers, List.forall_mem_cons] at hio
      obtain ⟨-, dropped', ps', h'⟩ := h.call hnames.1 hio.1
      exact ih h' (h.call_trimmed ht hnames.1 hio.1) hnames.2 hio.2

end Trimmed

/-- A segmented log takes no more room on disk than its records and one segment.  After any
calls on a log that was opened in an empty directory, appends, truncations at both ends and
reopens among them, its files have no more bytes than the frames of the records that can still
be read and one segment together; no file lies wholly below the head, except one that ends
there, and none starts past the end.  The LSNs in the calls are those of records in the log and
no call ends in an I/O error. -/
theorem segment_files_fit_visible_records {config : WalConfig} {size : Nat} {created : Bool}
    {wal : Wal SegmentedStore}
    (hopen : openSegmentedWith config size created Dir.empty = .ok wal) {calls : List Call}
    (hnames : Throughout (RecordList.call config.maxRecordSize) RecordList.Names .empty calls)
    (hio : ∀ a ∈ answers (Wal.call config) wal calls, NoIoError a) :
    let m := RecordList.empty.callEach config.maxRecordSize calls
    let store := (wal.callEach config calls).store
    store.dir.bytes ≤ (frames (m.visible.map Prod.snd)).length + size ∧
      ∀ i, (store.seg i).isSome = true → m.head ≤ (i + 1) * size ∧ i * size ≤ m.endAt := by
  intro m store
  obtain ⟨hsound, hhead, -, hnone⟩ := Wal.sound_empty hopen
  have hempty : Trimmed size wal.store := by
    refine ⟨segmentSize_of_empty hopen, fun i hi => ?_⟩
    rw [hnone] at hi
    cases hi
  have hstart : Refines config wal .empty [] [] := ⟨hsound, rfl, rfl, hhead⟩
  obtain ⟨dropped, ps, h, ht⟩ := hstart.callEach hempty hnames hio
  have hbytes : store.dir.bytes ≤ store.maxWritten - (store.head - size) :=
    ht.bytes_le h.sound.short h.sound.ends
  have hm : store.head = m.head := h.sound.head_eq.trans h.sameHead
  have hend : m.endAt = store.maxWritten := h.endAt_eq.trans h.sound.tail_eq
  refine ⟨?_, fun i hi => ?_⟩
  · have hps : m.visible.map Prod.snd = ps := by
      rw [h.visible_eq, located_map_snd]
    have htotal : store.head + (frames ps).length = store.maxWritten := by
      rw [h.sound.head_eq, h.sound.end_eq]
      exact h.sound.tail_eq
    rw [hps]
    omega
  · rw [hend, ← hm]
    have hlow := h.sound.ends.low hi
    rw [ht.size_eq] at hlow
    rw [← segLen_isSome] at hi
    exact ⟨ht.reach i hi, hlow⟩

/-- Records over segments of sixteen bytes.  A truncation at the start of the third segment
leaves the second one, which ends there, while nothing has been written behind it; and the
files have one segment more than the records. -/
theorem segment_files_fit_visible_records_at_boundary :
    ∃ wal, openSegmentedWith smallRecords 16 true Dir.empty = .ok wal ∧
      let calls : List Call := [.append [1], .append [2, 3, 4, 5, 6, 7, 8], .append [],
        .truncateBefore 32, .reopen, .append [9]]
      let m := RecordList.empty.callEach smallRecords.maxRecordSize calls
      let store := (wal.callEach smallRecords calls).store
      m.visible = [(32, [9])] ∧ store.dir.bytes = 25 ∧ store.dir.bytes ≤ 9 + 16 := by
  have hrun : (openSegmentedWith smallRecords 16 true Dir.empty).toOption.map (fun wal =>
      decide ((∀ a ∈ answers (Wal.call smallRecords) wal [.append [1],
        .append [2, 3, 4, 5, 6, 7, 8], .append [], .truncateBefore 32, .reopen, .append [9]],
        NoIoError a) ∧ (wal.callEach smallRecords [.append [1], .append [2, 3, 4, 5, 6, 7, 8],
        .append [], .truncateBefore 32, .reopen, .append [9]]).store.dir.bytes = 25)) =
      some true := by decide +kernel
  obtain ⟨wal, hopen, -⟩ := Wal.open_empty smallRecords (show 0 < 16 by decide) true
  rw [hopen] at hrun
  obtain ⟨hio, hbytes⟩ := of_decide_eq_true (Option.some.inj hrun)
  have hmain := segment_files_fit_visible_records hopen (by decide +kernel) hio
  exact ⟨wal, hopen, by decide +kernel, hbytes, hmain.1⟩

end WalDb
