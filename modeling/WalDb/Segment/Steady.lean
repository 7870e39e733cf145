/-
A log over a segmented store between two calls of one thread.

`Steady` says that the records `ps` follow one another from the head to the end of the
store, and that the log agrees with its store about both.  Appending adds one record,
syncing changes nothing that can be read, and iterating yields exactly the records.
-/
import WalDb.Segment.Extent
import WalDb.Sequential

namespace WalDb

open Lib Record SegmentedStore

/-- `Wal::open_segmented_with`; `created` says that the directory was not there. -/
def openSegmentedWith (config : WalConfig) (segmentSize : Nat) (created : Bool) (d : Dir) :
    Except Fault (Wal SegmentedStore) :=
  match openDir segmentSize created d with
  | (.ok store, _) => (Wal.withStoreAndConfig config store).1
  | (.error fault, _) => .error fault

def smallRecords : WalConfig where
  maxRecordSize := 100
  recoveryPolicy := .stopAtFirstError
  openPolicy := .truncateTail
  maxRecordSize_lt := by decide

namespace Wal

/-- The log holds the records `ps`, from its head to the end of its store. -/
structure Steady (wal : Wal SegmentedStore) (ps : List (List UInt8)) : Prop extends
    Settled wal where
  max_lt : wal.maxRecordSize < 2 ^ 32
  ready : Ready wal.store
  past : ∀ o, wal.store.maxWritten ≤ o → wal.store.image o = none
  fits : wal.store.maxWritten < 2 ^ 64
  tail_eq : wal.tail = wal.store.maxWritten
  head_eq : wal.store.head = wal.head
  intact : Intact wal.store.image wal.maxRecordSize wal.head ps
  end_eq : wal.head + (frames ps).length = wal.tail

section Steady

variable {wal : Wal SegmentedStore} {ps : List (List UInt8)}

theorem Steady.sight (h : Steady wal ps) :
    Sight wal.store.InRange wal.store.image wal.store.maxWritten (SameFiles wal.store) :=
  SegmentedStore.sight h.past h.fits

/-- The records of the image are those of the log. -/
theorem Steady.payloads_eq (h : Steady wal ps) :
    payloads wal.store.image wal.maxRecordSize wal.store.maxWritten wal.head = ps :=
  h.intact.payloads_eq h.max_lt h.past (h.end_eq.trans h.tail_eq)

/-- Iterating yields exactly the records. -/
theorem Steady.collect (h : Steady wal ps) :
    ∃ s', wal.iter.collect wal =
      (.ok ((recordsFrom wal.head ps).map .ok), { wal with store := s' }) ∧
        SameFiles wal.store s' :=
  Iter.collect_intact h.sight.serves h.max_lt wal.iter h.intact rfl
    (h.committed_eq.trans h.end_eq.symm) (SameFiles.refl h.ready)

/-- What iterating yields are the records. -/
theorem Steady.eq_of_collect {qs : List (List UInt8)} (h : Steady wal ps)
    (hrun : (wal.iter.collect wal).1 = .ok ((recordsFrom wal.head qs).map .ok)) : ps = qs := by
  obtain ⟨s', hcol, -⟩ := h.collect
  rw [hcol] at hrun
  have hrecords := List.map_injective_iff.mpr (fun _ _ heq => Except.ok.inj heq)
    (Except.ok.inj hrun)
  rw [← recordsFrom_map_data wal.head ps, hrecords, recordsFrom_map_data]

/-- Iterating from a boundary between two records yields those from there on. -/
theorem Steady.collectFrom {ps1 ps2 : List (List UInt8)} (h : Steady wal (ps1 ++ ps2)) {lsn : Nat}
    (hlsn : lsn = wal.head + (frames ps1).length) :
    ∃ s', (wal.iterFrom lsn).collect wal =
      (.ok ((recordsFrom lsn ps2).map .ok), { wal with store := s' }) ∧
        SameFiles wal.store s' := by
  have hend := h.end_eq
  have hcommitted := h.committed_eq
  rw [frames_append, List.length_append] at hend
  have hoffset : (wal.iterFrom lsn).offset = lsn := by
    show min (max lsn wal.head) wal.commit.committed = lsn
    omega
  obtain ⟨-, hintact⟩ := intact_append_iff.mp h.intact
  rw [← hlsn, ← hoffset] at hintact
  have hrun := Iter.collect_intact h.sight.serves h.max_lt (wal.iterFrom lsn) hintact rfl
    (by rw [hoffset]; show wal.commit.committed = _; omega) (SameFiles.refl h.ready)
  rwa [hoffset] at hrun

/-- Reading leaves the log steady. -/
theorem Steady.reads (h : Steady wal ps) {s' : SegmentedStore} (hs : SameFiles wal.store s') :
    Steady { wal with store := s' } ps where
  toSettled := ⟨h.committed_eq, h.durable_le, h.pending_eq, h.syncing_eq, h.poison_eq,
    h.flushFailed_eq⟩
  max_lt := h.max_lt
  ready := hs.toReady
  past := by
    show ∀ o, s'.maxWritten ≤ o → s'.image o = none
    rw [hs.image_eq, hs.maxWritten_eq]
    exact h.past
  fits := by
    show s'.maxWritten < 2 ^ 64
    rw [hs.maxWritten_eq]
    exact h.fits
  tail_eq := h.tail_eq.trans hs.maxWritten_eq.symm
  head_eq := hs.head_eq.trans h.head_eq
  intact := by
    show Intact s'.image _ _ _
    rw [hs.image_eq]
    exact h.intact
  end_eq := h.end_eq

/-- An append that fits adds its record. -/
theorem Steady.append (h : Steady wal ps) {record : List UInt8}
    (hlen : record.length ≤ wal.maxRecordSize)
    (hfit : wal.tail + framedLen record.length < 2 ^ 64) :
    ∃ s', wal.append record = (.ok wal.tail, wal.appended record s') ∧
      Written wal.tail (frame record) wal.store s' ∧
      Steady (wal.appended record s') (ps ++ [record]) := by
  have hfit' : wal.tail + (frame record).length < 2 ^ 64 := by
    rw [frame_length]
    exact hfit
  have htail := h.tail_eq
  have hend := h.end_eq
  obtain ⟨s', hwrite, hw⟩ := writeAt_ok h.ready hfit'
  have hmax : s'.maxWritten = wal.tail + framedLen record.length := by
    rw [hw.maxWritten_eq, frame_length]
    omega
  refine ⟨s', append_ok h.toSettled hlen hfit hwrite, hw, h.toSettled.appended record s', h.max_lt,
    hw.toReady, fun o ho => ?_, ?_, hmax.symm, hw.head_eq.trans h.head_eq, ?_, ?_⟩
  · have ho : s'.maxWritten ≤ o := ho
    rw [hmax] at ho
    exact hw.image_past (by rw [frame_length]; exact ho) (h.past o (by omega))
  · show s'.maxWritten < 2 ^ 64
    rw [hmax]
    exact hfit
  · refine h.intact.snoc hlen (fun o b _ ho hb => ?_) fun k hk => ?_
    · exact hw.image_out (Or.inl (by omega)) hb
    · rw [hend]
      rw [show (wal.appended record s').store = s' from rfl,
        hw.image_in hfit' (Nat.le_add_right _ _) (by omega), Nat.add_sub_cancel_left]
  · show wal.head + _ = wal.tail + framedLen record.length
    rw [frames_append, List.length_append, ← hend]
    simp [Nat.add_assoc]

/-- An append that returns Ok fitted. -/
theorem Steady.append_eq_ok (h : Steady wal ps) {record : List UInt8} {lsn : Nat}
    {wal' : Wal SegmentedStore} (hrun : wal.append record = (.ok lsn, wal')) :
    lsn = wal.tail ∧ Written wal.tail (frame record) wal.store wal'.store ∧
      Steady wal' (ps ++ [record]) ∧ wal'.head = wal.head ∧
      wal'.maxRecordSize = wal.maxRecordSize := by
  obtain ⟨hlen, hfit, -⟩ := Wal.append_eq_ok h.toSettled hrun
  obtain ⟨s', hrun', hw, hs'⟩ := h.append hlen hfit
  rw [hrun] at hrun'
  cases hrun'
  exact ⟨rfl, hw, hs', rfl, rfl⟩

/-- What a `sync` does to the log: nothing if it is durable already, else a flush. -/
def Flushes (wal wal' : Wal SegmentedStore) : Prop :=
  wal.tail ≤ wal.commit.durable ∧ wal' = wal ∨
    wal.commit.durable < wal.tail ∧ ∃ s', Synced wal.store s' ∧ wal' = wal.flushed s'

/-- The same ends and the same marker, over files of the same lengths. -/
structure Alike (wal wal' : Wal SegmentedStore) : Prop where
  head_eq : wal'.head = wal.head
  max_eq : wal'.maxRecordSize = wal.maxRecordSize
  segmentSize_eq : wal'.store.segmentSize = wal.store.segmentSize
  segLen_eq : ∀ i, wal'.store.segLen i = wal.store.segLen i
  maxWritten_eq : wal'.store.maxWritten = wal.store.maxWritten
  headFile_eq : wal'.store.dir.headFile = wal.store.dir.headFile

theorem Flushes.alike {wal' : Wal SegmentedStore} (h : Flushes wal wal') : Alike wal wal' := by
  rcases h with ⟨-, rfl⟩ | ⟨-, s', hs', rfl⟩
  · exact ⟨rfl, rfl, rfl, fun _ => rfl, rfl, rfl⟩
  · exact ⟨rfl, rfl, hs'.segmentSize_eq, hs'.segLen_eq, hs'.maxWritten_eq, hs'.headFile_eq⟩

/-- `sync` returns Ok and changes nothing that can be read. -/
theorem Steady.sync (h : Steady wal ps) :
    ∃ wal', Wal.sync wal = (.ok (), wal') ∧ Steady wal' ps ∧ Flushes wal wal' := by
  by_cases hd : wal.tail ≤ wal.commit.durable
  · exact ⟨wal, sync_done h.toSettled hd, h, Or.inl ⟨hd, rfl⟩⟩
  · obtain ⟨s', hsync, hs'⟩ := sync_ok h.ready
    have hd := Nat.not_le.mp hd
    refine ⟨wal.flushed s', sync_flush h.toSettled hd hsync,
      ⟨h.toSettled.flushed s', h.max_lt, hs'.toReady, ?_, ?_, h.tail_eq.trans hs'.maxWritten_eq.symm,
        hs'.head_eq.trans h.head_eq, ?_, h.end_eq⟩, Or.inr ⟨hd, s', hs', rfl⟩⟩
    · show ∀ o, s'.maxWritten ≤ o → s'.image o = none
      rw [hs'.image_eq, hs'.maxWritten_eq]
      exact h.past
    · show s'.maxWritten < 2 ^ 64
      rw [hs'.maxWritten_eq]
      exact h.fits
    · show Intact s'.image _ _ _
      rw [hs'.image_eq]
      exact h.intact

end Steady

end Wal

/-! ## Opening -/

section Open

variable {config : WalConfig} {size : Nat} {d : Dir}

theorem openSegmentedWith_eq (config : WalConfig) (hsize : 0 < size) (created : Bool) (hd : d.faults = []) :
    ∃ s, Opened size created d s ∧
      openSegmentedWith config size created d = (Wal.withStoreAndConfig config s).1 := by
  obtain ⟨s, hopen, hs⟩ := openDir_ok hsize created hd
  exact ⟨s, hs, by rw [openSegmentedWith, hopen]⟩

variable {created : Bool} {s : SegmentedStore}

theorem openSegmentedWith_pos {wal : Wal SegmentedStore}
    (h : openSegmentedWith config size created d = .ok wal) : 0 < size := by
  refine Nat.pos_of_ne_zero fun hzero => ?_
  rw [openSegmentedWith, openDir, dif_pos hzero] at h
  cases h

theorem SegmentedStore.Opened.spans_self (h : Opened size created d s) :
    s.dir.Spans s.segmentSize s.maxWritten := by
  rw [h.dir_eq, h.segmentSize_eq]
  exact h.spans

/-- Opening the directory of a store gives its files. -/
theorem SegmentedStore.Opened.seg_eq {s0 : SegmentedStore}
    (h : Opened s0.segmentSize created s0.dir s) (i : Nat) : s.seg i = s0.seg i := by
  rw [seg, h.dir_eq]
  rfl

theorem SegmentedStore.Opened.image_eq {s0 : SegmentedStore}
    (h : Opened s0.segmentSize created s0.dir s) : s.image = s0.image := by
  funext o
  exact image_eq_of_seg h.segmentSize_eq (h.seg_eq _)

theorem SegmentedStore.Opened.sight (h : Opened size created d s) :
    Sight s.InRange s.image s.maxWritten (SameFiles s) :=
  SegmentedStore.sight (fun _ ho => past_of_spans h.spans_self ho) h.spans_self.lt

theorem SegmentedStore.Opened.head_le (h : Opened size created d s) : s.head ≤ s.maxWritten := by
  rw [h.head_eq]
  exact Nat.min_le_right _ _

/-- A store whose records go to its end is opened as it is. -/
theorem SegmentedStore.Opened.open_whole (h : Opened size created d s) (config : WalConfig) (hd : d.faults = [])
    (hend : logEnd s.image config.maxRecordSize s.maxWritten s.head = s.maxWritten) :
    ∃ s', SameFiles s s' ∧
      Wal.withStoreAndConfig config s = (.ok (openedLog config s.head s.maxWritten 0 s'), s') ∧
      Wal.Steady (openedLog config s.head s.maxWritten 0 s')
        (payloads s.image config.maxRecordSize s.maxWritten s.head) := by
  obtain ⟨s', hs', hopen⟩ := WalDb.open_whole h.sight.serves config rfl rfl
    (SameFiles.refl (h.ready hd)) hend
  refine ⟨s', hs', hopen, openedLog_settled _ _ _ _ _, config.maxRecordSize_lt, hs'.toReady,
    fun o ho => ?_, ?_, hs'.maxWritten_eq.symm, hs'.head_eq, ?_, hend⟩
  · have ho : s'.maxWritten ≤ o := ho
    rw [hs'.maxWritten_eq] at ho
    show s'.image o = none
    rw [hs'.image_eq]
    exact past_of_spans h.spans_self ho
  · show s'.maxWritten < 2 ^ 64
    rw [hs'.maxWritten_eq]
    exact h.spans_self.lt
  · show Intact s'.image _ _ _
    rw [hs'.image_eq]
    exact intact_payloads config.maxRecordSize_lt s.head

/-- Any other store is cut where its records end, if the policy says so and no read fails. -/
theorem SegmentedStore.Opened.open_cut (h : Opened size created d s) (hd : d.faults = [])
    (hpol : config.openPolicy = .truncateTail)
    (hend : logEnd s.image config.maxRecordSize s.maxWritten s.head < s.maxWritten) :
    let e := logEnd s.image config.maxRecordSize s.maxWritten s.head
    (Wal.withStoreAndConfig config).Ends s
      (fun wal s2 => ∃ s1, SameFiles s s1 ∧ Truncated e s1 s2 ∧
        wal = openedLog config s.head e (s.maxWritten - e) s2 ∧
        Wal.Steady wal (payloads s.image config.maxRecordSize s.maxWritten s.head))
      (Refused (ScanRead config.maxRecordSize s.maxWritten) s.InRange (SameFiles s)) := by
  intro e
  have hlt := h.spans_self.lt
  refine (WalDb.open_cut h.sight hpol (SameFiles.refl (h.ready hd)) rfl hend
    fun s1 hs1 => (truncate_ok hs1.toReady _).imp fun s2 hs2 => hs2.1).mono ?_ fun _ _ h => h
  rintro _ s2 ⟨s1, hs1, htrunc, rfl⟩
  obtain ⟨t, htrunc', ht⟩ := truncate_ok hs1.toReady e
  rw [htrunc] at htrunc'
  cases htrunc'
  refine ⟨s1, hs1, ht, rfl, openedLog_settled _ _ _ _ _, config.maxRecordSize_lt, ht.toReady,
    fun o ho => ?_, ?_, ht.maxWritten_eq.symm, ht.head_eq.trans hs1.head_eq, ?_, rfl⟩
  · have ho : s2.maxWritten ≤ o := ho
    rw [ht.maxWritten_eq] at ho
    exact ht.image_past ho
  · show s2.maxWritten < 2 ^ 64
    rw [ht.maxWritten_eq]
    exact Nat.lt_trans hend hlt
  · refine (intact_payloads config.maxRecordSize_lt s.head).mono fun o b _ ho hb => ?_
    exact ht.image_below ho (by rw [hs1.image_eq]; exact hb)

/-- The log that a lenient open makes of the store `s`: its records go as far as they can be
read, and what follows them is cut. -/
structure SegmentedStore.Found (config : WalConfig) (s : SegmentedStore) (wal : Wal SegmentedStore) :
    Prop where
  steady : Wal.Steady wal (payloads s.image config.maxRecordSize s.maxWritten s.head)
  head_eq : wal.head = s.head
  tail_eq : wal.tail = logEnd s.image config.maxRecordSize s.maxWritten s.head
  cut_eq : wal.truncatedOnOpen = s.maxWritten - wal.tail
  max_eq : wal.maxRecordSize = config.maxRecordSize
  commit_eq : wal.commit = Commit.new wal.tail
  segmentSize_eq : wal.store.segmentSize = s.segmentSize
  headFile_eq : wal.store.dir.headFile = s.dir.headFile
  files : wal.tail = s.maxWritten ∧ SameFiles s wal.store ∨
    wal.tail < s.maxWritten ∧ ∃ s1, SameFiles s s1 ∧ Truncated wal.tail s1 wal.store

theorem SegmentedStore.Opened.found_ends (h : Opened size created d s) (hd : d.faults = [])
    (hpol : config.openPolicy = .truncateTail) :
    (Wal.withStoreAndConfig config).Ends s (fun wal t => t = wal.store ∧ Found config s wal)
      (Refused (ScanRead config.maxRecordSize s.maxWritten) s.InRange (SameFiles s)) := by
  have hle := logEnd_le config.maxRecordSize_lt (fun _ ho => past_of_spans h.spans_self ho) h.head_le
  rcases Nat.lt_or_eq_of_le hle with hlt | heq
  · refine (h.open_cut hd hpol hlt).mono ?_ fun _ _ h => h
    rintro _ s2 ⟨s1, h1, h2, rfl, hsteady⟩
    exact ⟨rfl, hsteady, rfl, rfl, rfl, rfl, rfl, h2.segmentSize_eq.trans h1.segmentSize_eq,
      h2.headFile_eq.trans h1.headFile_eq, Or.inr ⟨hlt, s1, h1, h2⟩⟩
  · obtain ⟨s', hs', hopen, hsteady⟩ := h.open_whole config hd heq
    exact Act.ends_of_ok hopen ⟨rfl, hsteady, rfl, heq.symm, (Nat.sub_self _).symm, rfl, rfl,
      hs'.segmentSize_eq, hs'.headFile_eq, Or.inl ⟨rfl, hs'⟩⟩

/-- Where the files end below the last offset no read of the open fails. -/
theorem SegmentedStore.Opened.found (h : Opened size created d s) (hfits : s.FilesFit)
    (hd : d.faults = []) (hpol : config.openPolicy = .truncateTail) :
    ∃ wal, Wal.withStoreAndConfig config s = (.ok wal, wal.store) ∧ Found config s wal := by
  obtain ⟨wal, _, hopen, rfl, hfound⟩ := (h.found_ends hd hpol).in_reach
    fun _ _ ⟨_, hx, hask⟩ => Or.inr (Or.inr ⟨hask.lt (Nat.lt_trans hx h.spans_self.lt), hfits⟩)
  exact ⟨wal, hopen, hfound⟩

/-- What a reopen keeps of a store: its files, its length and its marker. -/
structure SegmentedStore.Reopened (s s' : SegmentedStore) : Prop where
  segmentSize_eq : s'.segmentSize = s.segmentSize
  maxWritten_eq : s'.maxWritten = s.maxWritten
  headFile_eq : s'.dir.headFile = s.dir.headFile
  seg_eq : ∀ i, s'.seg i = s.seg i
  syncedFrom_eq : s'.syncedFrom = s.maxWritten / s.segmentSize

/-- A steady log whose files give its length, and whose head is the one the marker gives, is
found again as it was, under either policy. -/
theorem Wal.Steady.reopen {wal : Wal SegmentedStore} {ps : List (List UInt8)}
    (h : Wal.Steady wal ps) (hmax : wal.maxRecordSize = config.maxRecordSize)
    (hspans : wal.store.dir.Spans wal.store.segmentSize wal.store.maxWritten)
    (hmark : min (wal.store.dir.marker.getD 0) wal.store.maxWritten = wal.head) (created : Bool) :
    ∃ wal', openSegmentedWith config wal.store.segmentSize created wal.store.dir = .ok wal' ∧
      Wal.Steady wal' ps ∧ wal'.head = wal.head ∧ wal'.tail = wal.tail ∧
      wal'.truncatedOnOpen = 0 ∧ wal'.maxRecordSize = config.maxRecordSize ∧
      wal'.commit = Commit.new wal.tail ∧ Reopened wal.store wal'.store := by
  obtain ⟨s, hs, hopen⟩ := openSegmentedWith_eq config wal.store.segmentSize_pos created
    h.ready.faults_eq
  have hlen : s.maxWritten = wal.store.maxWritten := hs.spans.unique hspans
  have hhead : s.head = wal.head := by rw [hs.head_eq, hlen, hmark]
  have hps : payloads s.image config.maxRecordSize s.maxWritten s.head = ps := by
    rw [hs.image_eq, hlen, hhead, ← hmax]
    exact h.payloads_eq
  have hend : logEnd s.image config.maxRecordSize s.maxWritten s.head = s.maxWritten := by
    rw [logEnd, hps, hhead, hlen, h.end_eq, h.tail_eq]
  obtain ⟨s', hs', hwal, hsteady⟩ := hs.open_whole config h.ready.faults_eq hend
  rw [hps] at hsteady
  refine ⟨_, by rw [hopen, hwal], hsteady, hhead, hlen.trans h.tail_eq.symm, rfl, rfl, ?_,
    hs'.segmentSize_eq.trans hs.segmentSize_eq, hs'.maxWritten_eq.trans hlen, ?_,
    fun i => (hs'.seg_eq i).trans (hs.seg_eq i), ?_⟩
  · rw [h.tail_eq, ← hlen]
    rfl
  · exact hs'.headFile_eq.trans (by rw [hs.dir_eq])
  · exact hs'.syncedFrom_eq.trans (by rw [hs.syncedFrom_eq, hlen])

end Open

end WalDb
