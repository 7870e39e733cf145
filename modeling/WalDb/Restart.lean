/-
A log whose process ends and starts again.

An exit keeps the written contents of every file, a power loss only the durable ones.
An open reads the written contents, and takes all it finds for durable: the watermark
`durable` starts at the end of the recovered records, and the flush window of a
segmented store at the last segment.  Records that an earlier process appended and did
not sync are therefore out of the reach of a `sync` that returns Ok.
`sync_durable_iff` says exactly when that happens.
-/
import WalDb.Segment.Durable
import WalDb.Segment.Sound

namespace WalDb

open Lib Record SegmentedStore

/-- A store on files that outlive the process. -/
class FileBacked (S : Type) where
  /-- The store that the next process opens. -/
  reopen : S → Except Fault S

instance : FileBacked FileStore where
  reopen s := .ok (FileStore.ofFile s.file s.faults s.written_lt)

instance : FileBacked SegmentedStore where
  reopen s := (openDir s.segmentSize false s.dir).1

/-- There is a byte at `o`, and it would survive a power loss. -/
def FileStore.DurableAt (s : FileStore) (o : Nat) : Prop :=
  o < s.file.written.length ∧ s.file.durable[o]? = s.file.written[o]?

instance (s : FileStore) (o : Nat) : Decidable (s.DurableAt o) :=
  inferInstanceAs (Decidable (_ ∧ _))

namespace Wal

inductive ProcessOp where
  | append (record : List UInt8)
  | sync
  | restart

/-- One call, or the exit of the process and the open by the next one.  Runs without I/O
errors are looked at. -/
def process {S : Type} [WalStore S] [FileBacked S] (config : WalConfig) (wal : Wal S) :
    ProcessOp → Option (Wal S)
  | .append record =>
      match wal.append record with
      | (.ok _, wal') => some wal'
      | (.error (.err (.recordTooLarge _ _)), wal') => some wal'
      | (.error _, _) => none
  | .sync => Act.final Wal.sync wal
  | .restart =>
      match FileBacked.reopen wal.store with
      | .ok store => (withStoreAndConfig config store).1.toOption
      | .error _ => none

end Wal

/-! ## One file -/

namespace FileStore

variable {s : FileStore}

theorem os_ok (h : s.faults = []) (context : String) : os context s = (.ok (), s) := by
  obtain ⟨file, parentDirty, faults, written_lt⟩ := s
  cases h
  rfl

/-- A read that the operating system is not asked for, or that it takes. -/
def Reachable (off n : Nat) : Prop := n = 0 ∨ off + n < 2 ^ 63

theorem readAt_ok (h : s.faults = []) {off n : Nat} (hreach : Reachable off n) :
    WalStore.readAt off n s = (.ok ((s.file.written.drop off).take n), s) := by
  show readAt off n s = _
  unfold readAt
  by_cases hn : n = 0
  · rw [if_pos hn, hn, List.take_zero]
    rfl
  · have hlt : off + n < 2 ^ 63 := hreach.resolve_left hn
    rw [if_neg hn, Act.bind_ok (os_ok h _), Act.get_bind, if_pos hlt]
    rfl

theorem readAt_refused (h : s.faults = []) {off n : Nat} (hreach : ¬ Reachable off n) :
    WalStore.readAt off n s = (.error (.err (.io "reading from the log" .os)), s) := by
  obtain ⟨hn, hge⟩ := not_or.mp hreach
  show readAt off n s = _
  rw [readAt, if_neg hn, Act.bind_ok (os_ok h _), Act.get_bind, if_neg hge]
  rfl

theorem len_ok (h : s.faults = []) : WalStore.len s = (.ok s.file.written.length, s) := by
  show len s = _
  rw [len, Act.bind_ok (os_ok h _)]
  rfl

theorem sight (h : s.faults = []) :
    Sight Reachable (Image.ofList s.file.written) s.file.written.length (· = s) :=
  Sight.ofList (Or.imp_right fun hle => Nat.lt_of_le_of_lt hle s.written_lt)
    (fun _ _ => readAt_ok h) (fun _ _ hreach => ⟨_, readAt_refused h hreach⟩) (len_ok h)
    (Nat.lt_trans s.written_lt (by decide))

theorem sync_ok (h : s.faults = []) :
    WalStore.sync s = (.ok (), { s with file := s.file.durableSync, parentDirty := false }) := by
  have hdir : flushDirIfDirty FileStore.parentDirty (fun s dirty => { s with parentDirty := dirty })
      (os "flushing the log directory") s = (.ok (), { s with parentDirty := false }) :=
    flushDirIfDirty_ok rfl (os_ok (by exact h) _)
  show sync s = _
  rw [sync, Act.bind_ok hdir, Act.bind_ok (os_ok (by exact h) _)]
  rfl

/-- A write puts its bytes into the file, or leaves it as it was. -/
theorem writeAt_cases (off : Nat) {bytes : List UInt8} (hne : bytes ≠ []) (h : s.faults = []) :
    (∃ hlt : (overwrite s.file.written off bytes).length < 2 ^ 63,
      WalStore.writeAt off bytes s =
        (.ok (), { s with file := s.file.pwriteAll off bytes, written_lt := hlt })) ∨
      2 ^ 63 ≤ (overwrite s.file.written off bytes).length ∧
        WalStore.writeAt off bytes s = (.error (.err (.io "writing a record" .os)), s) := by
  show (∃ hlt, writeAt off bytes s = _) ∨ _ ∧ writeAt off bytes s = _
  rw [writeAt, if_neg hne, Act.bind_ok (os_ok h _)]
  by_cases hlt : (overwrite s.file.written off bytes).length < 2 ^ 63
  · exact Or.inl ⟨hlt, dif_pos hlt⟩
  · exact Or.inr ⟨Nat.not_lt.mp hlt, dif_neg hlt⟩

/-- A write at the end adds its bytes, or fails with an I/O error. -/
theorem writeAt_end (h : s.faults = []) {bytes : List UInt8} (hne : bytes ≠ []) :
    (∃ s', WalStore.writeAt s.file.written.length bytes s = (.ok (), s') ∧
      s'.file.written = s.file.written ++ bytes ∧ s'.faults = []) ∨
      ∃ context source s', WalStore.writeAt s.file.written.length bytes s =
        (.error (.err (.io context source)), s') := by
  rcases writeAt_cases s.file.written.length hne h with ⟨hlt, hrun⟩ | ⟨-, hrun⟩
  · exact Or.inl ⟨_, hrun, overwrite_end, h⟩
  · exact Or.inr ⟨_, _, _, hrun⟩

end FileStore

namespace Wal

/-- A log over one file that holds the records `ps` and nothing else. -/
structure FileSound (config : WalConfig) (wal : Wal FileStore) (ps : List (List UInt8)) : Prop
    extends Settled wal where
  max_eq : wal.maxRecordSize = config.maxRecordSize
  small : ∀ p ∈ ps, p.length ≤ config.maxRecordSize
  faults_eq : wal.store.faults = []
  written_eq : wal.store.file.written = frames ps
  tail_eq : wal.tail = wal.store.file.written.length

section FileSound

variable {config : WalConfig} {wal wal' : Wal FileStore} {ps : List (List UInt8)}

/-- The next process finds the records that were written. -/
theorem fileSound_open (config : WalConfig) (ps : List (List UInt8)) {s : FileStore}
    (hsmall : ∀ p ∈ ps, p.length ≤ config.maxRecordSize)
    (hfaults : s.faults = []) (hwritten : s.file.written = frames ps) :
    ∃ wal, withStoreAndConfig config s = (.ok wal, s) ∧ FileSound config wal ps := by
  have hintact : Intact (Image.ofList s.file.written) config.maxRecordSize 0 ps := by
    refine (beginsWith_drop_iff (Nat.zero_le _)).mp ⟨hsmall, ?_⟩
    rw [hwritten]
    exact List.prefix_rfl
  have hpast : ∀ o, s.file.written.length ≤ o → Image.ofList s.file.written o = none :=
    fun _ ho => List.getElem?_eq_none ho
  have hend : logEnd (Image.ofList s.file.written) config.maxRecordSize s.file.written.length 0 =
      s.file.written.length := by
    rw [logEnd, hintact.payloads_eq config.maxRecordSize_lt hpast
      (by rw [Nat.zero_add, hwritten]), Nat.zero_add, hwritten]
  obtain ⟨s', rfl, hopen⟩ := open_whole (FileStore.sight hfaults).serves config rfl
    (FileStore.len_ok hfaults) rfl hend
  exact ⟨_, hopen, openedLog_settled _ _ _ _ _, rfl, hsmall, hfaults, hwritten, rfl⟩

theorem FileSound.append (h : FileSound config wal ps) {record : List UInt8}
    (hstep : wal.process config (.append record) = some wal') : ∃ qs, FileSound config wal' qs := by
  rw [Wal.process] at hstep
  by_cases hlen : record.length ≤ wal.maxRecordSize
  · by_cases hfit : wal.tail + framedLen record.length < 2 ^ 64
    · rcases FileStore.writeAt_end h.faults_eq (frame_ne_nil record) with
        ⟨s', hwrite, hwritten, hfaults⟩ | ⟨context, source, s', hwrite⟩
      · rw [← h.tail_eq] at hwrite
        rw [append_ok h.toSettled hlen hfit hwrite] at hstep
        cases hstep
        refine ⟨ps ++ [record], h.toSettled.appended record s', h.max_eq, ?_, hfaults, ?_, ?_⟩
        · intro p hp
          rcases List.mem_append.mp hp with hp | hp
          · exact h.small p hp
          · rw [List.mem_singleton.mp hp, ← h.max_eq]
            exact hlen
        · show s'.file.written = _
          rw [hwritten, h.written_eq, frames_append]
          simp
        · show wal.tail + framedLen record.length = s'.file.written.length
          rw [hwritten, h.tail_eq, List.length_append, frame_length]
      · rw [← h.tail_eq] at hwrite
        obtain ⟨wal1, hrun⟩ := append_failed hlen hfit hwrite
        rw [hrun] at hstep
        cases hstep
    · obtain ⟨wal1, hrun⟩ := append_overflow hlen (Nat.not_lt.mp hfit)
      rw [hrun] at hstep
      cases hstep
  · rw [append_tooLarge (Nat.not_le.mp hlen)] at hstep
    cases hstep
    exact ⟨ps, h⟩

theorem FileSound.sync (h : FileSound config wal ps) (hrun : wal.sync = (.ok (), wal')) :
    FileSound config wal' ps ∧ (wal.tail ≤ wal.commit.durable ∧ wal' = wal ∨
      wal.commit.durable < wal.tail ∧ ∀ o < wal'.tail, wal'.store.DurableAt o) := by
  rcases Nat.lt_or_ge wal.commit.durable wal.tail with hd | hd
  · rw [sync_flush h.toSettled hd (FileStore.sync_ok h.faults_eq)] at hrun
    cases hrun
    refine ⟨⟨h.toSettled.flushed _, h.max_eq, h.small, h.faults_eq, h.written_eq, h.tail_eq⟩,
      Or.inr ⟨hd, fun o ho => ⟨?_, rfl⟩⟩⟩
    have ho : o < wal.tail := ho
    rw [h.tail_eq] at ho
    exact ho
  · rw [sync_done h.toSettled hd] at hrun
    cases hrun
    exact ⟨h, Or.inl ⟨hd, rfl⟩⟩

theorem FileSound.process (h : FileSound config wal ps) {op : ProcessOp}
    (hstep : wal.process config op = some wal') : ∃ qs, FileSound config wal' qs := by
  cases op with
  | append record => exact h.append hstep
  | sync =>
      obtain ⟨_, hrun⟩ := Act.final_eq_some hstep
      exact ⟨ps, (h.sync hrun).1⟩
  | restart =>
      obtain ⟨wal1, hopen, hwal1⟩ := fileSound_open config ps
        (s := FileStore.ofFile wal.store.file wal.store.faults wal.store.written_lt)
        h.small h.faults_eq h.written_eq
      simp only [Wal.process, FileBacked.reopen, hopen] at hstep
      cases hstep
      exact ⟨ps, hwal1⟩

end FileSound

/-! ## Segments -/

/-- What the flush window of a sound log can reach: every segment from `syncedFrom` on is
open, but for the last one where nothing has been written since the last flush. -/
structure Windowed (config : WalConfig) (wal : Wal SegmentedStore) (ps : List (List UInt8)) : Prop
    extends Sound config wal ps where
  head_zero : wal.head = 0
  window : wal.store.syncedFrom ≤ wal.tail / wal.store.segmentSize
  unflushed : wal.commit.durable < wal.tail →
    wal.store.syncedFrom ≤ (wal.tail - 1) / wal.store.segmentSize
  opened : ∀ i, wal.store.syncedFrom ≤ i → (wal.store.seg i).isSome = true →
    i ∈ wal.store.handles ∨ i = wal.tail / wal.store.segmentSize ∧ wal.commit.durable = wal.tail

section Windowed

variable {config : WalConfig} {wal wal' : Wal SegmentedStore} {ps : List (List UInt8)}

/-- No segment comes after the one of the tail. -/
theorem Sound.seg_le (h : Sound config wal ps) {i : Nat} (hi : (wal.store.seg i).isSome = true) :
    i ≤ wal.tail / wal.store.segmentSize := by
  rw [Nat.le_div_iff_mul_le wal.store.segmentSize_pos, h.tail_eq]
  exact h.ends.low hi

theorem Windowed.append (h : Windowed config wal ps) {record : List UInt8}
    (hstep : wal.process config (.append record) = some wal') : ∃ qs, Windowed config wal' qs := by
  rw [Wal.process] at hstep
  by_cases hlen : record.length ≤ wal.maxRecordSize
  · by_cases hfit : wal.tail + framedLen record.length < 2 ^ 64
    · obtain ⟨s', hrun, hw, hsound⟩ := h.toSound.append hlen hfit
      rw [hrun] at hstep
      cases hstep
      have hpos : 0 < framedLen record.length := by
        rw [framedLen, headerLen]
        omega
      have hdiv : wal.tail / wal.store.segmentSize ≤
          (wal.tail + framedLen record.length - 1) / wal.store.segmentSize :=
        Nat.div_le_div_right (by omega)
      have hwindow := h.window
      refine ⟨ps ++ [record], hsound, h.head_zero, ?_, fun _ => ?_, fun i hi hseg => Or.inl ?_⟩
      · show s'.syncedFrom ≤ (wal.tail + framedLen record.length) / s'.segmentSize
        rw [hw.syncedFrom_eq, hw.segmentSize_eq]
        exact Nat.le_trans hwindow (Nat.div_le_div_right (Nat.le_add_right _ _))
      · show s'.syncedFrom ≤ (wal.tail + framedLen record.length - 1) / s'.segmentSize
        rw [hw.syncedFrom_eq, hw.segmentSize_eq]
        exact Nat.le_trans hwindow hdiv
      · have hi : s'.syncedFrom ≤ i := hi
        have hseg : (s'.seg i).isSome = true := hseg
        show i ∈ s'.handles
        rw [hw.syncedFrom_eq] at hi
        rw [hw.mem_handles]
        by_cases ht : Touches wal.store.segmentSize wal.tail (frame record).length i
        · exact Or.inr ht
        · rw [hw.seg_eq, patched, if_neg ht] at hseg
          rcases h.opened i hi hseg with hopen | ⟨rfl, -⟩
          · exact Or.inl hopen
          · exact absurd (touches_first wal.store.segmentSize_pos (by rw [frame_length]; exact hpos)) ht
    · obtain ⟨wal1, hrun⟩ := append_overflow hlen (Nat.not_lt.mp hfit)
      rw [hrun] at hstep
      cases hstep
  · rw [append_tooLarge (Nat.not_le.mp hlen)] at hstep
    cases hstep
    exact ⟨ps, h⟩

theorem Windowed.sync (h : Windowed config wal ps) (hrun : wal.sync = (.ok (), wal')) :
    Windowed config wal' ps ∧ Flushes wal wal' := by
  obtain ⟨wal1, hrun', hsound, hflush⟩ := h.toSound.sync
  rw [hrun] at hrun'
  cases hrun'
  refine ⟨?_, hflush⟩
  rcases hflush with ⟨-, rfl⟩ | ⟨hd, s', hs', rfl⟩
  · exact h
  · -- Something was written since the last flush, so the whole window is open.
    have hmax : s'.syncedFrom = (wal.tail - 1) / wal.store.segmentSize := by
      rw [hs'.syncedFrom_eq, ← h.tail_eq, if_neg (by omega)]
    have hle : (wal.tail - 1) / wal.store.segmentSize ≤ wal.tail / wal.store.segmentSize :=
      Nat.div_le_div_right (Nat.sub_le _ _)
    refine ⟨hsound, h.head_zero, ?_, fun hlt => absurd hlt (Nat.lt_irrefl _), fun i hi hseg => ?_⟩
    · show s'.syncedFrom ≤ wal.tail / s'.segmentSize
      rw [hmax, hs'.segmentSize_eq]
      exact hle
    · have hi : s'.syncedFrom ≤ i := hi
      have hseg : (s'.seg i).isSome = true := hseg
      rw [hmax] at hi
      rw [← segLen_isSome, hs'.segLen_eq, segLen_isSome] at hseg
      have hfrom := h.unflushed hd
      rcases h.opened i (Nat.le_trans hfrom hi) hseg with hopen | ⟨-, heq⟩
      · left
        show i ∈ s'.handles
        rw [hs'.handles_eq]
        exact hopen
      · omega

/-- The restart of a process is the open of its directory. -/
theorem process_restart {config : WalConfig} {wal wal1 : Wal SegmentedStore}
    (hopen : openSegmentedWith config wal.store.segmentSize false wal.store.dir = .ok wal1) :
    wal.process config .restart = some wal1 := by
  rw [openSegmentedWith] at hopen
  split at hopen
  · rename_i store d hdir
    simp only [Wal.process, FileBacked.reopen, hdir, hopen]
    rfl
  · cases hopen

theorem Windowed.process (h : Windowed config wal ps) {op : ProcessOp}
    (hstep : wal.process config op = some wal') : ∃ qs, Windowed config wal' qs := by
  cases op with
  | append record => exact h.append hstep
  | sync =>
      obtain ⟨_, hrun⟩ := Act.final_eq_some hstep
      exact ⟨ps, (h.sync hrun).1⟩
  | restart =>
      obtain ⟨wal1, hopen, hsound, hhead, htail, -, hcommit, hs⟩ := h.toSound.reopen false
      rw [process_restart hopen] at hstep
      cases hstep
      have hfrom : wal'.store.syncedFrom = wal'.tail / wal'.store.segmentSize := by
        rw [hs.syncedFrom_eq, htail, h.tail_eq, hs.segmentSize_eq]
      have hdurable : wal'.commit.durable = wal'.tail := by
        rw [hcommit, htail]
        rfl
      refine ⟨ps, hsound, hhead.trans h.head_zero, Nat.le_of_eq hfrom, fun hlt => ?_,
        fun i hi hseg => Or.inr ⟨?_, hdurable⟩⟩
      · omega
      · exact Nat.le_antisymm (hsound.seg_le hseg) (hfrom ▸ hi)

theorem windowed_empty {size : Nat} {created : Bool}
    (hopen : openSegmentedWith config size created Dir.empty = .ok wal) :
    Windowed config wal [] := by
  obtain ⟨hsound, hhead, hfrom, hnone⟩ := sound_empty hopen
  refine ⟨hsound, hhead, ?_, fun _ => ?_, fun i _ hseg => ?_⟩
  · rw [hfrom]
    exact Nat.zero_le _
  · rw [hfrom]
    exact Nat.zero_le _
  · rw [← segLen_isSome, hnone] at hseg
    cases hseg

/-- A flush makes durable what lies in the window, and nothing else. -/
theorem Windowed.flushed_durable (h : Windowed config wal ps) {s' : SegmentedStore}
    (hd : wal.commit.durable < wal.tail) (hs : Synced wal.store s') {o : Nat} (ho : o < wal.tail) :
    s'.DurableAt o ↔
      wal.store.DurableAt o ∨ wal.store.syncedFrom ≤ o / wal.store.segmentSize := by
  obtain ⟨b, hb⟩ := h.intact.byte (o := o) (by rw [h.head_zero]; omega) (by rw [h.end_eq]; exact ho)
  by_cases hfrom : wal.store.syncedFrom ≤ o / wal.store.segmentSize
  · have hopen : o / wal.store.segmentSize ∈ wal.store.handles := by
      rcases h.opened _ hfrom (seg_of_image hb) with hopen | ⟨-, heq⟩
      · exact hopen
      · omega
    have hne : wal.store.maxWritten ≠ 0 := by
      have := h.tail_eq
      omega
    have hlast : o / wal.store.segmentSize ≤
        (wal.store.maxWritten - 1) / wal.store.segmentSize := by
      rw [← h.tail_eq]
      exact Nat.div_le_div_right (by omega)
    have hclean : s'.CleanSeg (o / s'.segmentSize) := by
      intro file hfile
      rw [Option.mem_def, hs.segmentSize_eq, hs.seg_eq, if_pos ⟨hne, hfrom, hlast, hopen⟩] at hfile
      obtain ⟨old, -, rfl⟩ := Option.map_eq_some_iff.mp hfile
      exact old.clean_durableSync
    refine iff_of_true (hclean.durableAt ?_) (Or.inr hfrom)
    rw [hs.image_eq, hb]
    rfl
  · have hseg : s'.seg (o / wal.store.segmentSize) = wal.store.seg (o / wal.store.segmentSize) := by
      rw [hs.seg_eq, if_neg fun hc => hfrom hc.2.1]
    simp only [DurableAt, durableImage, hs.image_eq, hs.segmentSize_eq, hseg, hfrom, or_false]

end Windowed

end Wal

/-! ## The theorem -/

/-- For every run of appends, syncs and restarts over one file, and over segments: a `sync`
that returns Ok leaves every byte below the tail durable exactly where every one was
durable before, or the call flushes at all and the flush window covers those that were not. -/
theorem sync_durable_iff (config : WalConfig) :
    (∀ (wal wal1 wal2 : Wal FileStore) (ops : List Wal.ProcessOp),
      (Wal.withStoreAndConfig config (FileStore.ofFile File.empty [] (by decide))).1 = .ok wal →
      run (Wal.process config) wal ops = some wal1 → wal1.sync = (.ok (), wal2) →
      ((∀ o < wal2.tail, wal2.store.DurableAt o) ↔
        (∀ o < wal1.tail, wal1.store.DurableAt o) ∨ wal1.commit.durable < wal1.tail)) ∧
    ∀ (size : Nat) (created : Bool) (wal wal1 wal2 : Wal SegmentedStore) (ops : List Wal.ProcessOp),
      openSegmentedWith config size created Dir.empty = .ok wal →
      run (Wal.process config) wal ops = some wal1 → wal1.sync = (.ok (), wal2) →
      ((∀ o < wal2.tail, wal2.store.DurableAt o) ↔
        (∀ o < wal1.tail, wal1.store.DurableAt o) ∨ wal1.commit.durable < wal1.tail ∧
          ∀ o < wal1.tail, wal1.store.DurableAt o ∨
            wal1.store.syncedFrom ≤ o / wal1.store.segmentSize) := by
  constructor
  · intro wal wal1 wal2 ops hopen hrun hsync
    obtain ⟨wal0, hwal0, hfresh⟩ := Wal.fileSound_open config []
      (s := FileStore.ofFile File.empty [] (by decide)) (fun _ hp => absurd hp List.not_mem_nil)
      rfl rfl
    rw [hwal0] at hopen
    cases hopen
    have hkeep : ∀ v op v', (∃ ps, Wal.FileSound config v ps) → v.process config op = some v' →
        ∃ ps, Wal.FileSound config v' ps := by
      intro v op v' hv hstep
      obtain ⟨_, hv⟩ := hv
      exact hv.process hstep
    obtain ⟨ps, hsound⟩ := run_invariant hkeep ⟨[], hfresh⟩ hrun
    rcases (hsound.sync hsync).2 with ⟨hd, rfl⟩ | ⟨hd, hall⟩
    · simp [Nat.not_lt.mpr hd]
    · exact iff_of_true hall (Or.inr hd)
  · intro size created wal wal1 wal2 ops hopen hrun hsync
    have hkeep : ∀ v op v', (∃ ps, Wal.Windowed config v ps) → v.process config op = some v' →
        ∃ ps, Wal.Windowed config v' ps := by
      intro v op v' hv hstep
      obtain ⟨_, hv⟩ := hv
      exact hv.process hstep
    obtain ⟨ps, hwin⟩ := run_invariant hkeep ⟨[], Wal.windowed_empty hopen⟩ hrun
    rcases (hwin.sync hsync).2 with ⟨hd, rfl⟩ | ⟨hd, s', hs', rfl⟩
    · simp [Nat.not_lt.mpr hd]
    · have hflush : ∀ o < wal1.tail, (s'.DurableAt o ↔ _) := fun o ho =>
        hwin.flushed_durable hd hs' ho
      constructor
      · intro hall
        exact Or.inr ⟨hd, fun o ho => (hflush o ho).mp (hall o ho)⟩
      · intro hcond o ho
        rcases hcond with hall | ⟨-, hall⟩
        · exact (hflush o ho).mpr (Or.inl (hall o ho))
        · exact (hflush o ho).mpr (hall o ho)

/-- A record appended and synced by the process that follows an exit is durable, and so is
everything else, where the file is one, and where the segments before it were flushed. -/
theorem sync_durable_iff_appended :
    (∃ wal wal1 wal2 : Wal FileStore,
      (Wal.withStoreAndConfig smallRecords (FileStore.ofFile File.empty [] (by decide))).1 =
        .ok wal ∧
      run (Wal.process smallRecords) wal [.append [1], .restart, .append [2]] = some wal1 ∧
      wal1.sync = (.ok (), wal2) ∧ wal2.tail = 18 ∧ ∀ o < wal2.tail, wal2.store.DurableAt o) ∧
    ∃ wal wal1 wal2 : Wal SegmentedStore,
      openSegmentedWith smallRecords 16 true Dir.empty = .ok wal ∧
      run (Wal.process smallRecords) wal [.append [1], .restart, .append [2]] = some wal1 ∧
      wal1.sync = (.ok (), wal2) ∧ wal2.tail = 18 ∧ ∀ o < wal2.tail, wal2.store.DurableAt o := by
  constructor
  · have hobs : ((Wal.withStoreAndConfig smallRecords
          (FileStore.ofFile File.empty [] (by decide))).1.toOption.bind fun wal =>
        (run (Wal.process smallRecords) wal [.append [1], .restart, .append [2]]).map fun wal1 =>
          (wal1.sync.1.toBool, wal1.sync.2.tail, decide (wal1.commit.durable < wal1.tail))) =
        some (true, 18, true) := by decide +kernel
    obtain ⟨wal, hopen, hobs⟩ := Option.bind_eq_some_iff.mp hobs
    obtain ⟨wal1, hrun, hobs⟩ := Option.map_eq_some_iff.mp hobs
    simp only [Prod.mk.injEq] at hobs
    obtain ⟨hsync, htail, hlt⟩ := hobs
    have hopen := Act.eq_ok_of_toOption hopen
    have hsync := Act.eq_ok_of_toBool hsync
    exact ⟨wal, wal1, _, hopen, hrun, hsync, htail,
      ((sync_durable_iff smallRecords).1 wal wal1 _ _ hopen hrun hsync).mpr
        (Or.inr (of_decide_eq_true hlt))⟩
  · have hobs : ((openSegmentedWith smallRecords 16 true Dir.empty).toOption.bind fun wal =>
        (run (Wal.process smallRecords) wal [.append [1], .restart, .append [2]]).map fun wal1 =>
          (wal1.sync.1.toBool, wal1.sync.2.tail, decide (wal1.commit.durable < wal1.tail),
            wal1.store.syncedFrom)) = some (true, 18, true, 0) := by decide +kernel
    obtain ⟨wal, hopen, hobs⟩ := Option.bind_eq_some_iff.mp hobs
    obtain ⟨wal1, hrun, hobs⟩ := Option.map_eq_some_iff.mp hobs
    simp only [Prod.mk.injEq] at hobs
    obtain ⟨hsync, htail, hlt, hfrom⟩ := hobs
    have hopen := Act.eq_ok_of_toOption hopen
    have hsync := Act.eq_ok_of_toBool hsync
    exact ⟨wal, wal1, _, hopen, hrun, hsync, htail,
      ((sync_durable_iff smallRecords).2 16 true wal wal1 _ _ hopen hrun hsync).mpr
        (Or.inr ⟨of_decide_eq_true hlt, fun o _ => Or.inr (by rw [hfrom]; exact Nat.zero_le _)⟩)⟩

/-- A process appends a record and exits; the next one syncs.  The call returns Ok without
a flush, and the record is lost with the power.  Over segments the same happens although
the second process appends as well: the flush starts at the segment it opened in. -/
theorem sync_misses_recovered_records :
    (∃ wal wal1 wal2 : Wal FileStore,
      (Wal.withStoreAndConfig smallRecords (FileStore.ofFile File.empty [] (by decide))).1 =
        .ok wal ∧
      run (Wal.process smallRecords) wal [.append [1], .restart] = some wal1 ∧
      wal1.sync = (.ok (), wal2) ∧ wal2.tail = 9 ∧ ¬ wal2.store.DurableAt 0) ∧
    ∃ wal wal1 wal2 : Wal SegmentedStore,
      openSegmentedWith smallRecords 8 true Dir.empty = .ok wal ∧
      run (Wal.process smallRecords) wal [.append [1], .restart, .append [2]] = some wal1 ∧
      wal1.sync = (.ok (), wal2) ∧ wal2.tail = 18 ∧ ¬ wal2.store.DurableAt 0 := by
  constructor
  · have hobs : ((Wal.withStoreAndConfig smallRecords
          (FileStore.ofFile File.empty [] (by decide))).1.toOption.bind fun wal =>
        (run (Wal.process smallRecords) wal [.append [1], .restart]).map fun wal1 =>
          (wal1.sync.1.toBool, wal1.sync.2.tail, decide (wal1.sync.2.store.DurableAt 0))) =
        some (true, 9, false) := by decide +kernel
    obtain ⟨wal, hopen, hobs⟩ := Option.bind_eq_some_iff.mp hobs
    obtain ⟨wal1, hrun, hobs⟩ := Option.map_eq_some_iff.mp hobs
    simp only [Prod.mk.injEq] at hobs
    obtain ⟨hsync, htail, hlost⟩ := hobs
    exact ⟨wal, wal1, _, Act.eq_ok_of_toOption hopen, hrun, Act.eq_ok_of_toBool hsync, htail,
      of_decide_eq_false hlost⟩
  · have hobs : ((openSegmentedWith smallRecords 8 true Dir.empty).toOption.bind fun wal =>
        (run (Wal.process smallRecords) wal [.append [1], .restart, .append [2]]).map fun wal1 =>
          (wal1.sync.1.toBool, wal1.sync.2.tail, decide (wal1.sync.2.store.DurableAt 0))) =
        some (true, 18, false) := by decide +kernel
    obtain ⟨wal, hopen, hobs⟩ := Option.bind_eq_some_iff.mp hobs
    obtain ⟨wal1, hrun, hobs⟩ := Option.map_eq_some_iff.mp hobs
    simp only [Prod.mk.injEq] at hobs
    obtain ⟨hsync, htail, hlost⟩ := hobs
    exact ⟨wal, wal1, _, Act.eq_ok_of_toOption hopen, hrun, Act.eq_ok_of_toBool hsync, htail,
      of_decide_eq_false hlost⟩

end WalDb
