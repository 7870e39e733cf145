/-
The calls of one thread, as equations on the log.

Where no other call is under way and none has failed, the watermarks follow the tail:
`Settled`.  In such a state each call is one operation of the store and one change of
the log, and it ends settled again.  The results about whole runs of one thread use
these equations and never the bodies of the calls.
-/
import WalDb.Recovery

namespace WalDb

open Lib Record

/-- Records that fill an image to its end are all of its records. -/
theorem Intact.payloads_eq {img : Image UInt8} {m size off : Nat} {ps : List (List UInt8)}
    (hm : m < 2 ^ 32) (hpast : ∀ o, size ≤ o → img o = none) (h : Intact img m off ps)
    (hend : off + (frames ps).length = size) : payloads img m size off = ps := by
  obtain ⟨rest, hrest⟩ := h.isPrefix hm hpast
  have hle := logEnd_le hm hpast (show off ≤ size by omega)
  rw [logEnd, ← hrest, frames_append, List.length_append] at hle
  cases rest with
  | nil => rw [← hrest, List.append_nil]
  | cons p rest =>
      rw [frames_cons, List.length_append, frame_length, framedLen, headerLen] at hle
      omega

/-- Intact records stay intact while their bytes are kept. -/
theorem Intact.mono {img img' : Image UInt8} {m off : Nat} {ps : List (List UInt8)}
    (h : Intact img m off ps)
    (hkeep : ∀ o b, off ≤ o → o < off + (frames ps).length → img o = some b → img' o = some b) :
    Intact img' m off ps := by
  refine h.congr (Nat.le_refl m) fun o hlo hhi => ?_
  obtain ⟨-, hget⟩ := Image.read_eq_some_iff.mp h.2
  have hbyte := hget (o - off) (by omega)
  rw [Nat.add_sub_cancel' hlo, List.getElem?_eq_getElem (by omega)] at hbyte
  rw [hbyte, hkeep o _ hlo hhi hbyte]

/-- Every byte of an intact record is there. -/
theorem Intact.byte {img : Image UInt8} {m off o : Nat} {ps : List (List UInt8)}
    (h : Intact img m off ps) (hlo : off ≤ o) (hhi : o < off + (frames ps).length) :
    ∃ b, img o = some b := by
  obtain ⟨-, hget⟩ := Image.read_eq_some_iff.mp h.2
  have hbyte := hget (o - off) (by omega)
  rw [Nat.add_sub_cancel' hlo, List.getElem?_eq_getElem (by omega)] at hbyte
  exact ⟨_, hbyte⟩

theorem intact_append_iff {img : Image UInt8} {m off : Nat} {ps qs : List (List UInt8)} :
    Intact img m off (ps ++ qs) ↔
      Intact img m off ps ∧ Intact img m (off + (frames ps).length) qs := by
  refine ⟨fun h => ?_, fun h => h.1.append h.2⟩
  obtain ⟨hlen, hread⟩ := h
  rw [frames_append, List.length_append, Image.read_append_iff rfl rfl] at hread
  exact ⟨⟨fun p hp => hlen p (List.mem_append_left _ hp), hread.1⟩,
    fun p hp => hlen p (List.mem_append_right _ hp), hread.2⟩

/-- A record written at the end of intact records, which are kept, is one more intact
record. -/
theorem Intact.snoc {img img' : Image UInt8} {m off : Nat} {ps : List (List UInt8)}
    {p : List UInt8} (h : Intact img m off ps) (hp : p.length ≤ m)
    (hkeep : ∀ o b, off ≤ o → o < off + (frames ps).length → img o = some b → img' o = some b)
    (hnew : ∀ k < (frame p).length, img' (off + (frames ps).length + k) = (frame p)[k]?) :
    Intact img' m off (ps ++ [p]) := by
  refine (h.mono hkeep).append ⟨fun q hq => by rw [List.mem_singleton.mp hq]; exact hp, ?_⟩
  rw [show frames [p] = frame p by simp]
  exact Image.read_eq_some_iff.mpr ⟨rfl, hnew⟩

/-- An offset that is not inside a record, brought into the range of the records, is a
boundary between two of them. -/
theorem located_split (off lsn : Nat) (ps : List (List UInt8))
    (h : ∀ r ∈ located off ps, ¬ (r.1 < lsn ∧ lsn < r.1 + framedLen r.2.length)) :
    ∃ ps1 ps2, ps = ps1 ++ ps2 ∧
      min (max lsn off) (off + (frames ps).length) = off + (frames ps1).length := by
  induction ps generalizing off with
  | nil =>
      refine ⟨[], [], rfl, ?_⟩
      rw [frames_nil, List.length_nil]
      omega
  | cons p ps ih =>
      have hlen : (frames (p :: ps)).length = framedLen p.length + (frames ps).length := by simp
      by_cases hle : lsn ≤ off
      · refine ⟨[], p :: ps, rfl, ?_⟩
        rw [frames_nil, List.length_nil]
        omega
      · obtain ⟨ps1, ps2, rfl, heq⟩ := ih _ fun r hr => h r (List.mem_cons_of_mem _ hr)
        have hout := h (off, p) List.mem_cons_self
        dsimp only at hout
        refine ⟨p :: ps1, ps2, rfl, ?_⟩
        have hlen1 : (frames (p :: ps1)).length = framedLen p.length + (frames ps1).length := by simp
        omega

namespace Wal

section Settled

variable {S : Type} {wal : Wal S}

/-- Everything reserved has been written, and nothing has failed. -/
structure Settled (wal : Wal S) : Prop where
  committed_eq : wal.commit.committed = wal.tail
  durable_le : wal.commit.durable ≤ wal.tail
  pending_eq : wal.commit.pending = ∅
  syncing_eq : wal.commit.syncing = false
  poison_eq : wal.commit.poison = none
  flushFailed_eq : wal.commit.flushFailed = false

/-- The log after a record has been appended. -/
def appended (wal : Wal S) (record : List UInt8) (store : S) : Wal S :=
  { wal with
    tail := wal.tail + framedLen record.length
    store := store
    commit := { wal.commit with committed := wal.tail + framedLen record.length } }

/-- The log after a flush. -/
def flushed (wal : Wal S) (store : S) : Wal S :=
  { wal with store := store, commit := { wal.commit with durable := wal.tail } }

/-- The log after it has been cut at `newEnd`. -/
def cutAt (wal : Wal S) (newEnd : Nat) (store : S) : Wal S :=
  { wal with tail := newEnd, store := store, commit := Commit.reset wal.commit newEnd }

theorem settled_of_new (h : wal.commit = Commit.new wal.tail) : Settled wal := by
  refine ⟨?_, ?_, ?_, ?_, ?_, ?_⟩ <;> rw [h] <;> rfl

theorem Settled.appended (h : Settled wal) (record : List UInt8) (s' : S) :
    Settled (wal.appended record s') :=
  ⟨rfl, Nat.le_trans h.durable_le (Nat.le_add_right _ _), h.pending_eq, h.syncing_eq, h.poison_eq,
    h.flushFailed_eq⟩

theorem Settled.flushed (h : Settled wal) (s' : S) : Settled (wal.flushed s') :=
  ⟨h.committed_eq, Nat.le_refl _, h.pending_eq, h.syncing_eq, h.poison_eq, h.flushFailed_eq⟩

theorem Settled.cutAt (h : Settled wal) (newEnd : Nat) (s' : S) : Settled (wal.cutAt newEnd s') := by
  refine ⟨rfl, ?_, rfl, h.syncing_eq, rfl, h.flushFailed_eq⟩
  show (if wal.commit.flushFailed = true then _ else newEnd) ≤ newEnd
  rw [h.flushFailed_eq]
  exact Nat.le_refl newEnd

theorem syncCheck_done (h : Settled wal) (hd : wal.tail ≤ wal.commit.durable) :
    Commit.syncCheck wal.commit wal.tail = (wal.commit, .done (.ok ())) := by
  rw [Commit.syncCheck, h.poison_eq]
  simp only [Option.filter_none]
  rw [if_pos hd]

end Settled

variable {S : Type} [WalStore S] {wal : Wal S}

/-! ## Appending -/

theorem append_ok (h : Settled wal) {record : List UInt8}
    (hlen : record.length ≤ wal.maxRecordSize)
    (hfit : wal.tail + framedLen record.length < 2 ^ 64) {s' : S}
    (hwrite : WalStore.writeAt wal.tail (frame record) wal.store = (.ok (), s')) :
    append record wal = (.ok wal.tail, wal.appended record s') := by
  have hcommit : (Commit.markWritten wal.commit wal.tail
      (wal.tail + framedLen record.length)).1 =
        { wal.commit with committed := wal.tail + framedLen record.length } := by
    rw [Commit.markWritten, Commit.insertRegion, if_pos h.committed_eq.symm, Commit.drain_none]
    show AList.lookup _ wal.commit.pending = none
    rw [h.pending_eq]
    rfl
  rw [append, Act.get_bind, if_neg (Nat.not_lt.mpr hlen)]
  simp only [checkedAdd_of_lt hfit]
  rw [Act.modify_bind, Act.attempt_bind, onStore_ok (by exact hwrite)]
  simp only
  rw [appended, ← hcommit, Nat.mod_eq_of_lt hfit]
  rfl

theorem append_tooLarge {record : List UInt8} (hlen : wal.maxRecordSize < record.length) :
    append record wal = (.error (.err (.recordTooLarge record.length wal.maxRecordSize)), wal) := by
  rw [append, Act.get_bind, if_pos hlen]
  rfl

theorem append_overflow {record : List UInt8} (hlen : record.length ≤ wal.maxRecordSize)
    (hfit : 2 ^ 64 ≤ wal.tail + framedLen record.length) :
    ∃ wal', append record wal = (.error (.err (.io "reserving a record offset"
      (.other "log size exceeds u64"))), wal') := by
  rw [append, Act.get_bind, if_neg (Nat.not_lt.mpr hlen)]
  simp only [checkedAdd_of_le hfit]
  exact ⟨_, rfl⟩

theorem append_failed {record : List UInt8} (hlen : record.length ≤ wal.maxRecordSize)
    (hfit : wal.tail + framedLen record.length < 2 ^ 64) {fault : Fault} {s' : S}
    (hwrite : WalStore.writeAt wal.tail (frame record) wal.store = (.error fault, s')) :
    ∃ wal', append record wal = (.error fault, wal') := by
  rw [append, Act.get_bind, if_neg (Nat.not_lt.mpr hlen)]
  simp only [checkedAdd_of_lt hfit]
  rw [Act.modify_bind, Act.attempt_bind, onStore_error (by exact hwrite)]
  cases fault <;> exact ⟨_, rfl⟩

/-- An append that returns Ok has written its record at the tail. -/
theorem append_eq_ok (h : Settled wal) {record : List UInt8} {lsn : Nat} {wal' : Wal S}
    (hrun : append record wal = (.ok lsn, wal')) :
    record.length ≤ wal.maxRecordSize ∧ wal.tail + framedLen record.length < 2 ^ 64 ∧
      lsn = wal.tail ∧ ∃ s', WalStore.writeAt wal.tail (frame record) wal.store = (.ok (), s') ∧
        wal' = wal.appended record s' := by
  have hlen : record.length ≤ wal.maxRecordSize := by
    by_contra hgt
    rw [append_tooLarge (Nat.not_le.mp hgt)] at hrun
    cases hrun
  have hfit : wal.tail + framedLen record.length < 2 ^ 64 := by
    by_contra hge
    obtain ⟨w, herr⟩ := append_overflow hlen (Nat.not_lt.mp hge)
    rw [herr] at hrun
    cases hrun
  refine ⟨hlen, hfit, ?_⟩
  cases hwrite : WalStore.writeAt wal.tail (frame record) wal.store with
  | mk result s' =>
      cases result with
      | ok u =>
          rw [append_ok h hlen hfit hwrite] at hrun
          cases hrun
          exact ⟨rfl, s', rfl, rfl⟩
      | error fault =>
          obtain ⟨w, herr⟩ := append_failed hlen hfit hwrite
          rw [herr] at hrun
          cases hrun

/-! ## Syncing -/

/-- Where the whole log is taken to be durable, `sync` does nothing. -/
theorem sync_done (h : Settled wal) (hd : wal.tail ≤ wal.commit.durable) :
    sync wal = (.ok (), wal) := by
  rw [sync, Act.get_bind]
  split
  · rfl
  · rw [syncTo, syncRounds, Act.get_bind, syncCheck_done h hd]
    rfl

/-- Else it flushes the store. -/
theorem sync_flush (h : Settled wal) (hd : wal.commit.durable < wal.tail) {s' : S}
    (hsync : WalStore.sync wal.store = (.ok (), s')) : sync wal = (.ok (), wal.flushed s') := by
  have hcheck : Commit.syncCheck wal.commit wal.tail =
      ({ wal.commit with syncing := true }, .lead wal.tail) := by
    rw [Commit.syncCheck, h.poison_eq]
    simp only [Option.filter_none]
    rw [if_neg (Nat.not_le.mpr hd), if_neg (by rw [h.flushFailed_eq]; decide),
      if_pos ⟨Nat.le_of_eq h.committed_eq.symm, h.syncing_eq⟩, h.committed_eq, h.poison_eq]
  have hafter : Commit.afterFlush { wal.commit with syncing := true } wal.tail true =
      { wal.commit with durable := wal.tail } := by
    rw [Commit.afterFlush]
    simp only [if_true, if_pos hd]
    rw [← h.syncing_eq]
  rw [sync, Act.get_bind, if_neg (by omega), syncTo, syncRounds, Act.get_bind, hcheck]
  simp only [onCommit]
  rw [Act.modify_bind, Act.attempt_bind, onStore_ok (by exact hsync)]
  simp only
  rw [Act.modify_bind]
  dsimp only
  rw [hafter, syncRounds, Act.get_bind]
  have hdone := syncCheck_done (h.flushed s') (Nat.le_refl _)
  unfold flushed at hdone
  dsimp only at hdone ⊢
  rw [hdone]
  rfl

/-! ## Truncating -/

theorem truncateAfter_ok {lsn newEnd : Nat} {s1 s2 s3 : S}
    (hend : keptEnd lsn wal = (.ok newEnd, { wal with store := s1 }))
    (hcut : WalStore.truncate newEnd s1 = (.ok (), s2)) (hsync : WalStore.sync s2 = (.ok (), s3)) :
    truncateAfter lsn wal = (.ok (), wal.cutAt newEnd s3) := by
  rw [truncateAfter, Act.bind_ok hend, Act.bind_ok (onStore_ok (by exact hcut)),
    Act.bind_ok (onStore_ok (by exact hsync))]
  rfl

theorem truncateBefore_ok {lsn newHead : Nat} {s' : S}
    (hdrop : WalStore.truncateBefore lsn wal.store = (.ok newHead, s')) :
    truncateBefore lsn wal = (.ok newHead, { wal with store := s', head := newHead }) := by
  rw [truncateBefore, Act.bind_ok (onStore_ok hdrop)]
  rfl

end Wal

/-! ## Opening -/

/-- The log that an open returns. -/
def openedLog {S : Type} (config : WalConfig) (head endAt cut : Nat) (store : S) : Wal S where
  tail := endAt
  store := store
  maxRecordSize := config.maxRecordSize
  recoveryPolicy := config.recoveryPolicy
  head := head
  commit := Commit.new endAt
  truncatedOnOpen := cut

theorem openedLog_settled {S : Type} (config : WalConfig) (head endAt cut : Nat) (store : S) :
    (openedLog config head endAt cut store).Settled :=
  ⟨rfl, Nat.le_refl _, rfl, rfl, rfl, rfl⟩

section Open

variable {S : Type} [WalStore S] {img : Image UInt8} {size : Nat} {P : S → Prop}

/-- A store whose records go to its end is opened as it is, under either policy. -/
theorem open_whole (V : Serves img size P) (config : WalConfig) {head : Nat} {s s1 s2 : S}
    (hhead : WalStore.head s = (.ok head, s1)) (hlen : WalStore.len s1 = (.ok size, s2)) (hP : P s2)
    (hend : logEnd img config.maxRecordSize size head = size) :
    ∃ s', P s' ∧
      Wal.withStoreAndConfig config s = (.ok (openedLog config head size 0 s'), s') := by
  obtain ⟨s', hscan, hP'⟩ := scan_whole V config.maxRecordSize_lt head hend hP
  have hrec : recover config head s1 = (.ok { endAt := size, cut := 0 }, s') := by
    rw [recover, Act.bind_ok hlen, Act.bind_ok hscan, if_neg (Nat.lt_irrefl _), Nat.sub_self]
    rfl
  refine ⟨s', hP', ?_⟩
  rw [Wal.withStoreAndConfig, Act.bind_ok hhead, Act.bind_ok hrec]
  rfl

/-- Else the tail is cut where the records end, unless a read of the scan fails. -/
theorem open_cut {reach : Nat → Nat → Prop} (V : Sight reach img size P) {config : WalConfig}
    (hpol : config.openPolicy = .truncateTail) {head : Nat} {s : S} (hP : P s)
    (hhead : WalStore.head s = (.ok head, s))
    (hend : logEnd img config.maxRecordSize size head < size)
    (htrunc : ∀ s1, P s1 → ∃ s2,
      WalStore.truncate (logEnd img config.maxRecordSize size head) s1 = (.ok (), s2)) :
    (Wal.withStoreAndConfig config).Ends s
      (fun wal s2 => ∃ s1, P s1 ∧
        WalStore.truncate (logEnd img config.maxRecordSize size head) s1 = (.ok (), s2) ∧
        wal = openedLog config head (logEnd img config.maxRecordSize size head)
          (size - logEnd img config.maxRecordSize size head) s2)
      (Refused (ScanRead config.maxRecordSize size) reach P) := by
  rw [Act.Ends, Wal.withStoreAndConfig, Act.bind_ok hhead, recover]
  rcases (scan_ends V config.maxRecordSize_lt head hP).cases with
    ⟨_, s1, hscan, rfl, hP1⟩ | ⟨fault, s1, hscan, hrefused⟩
  · obtain ⟨s2, hs2⟩ := htrunc s1 hP1
    have hrec : recover config head s = (.ok
        { endAt := logEnd img config.maxRecordSize size head
          cut := size - logEnd img config.maxRecordSize size head }, s2) := by
      rw [recover, Act.bind_ok (V.len_eq hP), Act.bind_ok hscan, if_pos hend,
        cutTail_truncateTail hpol, Act.bind_ok hs2]
      rfl
    rw [recover] at hrec
    rw [Act.bind_ok hrec]
    exact ⟨s1, hP1, hs2, rfl⟩
  · rw [Act.bind_error (by rw [Act.bind_ok (V.len_eq hP), Act.bind_error hscan])]
    exact hrefused

end Open

end WalDb
