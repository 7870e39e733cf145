/-
Acknowledged records survive a crash.

A sync that returned success for a target has every record below the target on
stable storage, whatever the other threads were doing and whatever failed.  The
invariant gives the bytes; that they are enough is the decoding of frames: a crash
image that agrees with the log below the target has the log's records as the first
records it recovers, whatever follows.
-/
import WalDb.Invariant
import WalDb.Strict.Open

namespace WalDb

open Lib Record

/-- The records reserved so far that end at or below `limit`, in LSN order. -/
def Sys.recordsBelow (s : Sys) (limit : Nat) : List Wal.Record :=
  (s.records.filter fun r => decide (r.1 + framedLen r.2.length ≤ limit)).map
    fun r => { lsn := r.1, data := r.2 }

/-- Opening `store` succeeds, and iteration yields `rs` first and without an
error among them. -/
def RecoversFirst (config : WalConfig) (store : HeadStore) (rs : List Wal.Record) : Prop :=
  ∃ wal items, Wal.withStoreAndConfig config store = (.ok wal, wal.store) ∧
    (wal.iter.collect wal).1 = .ok items ∧ rs.map .ok <+: items

namespace Sys

/-- The log as opened satisfies the invariant. -/
theorem opened_inv {config : WalConfig} {store : HeadStore} {wal : Wal HeadStore}
    (hopen : Wal.withStoreAndConfig config store = (.ok wal, wal.store)) : Inv (opened wal) := by
  obtain ⟨hdata, hheadAt, htail, hhead, hcommit, hmax⟩ := HeadStore.flat.open_ok hopen
  have hm : wal.maxRecordSize < 2 ^ 32 := by rw [hmax]; exact config.maxRecordSize_lt
  have hle : logEnd (Image.ofList store.data) config.maxRecordSize store.data.length store.headAt ≤
      store.data.length :=
    logEnd_le config.maxRecordSize_lt (fun o ho => List.getElem?_eq_none ho) store.headAt_le
  -- The recovered records fill the store exactly.
  have hlog : (opened wal).log =
      payloads (Image.ofList store.data) config.maxRecordSize store.data.length store.headAt := by
    show payloads (Image.ofList wal.store.data) wal.maxRecordSize wal.store.data.length wal.head = _
    rw [hdata, hmax, hhead]
    exact payloads_take config.maxRecordSize_lt
  have hend : wal.tail = wal.head + (frames (opened wal).log).length := by
    rw [htail, hlog, hhead]
    rfl
  have hlen : wal.store.data.length = wal.tail := by
    rw [hdata, htail, List.length_take, Nat.min_eq_left hle]
  have hintact : Intact (Image.ofList wal.store.data) wal.maxRecordSize wal.head (opened wal).log :=
    intact_payloads hm _
  have hheadle : wal.head ≤ wal.store.data.length := by
    rw [hlen, hend]
    exact Nat.le_add_right _ _
  have htile : Tiles (opened wal).wal.head (opened wal).ranges wal.tail := by
    rw [hend]
    exact spans_tiles _ _
  refine
    { max_lt := hm, fits := hintact.1, tail_eq := hend, reserved_eq := rfl, head_le := hheadle,
      size_le := Nat.le_of_eq hlen,
      tracks := Commit.Tracks.of_all_written htile (fun _ _ => rfl)
        (show wal.commit.committed = wal.tail by rw [hcommit, htail]; rfl)
        (show wal.commit.pending = ∅ by rw [hcommit]; rfl)
        (show wal.commit.poison = none by rw [hcommit]; rfl)
        (show wal.commit.durable ≤ wal.tail by rw [hcommit, htail]; exact Nat.le_refl _),
      returned_head := fun o ho => ?_, holds := fun r hr _ => ?_, thread := fun _ => trivial,
      owner := nofun, owned := nofun, leader := nofun, syncing := nofun,
      stable := ⟨?_, fun o _ => rfl⟩, lost := nofun, acks := nofun }
  · show decide (o < wal.store.data.length) = true
    rw [decide_eq_true_eq]
    exact Nat.lt_of_lt_of_le ho hheadle
  · refine ⟨(intact_iff_located.mp hintact).2 r hr, fun o _ ho => ?_⟩
    show decide (o < wal.store.data.length) = true
    have hb := (mem_located_bounds hr).2
    have hend' : (opened wal).wal.head + (frames (opened wal).log).length = wal.tail := hend.symm
    rw [decide_eq_true_eq, hlen]
    omega
  · show wal.commit.durable ≤ wal.store.data.length
    rw [hcommit, hlen, htail]
    exact Nat.le_refl _

theorem run_sameLog {s s' : Sys} {acts : List Action} (hrun : run step s acts = some s') :
    s'.wal.head = s.wal.head ∧ s'.wal.maxRecordSize = s.wal.maxRecordSize := by
  have hkeep : ∀ u a u', (u.wal.head = s.wal.head ∧ u.wal.maxRecordSize = s.wal.maxRecordSize) →
      step u a = some u' → u'.wal.head = s.wal.head ∧ u'.wal.maxRecordSize = s.wal.maxRecordSize :=
    fun u a u' h hstep =>
      ⟨(step_sameLog hstep).head_eq.trans h.1, (step_sameLog hstep).max_eq.trans h.2⟩
  exact run_invariant hkeep ⟨rfl, rfl⟩ hrun

/-- The invariant along a run whose offsets fit. -/
theorem run_inv {s s' : Sys} {acts : List Action} (h : Inv s) (hrun : run step s acts = some s')
    (hres : s'.reserved < 2 ^ 64) : Inv s' := by
  have hkeep : ∀ s a s', (s.reserved < 2 ^ 64 → Inv s) → step s a = some s' →
      s'.reserved < 2 ^ 64 → Inv s' := fun s a s' hinv hstep hlt =>
    (hinv (Nat.lt_of_le_of_lt (step_sameLog hstep).reserved_ge hlt)).step hstep hlt
  exact run_invariant hkeep (fun _ => h) hrun hres

/-- The records that end below the watermark are in every image that agrees there with the
store. -/
theorem Inv.intact_below {s : Sys} (h : Inv s) {limit : Nat}
    (hlimit : limit ≤ s.wal.commit.committed) {qs : List (List UInt8)} (hqs : qs <+: s.log)
    (hkeep : ∀ r ∈ located s.wal.head qs, r ∈ s.records ∧ r.1 + framedLen r.2.length ≤ limit)
    {img : Image UInt8} (hagree : ∀ o, s.wal.head ≤ o → o < limit → img o = s.wal.store.data[o]?)
    {m : Nat} (hmax : s.wal.maxRecordSize ≤ m) : Intact img m s.wal.head qs := by
  refine intact_iff_located.mpr ⟨fun p hp => ?_, fun r hr => ?_⟩
  · exact Nat.le_trans (h.fits p (hqs.subset hp)) hmax
  · obtain ⟨hr', hle⟩ := hkeep r hr
    have hlo := (h.record_bounds hr').1
    have hpos := framedLen_pos r.2.length
    rw [← (h.holds r hr' (h.written_below r hr' (by omega))).1]
    exact Image.read_congr fun i hi => hagree _ (by omega) (by omega)

/-- An image that agrees with the log below `limit`, where every record is written,
recovers those records first. -/
theorem Inv.recoversFirst {s : Sys} (h : Inv s) {limit : Nat}
    (hlimit : limit ≤ s.wal.commit.committed) {store : HeadStore}
    (hhead : store.headAt = s.wal.head)
    (hagree : ∀ o, o < limit → store.data[o]? = s.wal.store.data[o]?) {config : WalConfig}
    (hmax : s.wal.maxRecordSize ≤ config.maxRecordSize)
    (hpol : config.openPolicy = .truncateTail) :
    RecoversFirst config store (s.recordsBelow limit) := by
  obtain ⟨qs, hqs, hfilter⟩ := located_filter s.wal.head limit s.log
  have hbelow : s.recordsBelow limit = Wal.recordsFrom s.wal.head qs := by
    show List.map _ ((located s.wal.head s.log).filter _) = _
    rw [hfilter]
    rfl
  have hintact : Intact (Image.ofList store.data) config.maxRecordSize s.wal.head qs :=
    h.intact_below hlimit hqs (fun r hr => (mem_of_located_filter hfilter r).mp hr)
      (fun o _ ho => hagree o ho) hmax
  have hpre := hintact.isPrefix config.maxRecordSize_lt
    (fun o (ho : store.data.length ≤ o) => List.getElem?_eq_none ho)
  obtain ⟨wal, hopen, hiter⟩ := HeadStore.flat.reopen config hpol store
  refine ⟨wal, _, hopen, hiter, ?_⟩
  rw [hbelow, hhead]
  exact (located_initial hpre).map _ |>.map _

end Sys

/-- The log over an empty store. -/
def emptyWal : Wal HeadStore where
  tail := 0
  store := ⟨[], 0, by decide, Nat.zero_le _⟩
  maxRecordSize := WalConfig.new.maxRecordSize
  recoveryPolicy := WalConfig.new.recoveryPolicy
  head := 0
  commit := Commit.new 0
  truncatedOnOpen := 0

theorem open_emptyWal :
    Wal.withStoreAndConfig WalConfig.new emptyWal.store = (.ok emptyWal, emptyWal.store) :=
  HeadStore.open_whole WalConfig.new rfl emptyWal.store (by decide +kernel)

/-- Three appends of which the second returns before the first.  Its sync leads a flush and
returns while the third is still writing.  Then the flush of the third fails, and a fourth
write fails halfway. -/
def outOfOrderActions : List Action :=
  [.append 0 [1] false, .append 1 [2] true, .append 2 [3] true, .land 1 9, .wrote 1 true, .mark 1,
    .land 0 9, .wrote 0 true, .mark 0, .enter 1, .flush 1 true (fun _ => false), .relock 1,
    .land 2 9, .wrote 2 true, .mark 2, .enter 2, .flush 2 false (fun _ => true), .relock 2,
    .append 0 [4] false, .land 0 4, .wrote 0 false, .mark 0]

/-- What the one flush that succeeded has made durable. -/
theorem outOfOrderActions_stable {s : Sys}
    (hrun : run Sys.step (Sys.opened emptyWal) outOfOrderActions = some s) {o : Nat} {b : UInt8}
    (hb : s.wal.store.stable o = some b) : (frame [1] ++ frame [2])[o]? = some b := by
  have hstable : (run Sys.step (Sys.opened emptyWal) outOfOrderActions).map
      (fun s => s.wal.store.stable o) = some ((if (decide (o < 0) ||
          (decide (9 ≤ o) && decide (o < 9 + framedLen 1)) ||
          (decide (0 ≤ o) && decide (o < 0 + framedLen 1))) = true
        then (overwrite (overwrite [] 9 (frame [2])) 0 (frame [1]))[o]? else none).or none) := by
    with_unfolding_all rfl
  rw [hrun, Option.map_some, Option.some_inj, Option.or_none] at hstable
  rw [hstable] at hb
  split at hb
  · rwa [show overwrite (overwrite [] 9 (frame [2])) 0 (frame [1]) = frame [1] ++ frame [2] by
      decide +kernel] at hb
  · cases hb

/-- Acknowledged records survive a crash.  In every run of any threads over an
opened log, once a sync has returned success for `T`, every crash image that keeps
what successful flushes covered recovers, first and in order, every record that
lies below `T`, with the offset and payload it was appended with. -/
theorem acknowledged_records_survive_crash (config : WalConfig) (store : HeadStore)
    (wal : Wal HeadStore)
    (hopen : Wal.withStoreAndConfig config store = (.ok wal, wal.store))
    (acts : List Action) (s : Sys) (hrun : run Sys.step (Sys.opened wal) acts = some s)
    (hreserved : s.reserved < 2 ^ 64) (T : Nat) (hT : T ∈ s.acks)
    (crash : HeadStore) (hhead : crash.headAt = wal.head)
    (hkept : ∀ o b, s.wal.store.stable o = some b → crash.data[o]? = some b)
    (reopenConfig : WalConfig) (hmax : config.maxRecordSize ≤ reopenConfig.maxRecordSize) :
    RecoversFirst (reopenConfig.withOpenPolicy .truncateTail) crash (s.recordsBelow T) := by
  have hinv := Sys.run_inv (Sys.opened_inv hopen) hrun hreserved
  obtain ⟨hsame, hmax'⟩ := Sys.run_sameLog hrun
  have hdurable : T ≤ s.wal.commit.durable := hinv.acks T hT
  obtain ⟨hlen, hstable⟩ := hinv.stable
  refine hinv.recoversFirst (Nat.le_trans hdurable hinv.tracks.durable_le)
    (hhead.trans hsame.symm) (fun o ho => ?_) ?_ rfl
  · -- Below the durable watermark stable storage has the log's bytes.
    have hget := List.getElem?_eq_getElem (show o < s.wal.store.data.length by omega)
    rw [hget]
    exact hkept o _ (by rw [hstable o (by omega), hget])
  · rw [hmax']
    show wal.maxRecordSize ≤ _
    rw [(HeadStore.flat.open_ok hopen).2.2.2.2.2]
    exact hmax

/-- The two appended records that the sync acknowledged are recovered, with garbage behind them
where the other two writes were. -/
theorem acknowledged_records_survive_crash_mid_write :
    ∃ s, run Sys.step (Sys.opened emptyWal) outOfOrderActions = some s ∧ 18 ∈ s.acks ∧
      s.recordsBelow 18 = [⟨0, [1]⟩, ⟨9, [2]⟩] ∧ s.wal.commit.flushFailed = true ∧
      s.wal.commit.poison = some 27 ∧
      RecoversFirst (WalConfig.new.withOpenPolicy .truncateTail)
        ⟨frame [1] ++ frame [2] ++ [1, 2, 3], 0, by decide +kernel, Nat.zero_le _⟩
        (s.recordsBelow 18) := by
  have heval : (run Sys.step (Sys.opened emptyWal) outOfOrderActions).map (fun s =>
      (s.acks, s.recordsBelow 18, s.wal.commit.flushFailed, s.wal.commit.poison, s.reserved)) =
      some ([18], [⟨0, [1]⟩, ⟨9, [2]⟩], true, some 27, 36) := by decide +kernel
  obtain ⟨s, hrun, hs⟩ := Option.map_eq_some_iff.mp heval
  simp only [Prod.mk.injEq] at hs
  obtain ⟨hacks, hbelow, hfailed, hpoison, hreserved⟩ := hs
  have hack : 18 ∈ s.acks := by
    rw [hacks]
    exact List.mem_singleton_self 18
  refine ⟨s, hrun, hack, hbelow, hfailed, hpoison, acknowledged_records_survive_crash WalConfig.new _
    emptyWal open_emptyWal _ s hrun (by rw [hreserved]; decide) 18 hack _ rfl (fun o b hb => ?_)
    WalConfig.new (Nat.le_refl _)⟩
  have hkept := outOfOrderActions_stable hrun hb
  rw [List.getElem?_append_left (List.getElem?_eq_some_iff.mp hkept).1]
  exact hkept

end WalDb
