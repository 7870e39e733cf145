/-
Truncating the tail of a log in use.

`truncate_after` asks for exclusive access, so it is one step of a state in which
every thread is idle.  It cuts the store behind the record at its LSN, flushes, and
only then moves the tail and resets the watermarks.  Two things can go wrong, and
both leave a later `sync` promising more than the store can give back.  The reset
forgets a failed write below the kept record, so the gap it left is never reported
again.  And a flush that fails after the cut leaves the tail above the end of the
store, so the next append leaves a hole.

Where neither happens the invariant of the threads survives the call, so whatever
a `sync` acknowledges afterwards is recovered.
-/
import WalDb.Crash

namespace WalDb

open Lib Record

/-- The initial part of a list of records that ends within `limit`. -/
theorem located_end_le {off limit : Nat} {ps : List (List UInt8)} (hoff : off ≤ limit)
    (h : ∀ r ∈ located off ps, r.1 + framedLen r.2.length ≤ limit) :
    off + (frames ps).length ≤ limit := by
  induction ps generalizing off with
  | nil => exact hoff
  | cons p ps ih =>
      rw [frames_cons, List.length_append, frame_length, ← Nat.add_assoc]
      exact ih (h (off, p) List.mem_cons_self) fun r hr => h r (List.mem_cons_of_mem _ hr)

/-! ## The call over the store -/

/-- Opening `store` succeeds, and iteration yields every record of `rs`. -/
def RecoversAll (config : WalConfig) (store : HeadStore) (rs : List Wal.Record) : Prop :=
  ∃ wal items, Wal.withStoreAndConfig config store = (.ok wal, wal.store) ∧
    (wal.iter.collect wal).1 = .ok items ∧ ∀ r ∈ rs, .ok r ∈ items

/-- The failures that a truncation can have before it changes the store: those of
its two reads, and one of the `truncate` that leaves everything in place. -/
def LeavesStore (faults : List Outcome) : Prop :=
  (∀ n, faults.getD 2 .ok ≠ .cuts n) ∧ faults.getD 3 .ok = .ok

namespace Disk

theorem readAt_cases (offset n : Nat) (d : Disk) :
    (∃ e, WalStore.readAt offset n d = (.error e, { d with faults := d.faults.tail })) ∨
      WalStore.readAt offset n d =
        (.ok ((d.data.drop offset).take n), { d with faults := d.faults.tail }) := by
  show (∃ e, readAt offset n d = _) ∨ readAt offset n d = _
  unfold readAt nextFault
  cases d.faults.headD .ok with
  | ok => exact Or.inr rfl
  | fails => exact Or.inl ⟨_, rfl⟩
  | cuts n => exact Or.inl ⟨_, rfl⟩

/-- A read that is not short is the range of the image. -/
theorem read_of_length {data : List UInt8} {offset n : Nat}
    (h : ¬ ((data.drop offset).take n).length < n) :
    (Image.ofList data).read offset n = some ((data.drop offset).take n) := by
  by_cases hn : n = 0
  · subst hn
    rfl
  · rw [List.length_take, List.length_drop] at h
    exact Image.read_ofList (by omega)

/-- The checks of `truncate_after` fail, or they find the record of the image. -/
theorem keptEnd_cases (lsn : Nat) (wal : Wal Disk) :
    (∃ e fs, Wal.keptEnd lsn wal =
        (.error e, { wal with store := { wal.store with faults := fs } })) ∨
      ∃ p, recordAt (Image.ofList wal.store.data) wal.maxRecordSize lsn = some p ∧
        Wal.keptEnd lsn wal = (.ok (lsn + framedLen p.length),
          { wal with store := { wal.store with faults := wal.store.faults.tail.tail } }) := by
  unfold Wal.keptEnd
  rw [Act.get_bind]
  rcases readAt_cases lsn headerLen wal.store with ⟨e, hr⟩ | hr
  · exact Or.inl ⟨e, _, Act.bind_error (Wal.onStore_error hr) _⟩
  rw [Act.bind_ok (Wal.onStore_ok hr)]
  generalize hhdr : (wal.store.data.drop lsn).take headerLen = hdr
  by_cases hshort : hdr.length < headerLen
  · exact Or.inl ⟨_, _, by rw [if_pos hshort]; rfl⟩
  rw [if_neg hshort]
  by_cases hbig : wal.maxRecordSize < (parseHeader hdr).len
  · exact Or.inl ⟨_, _, by rw [if_pos hbig]; rfl⟩
  rw [if_neg hbig]
  cases hadd : checkedAdd lsn headerLen with
  | none => exact Or.inl ⟨_, _, rfl⟩
  | some payloadStart =>
      dsimp only
      rcases readAt_cases payloadStart (parseHeader hdr).len
        { wal.store with faults := wal.store.faults.tail } with ⟨e, hr2⟩ | hr2
      · exact Or.inl ⟨e, _, Act.bind_error (Wal.onStore_error hr2) _⟩
      rw [Act.bind_ok (Wal.onStore_ok hr2)]
      dsimp only
      generalize hpay : (wal.store.data.drop payloadStart).take (parseHeader hdr).len = payload
      by_cases hpshort : payload.length < (parseHeader hdr).len
      · exact Or.inl ⟨_, _, by rw [if_pos hpshort]; rfl⟩
      rw [if_neg hpshort]
      by_cases hver : verify hdr payload (parseHeader hdr).crc = false
      · exact Or.inl ⟨_, _, by rw [if_pos hver]; rfl⟩
      rw [if_neg hver]
      cases hend : checkedAdd payloadStart (parseHeader hdr).len with
      | none => exact Or.inl ⟨_, _, rfl⟩
      | some newEnd =>
          have hread1 := read_of_length (by rw [hhdr]; exact hshort)
          have hread2 := read_of_length (by rw [hpay]; exact hpshort)
          rw [hhdr] at hread1
          rw [hpay] at hread2
          have hstart := (checkedAdd_eq_some hadd).1
          have hlen := Image.read_length hread2
          rw [hstart] at hread2
          refine Or.inr ⟨payload, ?_, ?_⟩
          · simp only [recordAt, hread1, Option.bind_some, if_pos (Nat.not_lt.mp hbig), hread2,
              if_pos ((Bool.not_eq_false _).mp hver)]
          · rw [(checkedAdd_eq_some hend).1, hstart, hlen, framedLen, Nat.add_assoc]
            rfl

/-- Unless it fails with the store changed, `truncate_after` does nothing or all of
it. -/
theorem truncateAfter_cases (lsn : Nat) (wal : Wal Disk) (h : LeavesStore wal.store.faults) :
    (∃ e fs, Wal.truncateAfter lsn wal =
        (.error e, { wal with store := { wal.store with faults := fs } })) ∨
      ∃ p fs, recordAt (Image.ofList wal.store.data) wal.maxRecordSize lsn = some p ∧
        let newEnd := lsn + framedLen p.length
        let kept := wal.store.cut newEnd
        Wal.truncateAfter lsn wal = (.ok (), { wal with
          tail := newEnd
          store := { kept.flushed kept.snapshot with faults := fs }
          commit := Commit.reset wal.commit newEnd }) := by
  unfold Wal.truncateAfter
  rcases keptEnd_cases lsn wal with ⟨e, fs, hend⟩ | ⟨p, hp, hend⟩
  · exact Or.inl ⟨e, fs, Act.bind_error hend _⟩
  rw [Act.bind_ok hend]
  obtain ⟨hcuts, hflush⟩ := h
  match hfaults : wal.store.faults with
  | [] => exact Or.inr ⟨p, [], hp, rfl⟩
  | [_] => exact Or.inr ⟨p, [], hp, rfl⟩
  | [_, _] => exact Or.inr ⟨p, [], hp, rfl⟩
  | _ :: _ :: .ok :: fs =>
      rw [hfaults] at hflush
      match fs with
      | [] => exact Or.inr ⟨p, [], hp, rfl⟩
      | f :: fs =>
          cases (show f = .ok from hflush)
          exact Or.inr ⟨p, fs, hp, rfl⟩
  | _ :: _ :: .fails :: fs => exact Or.inl ⟨_, fs, rfl⟩
  | _ :: _ :: .cuts n :: fs =>
      rw [hfaults] at hcuts
      exact absurd rfl (hcuts n)

/-- A cut and a flush leave every byte below the cut on stable storage that was
there already, or that had been written and not dropped. -/
theorem stableBelow_cut_flushed {d : Disk} {newEnd n : Nat} (hn : n ≤ newEnd)
    (hlen : n ≤ d.data.length)
    (h : ∀ o, o < n → d.stable o = d.data[o]? ∨ d.lost o = false ∧ d.returned o = true) :
    ((d.cut newEnd).flushed (d.cut newEnd).snapshot).StableBelow n := by
  refine ⟨?_, fun o ho => ?_⟩
  · show n ≤ (d.data.take newEnd).length
    rw [List.length_take]
    omega
  have hlt : o < newEnd := by omega
  show (if d.lost o = true then (if o < newEnd then d.stable o else none)
    else Option.or (if (d.returned o && decide (o < newEnd)) = true then
        (d.data.take newEnd)[o]? else none)
      (if o < newEnd then d.stable o else none)) = (d.data.take newEnd)[o]?
  rw [List.getElem?_take_of_lt hlt, if_pos hlt]
  have hget := List.getElem?_eq_getElem (show o < d.data.length by omega)
  cases hlost : d.lost o <;> cases hret : d.returned o
  all_goals
    have h' := h o ho
    rw [hlost, hret] at h'
  · simpa using h'
  · simp [hlt, hget]
  · simpa using h'
  · simpa using h'

end Disk

/-! ## The call as a step -/

/-- What a run may do: a step of a thread, or a truncation whose store operations
end as `faults` says. -/
inductive Op where
  | step (a : Action)
  | truncateAfter (lsn : Nat) (faults : List Outcome)

namespace Sys

/-- No call is in progress. -/
def Quiescent (s : Sys) : Prop := ∀ t, s.threads t = .idle

/-- The payloads of the records that end at or below `limit`. -/
def logBelow (s : Sys) (limit : Nat) : List (List UInt8) :=
  (s.records.filter fun r => decide (r.1 + framedLen r.2.length ≤ limit)).map Prod.snd

/-- `truncate_after`, and how its caller's view of the log changes: what is behind
the new tail is gone, and an acknowledged target covers what is left of it. -/
def truncateAfter (s : Sys) (lsn : Nat) (faults : List Outcome) : Except Fault Unit × Sys :=
  let r := Wal.truncateAfter lsn { s.wal with store := { s.wal.store with faults := faults } }
  let wal := { r.2 with store := { r.2.store with faults := [] } }
  match r.1 with
  | .ok () =>
      (.ok (), { s with wal := wal, log := s.logBelow wal.tail, reserved := wal.tail,
                        acks := s.acks.map (min wal.tail) })
  | .error e => (.error e, { s with wal := wal })

def perform (s : Sys) : Op → Option Sys
  | .step a => s.step a
  | .truncateAfter lsn faults => some (s.truncateAfter lsn faults).2

/-- The records whose `append` returned success and that lie below `limit`. -/
def appendedBelow (s : Sys) (limit : Nat) : List Wal.Record :=
  (s.records.filter fun r =>
      decide (s.status r.1 = .written) && decide (r.1 + framedLen r.2.length ≤ limit)).map
    fun r => { lsn := r.1, data := r.2 }

/-! ## Threads that take no step -/

/-- The thread an action belongs to. -/
def thread : Action → Nat
  | .append t _ _ | .land t _ | .wrote t _ | .mark t | .sync t | .enter t | .flush t _ _
  | .relock t | .spurious t | .wake t => t

theorem round_follows (s : Sys) {t u : Nat} (target : Nat) (hu : u ≠ t) :
    (s.round t target).threads u = s.threads u := by
  obtain ⟨st, pc, acks, heq⟩ := s.round_eq t target
  rw [heq]
  exact setPc_ne _ _ hu

/-- A step moves its own thread; another it leaves alone, or wakes. -/
theorem step_follows {s s' : Sys} {a : Action} (h : step s a = some s') {u : Nat}
    (hu : u ≠ thread a) : Follows (s.threads u) (s'.threads u) := by
  cases takes_of_step h with
  | refuse | syncEmpty => exact Or.inl rfl
  | markOk | markErr | markOverflow => exact settle_follows s hu
  | enter | wake => exact Or.inl (round_follows _ _ hu)
  | @relockOk t =>
      rw [round_follows _ _ (show u ≠ t from hu)]
      exact notifyAll_follows s.threads u
  | @relockErr t =>
      show Follows _ (setPc (notifyAll s.threads) t .idle u)
      rw [setPc_ne _ _ (show u ≠ t from hu)]
      exact notifyAll_follows s.threads u
  | _ => exact Or.inl (setPc_ne _ _ hu)

/-- A run of one thread ends with no call in progress if that thread is idle. -/
theorem quiescent_of_run {s s' : Sys} {t : Nat} {acts : List Action} (h : s.Quiescent)
    (hrun : run step s acts = some s') (hacts : ∀ a ∈ acts, thread a = t)
    (ht : s'.threads t = .idle) : s'.Quiescent := by
  have hkeep : ∀ v a v', (∀ u, u ≠ t → v.threads u = .idle) → thread a = t →
      step v a = some v' → ∀ u, u ≠ t → v'.threads u = .idle := by
    intro v a v' hv ha hstep u hu
    rcases step_follows hstep (show u ≠ thread a by rw [ha]; exact hu) with heq | ⟨target, hw, -⟩
    · rw [heq]
      exact hv u hu
    · rw [hv u hu] at hw
      cases hw
  have hothers := run_along hkeep (fun u _ => h u) (Along.of_forall (fun a ha _ => hacts a ha) s) hrun
  intro u
  by_cases hu : u = t
  · rw [hu, ht]
  · exact hothers u hu

/-! ## The invariant survives -/

/-- With no call in progress every write has ended. -/
theorem Inv.not_inflight {s : Sys} (h : Inv s) (hq : s.Quiescent) {r : Nat × List UInt8}
    (hr : r ∈ s.records) : s.status r.1 ≠ .inflight := by
  intro hfl
  obtain ⟨t, ht⟩ := h.owned r hr hfl
  rw [hq t] at ht
  cases ht

theorem Inv.lost_flushFailed {s : Sys} (h : Inv s) (hq : s.Quiescent) {o : Nat}
    (ho : s.wal.store.lost o = true) : s.wal.commit.flushFailed = true := by
  rcases h.lost o ho with hf | ⟨t, target, flushTo, ht⟩
  · exact hf
  · rw [hq t] at ht
    cases ht

/-- Records at or below an LSN that lies below every failed range are written. -/
theorem Inv.written_of_le {s : Sys} (h : Inv s) (hq : s.Quiescent) {lsn : Nat}
    (hpoison : ∀ p, s.wal.commit.poison = some p → lsn < p) {r : Nat × List UInt8}
    (hr : r ∈ s.records) (hle : r.1 ≤ lsn) : s.status r.1 = .written := by
  cases hst : s.status r.1 with
  | written => rfl
  | inflight => exact absurd hst (h.not_inflight hq hr)
  | failed =>
      obtain ⟨p, hp, hple⟩ := h.tracks.poison_le _ (mem_spans hr) hst
      have := hpoison p hp
      dsimp only at hple
      omega

/-- A truncation that fails with the store as it was. -/
theorem Inv.truncate_failed {s : Sys} (h : Inv s) (fs : List Outcome) :
    Inv (s.withStore { s.wal.store with faults := fs }) :=
  { max_lt := h.max_lt, fits := h.fits, tail_eq := h.tail_eq, reserved_eq := h.reserved_eq,
    head_le := h.head_le, size_le := h.size_le, tracks := h.tracks,
    returned_head := h.returned_head, holds := h.holds, thread := h.thread, owner := h.owner,
    owned := h.owned, leader := h.leader, syncing := h.syncing, stable := h.stable,
    lost := h.lost, acks := h.acks }

/-- The record that a truncation finds is a record of the log, if its LSN is not
inside one. -/
theorem Inv.record_found {s : Sys} (h : Inv s) (hq : s.Quiescent) {lsn : Nat}
    (hpoison : ∀ p, s.wal.commit.poison = some p → lsn < p) (hhead : s.wal.head ≤ lsn)
    (hinside : ∀ r ∈ s.records, ¬ (r.1 < lsn ∧ lsn < r.1 + framedLen r.2.length))
    {p : List UInt8}
    (hp : recordAt (Image.ofList s.wal.store.data) s.wal.maxRecordSize lsn = some p) :
    (lsn, p) ∈ s.records := by
  have hlt : lsn < s.wal.store.data.length := by
    by_contra hge
    have hnone : Image.ofList s.wal.store.data lsn = none :=
      List.getElem?_eq_none (Nat.not_lt.mp hge)
    rw [recordAt_none_of_past hnone] at hp
    cases hp
  obtain ⟨q, hq', hlo, hhi⟩ := (ranges_tiles h).exists_mem hhead (Nat.lt_of_lt_of_le hlt h.size_le)
  obtain ⟨r, hr, hlo', hhi'⟩ := exists_of_mem_spans hq'
  have heq : r.1 = lsn := by
    by_contra hne
    exact hinside r hr (by omega)
  obtain ⟨hread, -⟩ := h.holds r hr (h.written_of_le hq hpoison hr (by omega))
  have hfit := h.fits r.2 (by
    rw [← located_map_snd s.wal.head s.log]
    exact List.mem_map_of_mem hr)
  rw [heq] at hread
  rw [(recordAt_eq_some_iff h.max_lt).mpr ⟨hfit, hread⟩] at hp
  cases hp
  rw [← heq]
  exact hr

/-- The records that a truncation behind `(lsn, p)` keeps: they end where the new
tail is, and none of them starts above `lsn`. -/
theorem Inv.logBelow_spec {s : Sys} (h : Inv s) {lsn : Nat} {p : List UInt8}
    (hmem : (lsn, p) ∈ s.records) :
    s.logBelow (lsn + framedLen p.length) <+: s.log ∧
      lsn + framedLen p.length =
        s.wal.head + (frames (s.logBelow (lsn + framedLen p.length))).length ∧
      ∀ r ∈ located s.wal.head (s.logBelow (lsn + framedLen p.length)),
        r ∈ s.records ∧ r.1 ≤ lsn ∧ r.1 + framedLen r.2.length ≤ lsn + framedLen p.length := by
  obtain ⟨qs, hqs, hfilter⟩ := located_filter s.wal.head (lsn + framedLen p.length) s.log
  have hlog : s.logBelow (lsn + framedLen p.length) = qs := by
    show ((located s.wal.head s.log).filter _).map Prod.snd = qs
    rw [hfilter, located_map_snd]
  rw [hlog]
  have hkeep := mem_of_located_filter hfilter
  have hlast := (mem_located_bounds ((hkeep _).mpr ⟨hmem, Nat.le_refl _⟩)).2
  have hbound := located_end_le (Nat.le_trans (h.record_bounds hmem).1 (Nat.le_add_right _ _))
    fun r hr => ((hkeep r).mp hr).2
  refine ⟨hqs, Nat.le_antisymm hlast hbound, fun r hr => ?_⟩
  obtain ⟨hr', hle⟩ := (hkeep r).mp hr
  refine ⟨hr', ?_, hle⟩
  by_contra hgt
  have hpos : 0 < framedLen r.2.length := framedLen_pos _
  rcases h.disjoint hr' hmem (by dsimp only; omega) with hd | hd <;> dsimp only at hd <;> omega

theorem reset_durable_le (st : Commit.State) (newEnd : Nat) :
    (Commit.reset st newEnd).durable ≤ newEnd := by
  show (if st.flushFailed = true then min st.durable newEnd else newEnd) ≤ _
  split <;> omega

/-- After the cut and its flush what the watermark covers is on stable storage. -/
theorem Inv.stable_cut {s : Sys} (h : Inv s) (hq : s.Quiescent) {newEnd : Nat}
    (hle : newEnd ≤ s.wal.tail)
    (hbelow : ∀ r ∈ s.records, r.1 < newEnd → s.status r.1 = .written) :
    ((s.wal.store.cut newEnd).flushed (s.wal.store.cut newEnd).snapshot).StableBelow
      (Commit.reset s.wal.commit newEnd).durable := by
  have hdurable := reset_durable_le s.wal.commit newEnd
  refine Disk.stableBelow_cut_flushed hdurable
    (Nat.le_trans hdurable (h.le_length hle hbelow)) fun o ho => ?_
  by_cases hf : s.wal.commit.flushFailed = true
  · -- After a failed flush the watermark does not rise, and what it covers is stable.
    have ho' : o < (if s.wal.commit.flushFailed = true then min s.wal.commit.durable newEnd
      else newEnd) := ho
    rw [if_pos hf] at ho'
    exact Or.inl (h.stable.2 o (by omega))
  · refine Or.inr ⟨?_, (h.bytes_below hle hbelow (Nat.lt_of_lt_of_le ho hdurable)).1⟩
    cases hl : s.wal.store.lost o with
    | false => rfl
    | true => exact absurd (h.lost_flushFailed hq hl) hf

/-- A truncation that succeeds at a record with no failed range at or below it. -/
theorem Inv.truncated {s : Sys} (h : Inv s) (hq : s.Quiescent) {lsn : Nat}
    (hpoison : ∀ p, s.wal.commit.poison = some p → lsn < p) {p : List UInt8}
    (hmem : (lsn, p) ∈ s.records) (fs : List Outcome) :
    let newEnd := lsn + framedLen p.length
    let kept := s.wal.store.cut newEnd
    Inv { s with
      wal := { s.wal with
        tail := newEnd
        store := { kept.flushed kept.snapshot with faults := fs }
        commit := Commit.reset s.wal.commit newEnd }
      log := s.logBelow newEnd
      reserved := newEnd
      acks := s.acks.map (min newEnd) } := by
  obtain ⟨hpre, hend, hkept⟩ := h.logBelow_spec hmem
  have hbounds := h.record_bounds hmem
  dsimp only at hbounds ⊢
  generalize s.logBelow (lsn + framedLen p.length) = log at hpre hend hkept ⊢
  generalize hne : lsn + framedLen p.length = newEnd at hend hkept hbounds ⊢
  have hwritten : ∀ r ∈ located s.wal.head log, s.status r.1 = .written := fun r hr =>
    h.written_of_le hq hpoison (hkept r hr).1 (hkept r hr).2.1
  have htile : Tiles s.wal.head (spans s.wal.head log) newEnd := by
    rw [hend]
    exact spans_tiles _ _
  have hbelow : ∀ r ∈ s.records, r.1 < newEnd → s.status r.1 = .written := by
    intro r hr hlt
    refine h.written_of_le hq hpoison hr ?_
    by_contra hgt
    rcases h.disjoint hr hmem (by dsimp only; omega) with hd | hd <;> dsimp only at hd <;> omega
  refine
    { max_lt := h.max_lt, fits := fun q hq' => h.fits q (hpre.subset hq'), tail_eq := hend,
      reserved_eq := rfl, head_le := ?_, size_le := ?_,
      tracks := Commit.Tracks.of_all_written htile (fun r hr => ?_) rfl rfl rfl
        (reset_durable_le _ _),
      returned_head := fun o ho => ?_, holds := fun r hr _ => ?_,
      thread := fun t => by rw [hq t]; trivial,
      owner := fun t _ _ ht _ => ?_, owned := fun r hr hfl => ?_,
      leader := fun t _ ht _ => ?_, syncing := fun t ht => ?_,
      stable := h.stable_cut hq hbounds.2 hbelow,
      lost := fun o ho => Or.inl (h.lost_flushFailed hq ho), acks := fun T hT => ?_ }
  · show s.wal.head ≤ (s.wal.store.data.take newEnd).length
    rw [List.length_take]
    exact Nat.le_min.mpr ⟨htile.le, h.head_le⟩
  · show (s.wal.store.data.take newEnd).length ≤ newEnd
    exact List.length_take_le _ _
  · obtain ⟨r', hr', hlo, -⟩ := exists_of_mem_spans hr
    rw [hlo]
    exact hwritten r' hr'
  · show (s.wal.store.returned o && decide (o < newEnd)) = true
    rw [h.returned_head o ho, decide_eq_true (Nat.lt_of_lt_of_le ho htile.le)]
    rfl
  · -- A kept record lies below the cut.
    obtain ⟨hr', -, hle⟩ := hkept r hr
    obtain ⟨hread, hret⟩ := h.holds r hr' (hwritten r hr)
    refine ⟨?_, fun o hlo hhi => ?_⟩
    · rw [← hread]
      exact Image.read_congr fun i hi => List.getElem?_take_of_lt (by omega)
    · show (s.wal.store.returned o && decide (o < newEnd)) = true
      rw [hret o hlo hhi, decide_eq_true (by omega)]
      rfl
  · rw [hq t] at ht
    cases ht
  · rw [hwritten r hr] at hfl
    cases hfl
  · rw [hq t] at ht
    cases ht
  · rw [hq t] at ht
    cases ht
  · obtain ⟨T', hT', rfl⟩ := List.mem_map.mp hT
    have := h.acks T' hT'
    show min newEnd T' ≤
      if s.wal.commit.flushFailed = true then min s.wal.commit.durable newEnd else newEnd
    split <;> omega

/-- Where the log may be cut: at or above the head, not inside a record, and with no
failed range at or below the record that is kept. -/
structure Truncatable (s : Sys) (lsn : Nat) : Prop where
  above_head : s.wal.head ≤ lsn
  not_inside : ∀ r ∈ s.records, ¬ (r.1 < lsn ∧ lsn < r.1 + framedLen r.2.length)
  unpoisoned : ∀ p, s.wal.commit.poison = some p → lsn < p

/-- A step of a run in which the offsets fit, and every truncation is called with
exclusive access, where the log may be cut, and does not fail with the store
changed. -/
def Clean (s : Sys) : Op → Prop
  | .step a => s.reserved + room a < 2 ^ 64
  | .truncateAfter lsn faults => s.Quiescent ∧ s.Truncatable lsn ∧ LeavesStore faults

/-- A truncation that cannot fail with the store changed either fails and changes
nothing, or cuts the log behind a record of the image. -/
theorem truncateAfter_cases (s : Sys) (lsn : Nat) {faults : List Outcome}
    (h : LeavesStore faults) :
    (∃ e, s.truncateAfter lsn faults =
        (.error e, s.withStore { s.wal.store with faults := [] })) ∨
      ∃ p, recordAt (Image.ofList s.wal.store.data) s.wal.maxRecordSize lsn = some p ∧
        let newEnd := lsn + framedLen p.length
        let kept := s.wal.store.cut newEnd
        s.truncateAfter lsn faults = (.ok (), { s with
          wal := { s.wal with
            tail := newEnd
            store := { kept.flushed kept.snapshot with faults := [] }
            commit := Commit.reset s.wal.commit newEnd }
          log := s.logBelow newEnd
          reserved := newEnd
          acks := s.acks.map (min newEnd) }) := by
  unfold truncateAfter
  rcases Disk.truncateAfter_cases lsn
    { s.wal with store := { s.wal.store with faults := faults } } h with ⟨e, fs, heq⟩ | ⟨p, fs, hp, heq⟩
  · exact Or.inl ⟨e, by rw [heq]; rfl⟩
  · exact Or.inr ⟨p, hp, by rw [heq]; rfl⟩

/-- What every clean step preserves. -/
structure Sound (wal : Wal HeadStore) (s : Sys) : Prop extends Inv s where
  fits_u64 : s.reserved < 2 ^ 64
  head_eq : s.wal.head = wal.head
  max_eq : s.wal.maxRecordSize = wal.maxRecordSize

theorem Sound.step {wal : Wal HeadStore} {s s' : Sys} (h : Sound wal s) {a : Action}
    (hfit : s.reserved + room a < 2 ^ 64) (hstep : step s a = some s') : Sound wal s' := by
  have hsame := step_sameLog hstep
  have hlt : s'.reserved < 2 ^ 64 := Nat.lt_of_le_of_lt hsame.reserved_le hfit
  exact ⟨h.toInv.step hstep hlt, hlt, hsame.head_eq.trans h.head_eq, hsame.max_eq.trans h.max_eq⟩

theorem Sound.perform {wal : Wal HeadStore} {s s' : Sys} (h : Sound wal s) {op : Op}
    (hclean : s.Clean op) (hop : s.perform op = some s') : Sound wal s' := by
  cases op with
  | step a => exact h.step hclean hop
  | truncateAfter lsn faults =>
      obtain ⟨hq, hcut, hleaves⟩ := hclean
      cases hop
      rcases truncateAfter_cases s lsn hleaves with ⟨e, heq⟩ | ⟨p, hp, heq⟩
      · rw [heq]
        exact ⟨h.toInv.truncate_failed [], h.fits_u64, h.head_eq, h.max_eq⟩
      · have hmem := h.toInv.record_found hq hcut.unpoisoned hcut.above_head hcut.not_inside hp
        rw [heq]
        refine ⟨h.toInv.truncated hq hcut.unpoisoned hmem [], ?_, h.head_eq, h.max_eq⟩
        have := (h.toInv.record_bounds hmem).2
        have := h.reserved_eq
        have := h.fits_u64
        dsimp only at *
        omega

/-- Steps that reserve nothing are clean. -/
theorem Sound.clean_of_room {wal : Wal HeadStore} {s : Sys} (h : Sound wal s)
    {acts : List Action} (hacts : ∀ a ∈ acts, room a = 0) :
    Along Sys.perform Clean s (acts.map .step) := by
  induction acts generalizing s with
  | nil => trivial
  | cons a acts ih =>
      have hfit : s.reserved + room a < 2 ^ 64 := by
        rw [hacts a List.mem_cons_self]
        exact h.fits_u64
      exact ⟨hfit, fun s' hstep =>
        ih (h.step hfit hstep) fun b hb => hacts b (List.mem_cons_of_mem a hb)⟩

/-- Every sync that returned success keeps its word: reopening what the store holds
recovers every record that was appended with success below the synced tail, is not
truncated away, and has a `spared` LSN. -/
def Keeps (config : WalConfig) (spared : Nat → Bool) (s : Sys) : Prop :=
  ∀ T ∈ s.acks, ∀ store : HeadStore, store.data = s.wal.store.data → store.headAt = s.wal.head →
    RecoversAll (config.withOpenPolicy .truncateTail) store
      ((s.appendedBelow T).filter fun r => spared r.lsn)

theorem appendedBelow_subset (s : Sys) (limit : Nat) : s.appendedBelow limit ⊆ s.recordsBelow limit := by
  intro r hr
  obtain ⟨q, hq, rfl⟩ := List.mem_map.mp hr
  obtain ⟨hmem, hle⟩ := List.mem_filter.mp hq
  rw [Bool.and_eq_true] at hle
  exact List.mem_map_of_mem (List.mem_filter.mpr ⟨hmem, hle.2⟩)

theorem Sound.keeps {config : WalConfig} {store : HeadStore} {wal : Wal HeadStore}
    (hopen : Wal.withStoreAndConfig config store = (.ok wal, wal.store)) {s : Sys}
    (h : Sound wal s) (spared : Nat → Bool) : s.Keeps config spared := by
  intro T hT store' hdata hhead
  have hmax : s.wal.maxRecordSize = config.maxRecordSize :=
    h.max_eq.trans (HeadStore.flat.open_ok hopen).2.2.2.2.2
  have hfirst : RecoversFirst (config.withOpenPolicy .truncateTail) store' (s.recordsBelow T) :=
    h.toInv.recoversFirst (Nat.le_trans (h.acks T hT) h.tracks.durable_le) hhead
      (fun o _ => by rw [hdata]) (Nat.le_of_eq hmax) rfl
  obtain ⟨wal', items, hopen', hiter, hpre⟩ := hfirst
  refine ⟨wal', items, hopen', hiter, fun r hr => hpre.subset (List.mem_map_of_mem ?_)⟩
  exact s.appendedBelow_subset T (List.mem_filter.mp hr).1

theorem opened_sound {config : WalConfig} {store : HeadStore} {wal : Wal HeadStore}
    (hopen : Wal.withStoreAndConfig config store = (.ok wal, wal.store)) :
    Sound wal (opened wal) := by
  refine ⟨opened_inv hopen, ?_, rfl, rfl⟩
  show wal.tail < 2 ^ 64
  rw [(HeadStore.flat.open_ok hopen).2.2.1]
  exact Nat.lt_of_le_of_lt (logEnd_le config.maxRecordSize_lt
    (fun o ho => List.getElem?_eq_none ho) store.headAt_le) store.data_lt

end Sys

/-- Reopening yields the records of the image and nothing else. -/
theorem RecoversAll.mem {config : WalConfig} (hpol : config.openPolicy = .truncateTail)
    {store : HeadStore} {rs : List Wal.Record} (h : RecoversAll config store rs)
    {r : Wal.Record} (hr : r ∈ rs) :
    r ∈ Wal.recordsFrom store.headAt
      (payloads (Image.ofList store.data) config.maxRecordSize store.data.length store.headAt) := by
  obtain ⟨wal, items, hopen, hiter, hall⟩ := h
  obtain ⟨wal', hopen', hiter'⟩ := HeadStore.flat.reopen config hpol store
  have hwal : wal' = wal := by
    rw [hopen] at hopen'
    cases hopen'
    rfl
  rw [hwal, hiter] at hiter'
  have hmem := hall r hr
  rw [Except.ok.inj hiter', List.mem_map] at hmem
  obtain ⟨r', hr', heq⟩ := hmem
  cases heq
  exact hr'

namespace Sys

/-- A sync of `T` has returned success, `r` was appended with success below `T`, and
the store does not give it back. -/
def Loses (config : WalConfig) (T : Nat) (r : Wal.Record) (s : Sys) : Prop :=
  T ∈ s.acks ∧ r ∈ s.appendedBelow T ∧ s.wal.head ≤ s.wal.store.data.length ∧
    s.wal.store.data.length < 2 ^ 64 ∧
    r ∉ Wal.recordsFrom s.wal.head (payloads (Image.ofList s.wal.store.data) config.maxRecordSize
      s.wal.store.data.length s.wal.head)

instance (config : WalConfig) (T : Nat) (r : Wal.Record) (s : Sys) :
    Decidable (s.Loses config T r) :=
  inferInstanceAs (Decidable (_ ∧ _ ∧ _ ∧ _ ∧ _))

theorem Loses.not_keeps {config : WalConfig} {T : Nat} {r : Wal.Record} {s : Sys}
    (h : s.Loses config T r) {spared : Nat → Bool} (hr : spared r.lsn = true) :
    ¬ s.Keeps config spared := by
  intro hkeeps
  obtain ⟨hT, happ, hle, hlt, hmiss⟩ := h
  exact hmiss ((hkeeps T hT ⟨s.wal.store.data, s.wal.head, hlt, hle⟩ rfl rfl).mem rfl
    (List.mem_filter.mpr ⟨happ, hr⟩))

end Sys

/-- The log over a store of two empty records. -/
def pairWal : Wal HeadStore where
  tail := 16
  store := ⟨frame [] ++ frame [], 0, by decide +kernel, Nat.zero_le _⟩
  maxRecordSize := WalConfig.new.maxRecordSize
  recoveryPolicy := WalConfig.new.recoveryPolicy
  head := 0
  commit := Commit.new 16
  truncatedOnOpen := 0

theorem open_pairWal :
    Wal.withStoreAndConfig WalConfig.new pairWal.store = (.ok pairWal, pairWal.store) :=
  HeadStore.open_whole WalConfig.new rfl pairWal.store (by decide +kernel)

/-- In every run of appends that may fail, syncs and truncations in which every
truncation is made where the log may be cut, a sync that returned success keeps its
word: a truncation hides no gap. -/
theorem truncate_after_hides_no_gap (config : WalConfig) (store : HeadStore)
    (wal : Wal HeadStore) (hopen : Wal.withStoreAndConfig config store = (.ok wal, wal.store))
    (ops : List Op) (hclean : Along Sys.perform Sys.Clean (Sys.opened wal) ops) (s : Sys)
    (hrun : run Sys.perform (Sys.opened wal) ops = some s) : s.Keeps config fun _ => true := by
  have hsound : Sys.Sound wal s :=
    run_along (fun _ _ _ h hok hop => h.perform hok hop) (Sys.opened_sound hopen) hclean hrun
  exact hsound.keeps hopen _

/-- Two records.  An append behind them fails; a truncation behind the second record
takes the failed range away, and a sync returns success. -/
theorem truncate_after_hides_no_gap_past_failure :
    ∃ s : Sys,
      run Sys.perform (Sys.opened pairWal)
          [.step (.append 0 [] false), .step (.wrote 0 false), .step (.mark 0),
            .truncateAfter 8 [], .step (.sync 0), .step (.enter 0)] = some s ∧
        s.Keeps WalConfig.new fun _ => true := by
  have hsome : (run Sys.perform (Sys.opened pairWal)
      [.step (.append 0 [] false), .step (.wrote 0 false), .step (.mark 0),
        .truncateAfter 8 [], .step (.sync 0), .step (.enter 0)]).isSome = true := by
    decide +kernel
  obtain ⟨s, hrun⟩ := Option.isSome_iff_exists.mp hsome
  refine ⟨s, hrun, truncate_after_hides_no_gap WalConfig.new _ _ open_pairWal _ ?_ s hrun⟩
  have hfit : 16 + Sys.room (.append 0 [] false) < 2 ^ 64 := by decide
  have h₀ := Sys.opened_sound open_pairWal
  refine ⟨hfit, fun s₁ h₁ => ?_⟩
  have hs₁ := h₀.step hfit h₁
  cases h₁
  refine ⟨hs₁.fits_u64, fun s₂ h₂ => ?_⟩
  have hs₂ := hs₁.step (a := .wrote 0 false) hs₁.fits_u64 h₂
  cases h₂
  refine ⟨hs₂.fits_u64, fun s₃ h₃ => ?_⟩
  have hs₃ := hs₂.step (a := .mark 0) hs₂.fits_u64 h₃
  cases h₃
  have hclean : Sys.Clean _ (.truncateAfter 8 []) :=
    ⟨Sys.quiescent_of_run (t := 0) (fun _ => rfl)
      (show run Sys.step (Sys.opened pairWal)
        [.append 0 [] false, .wrote 0 false, .mark 0] = some _ from rfl) (by decide) rfl,
      ⟨by decide, by decide +kernel, fun p hp => by cases hp; decide⟩, nofun, rfl⟩
  exact ⟨hclean, fun s₄ h₄ => (hs₃.perform hclean h₄).clean_of_room
    (show ∀ a ∈ [Action.sync 0, .enter 0], Sys.room a = 0 by decide)⟩

/-- One thread: an append that fails, and one that returns success. -/
def gapActions : List Action :=
  [.append 0 [] false, .wrote 0 false, .mark 0,
    .append 0 [] false, .land 0 8, .wrote 0 true, .mark 0]

/-- An empty log.  The append at 0 fails, the one at 8 returns success.  A truncation
behind the second returns success, and so does a sync; the record at 8 lies behind
eight bytes that are no record, and a reopened log does not have it. -/
theorem truncate_after_hides_a_gap :
    Wal.withStoreAndConfig WalConfig.new emptyWal.store = (.ok emptyWal, emptyWal.store) ∧
      ∃ s₀ s₁ s₂ : Sys, run Sys.step (Sys.opened emptyWal) gapActions = some s₀ ∧
        s₀.Quiescent ∧ { lsn := 8, data := [] } ∈ s₀.appendedBelow 16 ∧
        s₀.truncateAfter 8 [] = (.ok (), s₁) ∧
        run Sys.step s₁ [.sync 0, .enter 0] = some s₂ ∧
        ¬ s₂.Keeps WalConfig.new fun _ => true := by
  obtain ⟨s₀, hrun, hidle⟩ :
      ∃ s₀, run Sys.step (Sys.opened emptyWal) gapActions = some s₀ ∧ s₀.threads 0 = .idle :=
    ⟨_, rfl, rfl⟩
  have hquiet : s₀.Quiescent :=
    Sys.quiescent_of_run (fun _ => rfl) hrun (by decide) hidle
  have hcall : (run Sys.step (Sys.opened emptyWal) gapActions).map (fun s =>
      (decide ({ lsn := 8, data := [] } ∈ s.appendedBelow 16), (s.truncateAfter 8 []).1.toBool)) =
      some (true, true) := by decide +kernel
  have hloses : (run Sys.step (Sys.opened emptyWal) gapActions).bind (fun s =>
      (run Sys.step (s.truncateAfter 8 []).2 [.sync 0, .enter 0]).map fun s =>
        decide (s.Loses WalConfig.new 16 { lsn := 8, data := [] })) = some true := by
    decide +kernel
  rw [hrun, Option.map_some, Option.some.injEq, Prod.mk.injEq] at hcall
  rw [hrun, Option.bind_some] at hloses
  obtain ⟨s₂, hrun2, hloses⟩ := Option.map_eq_some_iff.mp hloses
  exact ⟨open_emptyWal, s₀, _, s₂, hrun, hquiet, of_decide_eq_true hcall.1,
    Act.eq_ok_of_toBool hcall.2, hrun2, (of_decide_eq_true hloses).not_keeps rfl⟩

/-- The LSNs of records that a truncation behind `lsn`, made in state `s`, is not
asked to drop: those up to `lsn`, and those not reserved yet. -/
def Sys.spared (s : Sys) (lsn r : Nat) : Bool := decide (r ≤ lsn) || decide (s.wal.tail ≤ r)

/-- In every state of a clean run: if a truncation fails, and does not fail
with the store changed, then every sync that returns success afterwards keeps its
word for the records that the truncation was not asked to drop. -/
theorem failed_truncate_after_keeps_promises (config : WalConfig) (store : HeadStore)
    (wal : Wal HeadStore) (hopen : Wal.withStoreAndConfig config store = (.ok wal, wal.store))
    (ops : List Op) (hclean : Along Sys.perform Sys.Clean (Sys.opened wal) ops) (s : Sys)
    (hrun : run Sys.perform (Sys.opened wal) ops = some s)
    (lsn : Nat) (faults : List Outcome) (hleaves : LeavesStore faults) (e : Fault) (s₁ : Sys)
    (hfail : s.truncateAfter lsn faults = (.error e, s₁)) (acts : List Action)
    (hfits : Along Sys.step (fun s a => s.reserved + Sys.room a < 2 ^ 64) s₁ acts) (s₂ : Sys)
    (hlater : run Sys.step s₁ acts = some s₂) : s₂.Keeps config (s.spared lsn) := by
  have hsound : Sys.Sound wal s :=
    run_along (fun _ _ _ h hok hop => h.perform hok hop) (Sys.opened_sound hopen) hclean hrun
  have hs₁ : Sys.Sound wal s₁ := by
    rcases Sys.truncateAfter_cases s lsn hleaves with ⟨e', heq⟩ | ⟨p, -, heq⟩ <;> rw [hfail] at heq
    · cases heq
      exact ⟨hsound.toInv.truncate_failed [], hsound.fits_u64, hsound.head_eq, hsound.max_eq⟩
    · cases heq
  have hs₂ : Sys.Sound wal s₂ :=
    run_along (fun _ _ _ h hfit hstep => h.step hfit hstep) hs₁ hfits hlater
  exact hs₂.keeps hopen _

/-- Two records.  The `truncate` of the store fails, and a sync returns success. -/
theorem failed_truncate_after_keeps_promises_pair :
    ∃ e s₁ s₂, (Sys.opened pairWal).truncateAfter 0 [.ok, .ok, .fails] = (.error e, s₁) ∧
      run Sys.step s₁ [.sync 0, .enter 0] = some s₂ ∧
      s₂.Keeps WalConfig.new ((Sys.opened pairWal).spared 0) := by
  obtain ⟨e, hfail⟩ := @Act.eq_error_of_toBool _ _ _
    ((Sys.opened pairWal).truncateAfter 0 [.ok, .ok, .fails]) (by decide +kernel)
  have hsome : (run Sys.step ((Sys.opened pairWal).truncateAfter 0 [.ok, .ok, .fails]).2
      [.sync 0, .enter 0]).isSome = true := by decide +kernel
  have hfit : ((Sys.opened pairWal).truncateAfter 0 [.ok, .ok, .fails]).2.reserved < 2 ^ 64 := by
    decide +kernel
  generalize ((Sys.opened pairWal).truncateAfter 0 [.ok, .ok, .fails]).2 = s₁ at *
  obtain ⟨s₂, hlater⟩ := Option.isSome_iff_exists.mp hsome
  refine ⟨e, s₁, s₂, hfail, hlater, ?_⟩
  exact failed_truncate_after_keeps_promises WalConfig.new _ _ open_pairWal [] trivial _ rfl 0
    [.ok, .ok, .fails] ⟨nofun, rfl⟩ e s₁ hfail [.sync 0, .enter 0]
    ⟨hfit, fun s h => ⟨Nat.lt_of_le_of_lt (Sys.step_sameLog h).reserved_le hfit,
      fun _ _ => trivial⟩⟩ s₂ hlater

/-- Two records.  A truncation behind the first cuts the store, and its flush fails.
The next append leaves a hole of eight bytes where the second record was, the next
sync flushes and returns success, and the appended record cannot be recovered. -/
theorem failed_truncate_after_breaks_promises :
    Wal.withStoreAndConfig WalConfig.new pairWal.store = (.ok pairWal, pairWal.store) ∧
      ∃ e s₁ s₂,
        (Sys.opened pairWal).truncateAfter 0 [.ok, .ok, .ok, .fails] = (.error e, s₁) ∧
        run Sys.step s₁
          [.append 0 [] false, .land 0 8, .wrote 0 true, .mark 0,
            .sync 0, .enter 0, .flush 0 true (fun _ => false), .relock 0] = some s₂ ∧
        ¬ s₂.Keeps WalConfig.new ((Sys.opened pairWal).spared 0) := by
  obtain ⟨e, hfail⟩ := @Act.eq_error_of_toBool _ _ _
    ((Sys.opened pairWal).truncateAfter 0 [.ok, .ok, .ok, .fails]) (by decide +kernel)
  have hloses : (run Sys.step ((Sys.opened pairWal).truncateAfter 0 [.ok, .ok, .ok, .fails]).2
      [.append 0 [] false, .land 0 8, .wrote 0 true, .mark 0,
        .sync 0, .enter 0, .flush 0 true (fun _ => false), .relock 0]).map (fun s =>
      decide (s.Loses WalConfig.new 24 { lsn := 16, data := [] })) = some true := by
    decide +kernel
  obtain ⟨s₂, hlater, hloses⟩ := Option.map_eq_some_iff.mp hloses
  exact ⟨open_pairWal, e, _, s₂, hfail, hlater, (of_decide_eq_true hloses).not_keeps rfl⟩

end WalDb
