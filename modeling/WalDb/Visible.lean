/-
What the iterators of a log see, from one to the next.

An append that has returned is not visible at once: as long as an append before it is still
writing, the watermark stays below both.  So the log is not what a lock around every call
would give.  What does hold is that the iterators agree on one log that only grows.  Each one
sees at least what those before it saw, every record that a sync has acknowledged, and every
record that no unfinished or failed append lies before.
-/
import WalDb.Coordinator
import WalDb.Snapshot

namespace WalDb

open Lib Record

/-- Of two initial parts of one log, the one that reaches further has the records of the
other. -/
theorem located_filter_mono {off limit limit' : Nat} {log log' qs qs' : List (List UInt8)}
    (hlog : log <+: log') (hle : limit ≤ limit') (hqs : qs <+: log) (hqs' : qs' <+: log')
    (h : (located off log).filter (fun r => decide (r.1 + framedLen r.2.length ≤ limit)) =
      located off qs)
    (h' : (located off log').filter (fun r => decide (r.1 + framedLen r.2.length ≤ limit')) =
      located off qs') : qs <+: qs' := by
  rcases List.prefix_or_prefix_of_prefix (hqs.trans hlog) hqs' with hpre | ⟨rest, hrest⟩
  · exact hpre
  · cases rest with
    | nil =>
        rw [List.append_nil] at hrest
        rw [hrest]
    | cons p rest =>
        -- The first record past `qs'` ends below the first limit, so it is in `qs'` as well.
        have hmem : (off + (frames qs').length, p) ∈ located off qs := by
          rw [← hrest, located_append]
          exact List.mem_append_right _ List.mem_cons_self
        have hbelow := (mem_of_located_filter h _).mp hmem
        have hin : (off + (frames qs').length, p) ∈ located off qs' :=
          (mem_of_located_filter h' _).mpr
            ⟨(located_initial hlog).subset hbelow.1, Nat.le_trans hbelow.2 hle⟩
        have hbounds := (mem_located_bounds hin).2
        have hpos := framedLen_pos p.length
        dsimp only at hbounds
        omega

namespace Sys

variable {s s' : Sys}

theorem Grows.recordsBelow_mono (h : Grows s s') {limit limit' : Nat} (hle : limit ≤ limit') :
    s.recordsBelow limit <+: s'.recordsBelow limit' := by
  obtain ⟨qs, hqs, hfilter⟩ := located_filter s.wal.head limit s.log
  obtain ⟨qs', hqs', hfilter'⟩ := located_filter s.wal.head limit' s'.log
  have hpre := located_filter_mono h.log hle hqs hqs' hfilter hfilter'
  show List.map _ ((located s.wal.head s.log).filter _) <+:
    List.map _ ((located s'.wal.head s'.log).filter _)
  rw [h.head_eq, hfilter, hfilter']
  exact (located_initial hpre).map _

/-- The watermark is as high as it can be. -/
theorem Inv.le_committed (h : Inv s) {n : Nat} (hn : n ≤ s.wal.tail)
    (hw : ∀ r ∈ s.records, r.1 < n → s.status r.1 = .written) : n ≤ s.wal.commit.committed := by
  by_contra hlt
  obtain ⟨q, hq, hlo⟩ := (ranges_tiles h).exists_lo h.tracks.boundary
    (show s.wal.commit.committed < s.wal.tail by omega)
  obtain ⟨r, hr, hrlo, -⟩ := exists_of_mem_spans hq
  refine h.tracks.not_written hq hlo ?_
  rw [hrlo]
  exact hw r hr (by omega)

theorem Grows.tail_le (h : Grows s s') (hs : Inv s) (hs' : Inv s') : s.wal.tail ≤ s'.wal.tail := by
  obtain ⟨rest, hrest⟩ := h.log
  rw [hs.tail_eq, hs'.tail_eq, h.head_eq, ← hrest, frames_append, List.length_append]
  omega

/-- A record below the old tail was there already. -/
theorem Grows.old_of_lt (h : Grows s s') (hs : Inv s) {r : Nat × List UInt8} (hr : r ∈ s'.records)
    (hlt : r.1 < s.wal.tail) : r ∈ s.records := by
  obtain ⟨rest, hrest⟩ := h.log
  have hr : r ∈ located s'.wal.head s'.log := hr
  rw [← hrest, located_append, h.head_eq, ← hs.tail_eq] at hr
  rcases List.mem_append.mp hr with hr | hr
  · exact hr
  · have hge := (mem_located_bounds hr).1
    omega

theorem Grows.committed_le (h : Grows s s') (hs : Inv s) (hs' : Inv s') :
    s.wal.commit.committed ≤ s'.wal.commit.committed := by
  have hle := hs.tracks.committed_le_end (ranges_tiles hs)
  have htail := h.tail_le hs hs'
  refine hs'.le_committed (by omega) fun r hr hlt => ?_
  have hold := h.old_of_lt hs hr (by omega)
  exact h.written r hold (hs.tracks.below _ (mem_spans hold) hlt)

end Sys

namespace Traced

variable {wal : Wal HeadStore} {u u' : Traced}

/-- An append that has returned Ok has written its record. -/
def Answered (u : Traced) : Prop :=
  ∀ a, .returned a true ∈ u.events → u.sys.status a = .written ∧ ∃ p, (a, p) ∈ u.sys.records

theorem Answered.step (h : Answered u) (hinv : Sys.Inv u.sys) {a : Action}
    (hstep : u.step a = some u') : Answered u' := by
  obtain ⟨s', hs, rfl⟩ := Option.map_eq_some_iff.mp hstep
  have hgrows := hinv.step_grows hs
  have hold : ∀ lsn, .returned lsn true ∈ u.events →
      s'.status lsn = .written ∧ ∃ p, (lsn, p) ∈ s'.records := by
    intro lsn hmem
    obtain ⟨hw, p, hp⟩ := h lsn hmem
    exact ⟨hgrows.written _ hp hw, p, hgrows.records hp⟩
  have hmove := Sys.step_moves hs
  intro lsn hmem
  rcases List.mem_append.mp hmem with hmem | hmem
  · exact hold lsn hmem
  · generalize u.sys.observe a = es at hmove hmem
    cases hmove with
    | reserve t record ts fits eq => cases List.mem_singleton.mp hmem
    | settle t start ok owns log_eq tail_eq status_eq =>
        cases List.mem_singleton.mp hmem
        obtain ⟨-, p, hp⟩ := hinv.owned_inflight owns
        refine ⟨?_, p, hgrows.records hp⟩
        rw [status_eq, Commit.setStatus_self]
        rfl
    | quiet same => cases hmem

/-- What a run adds to. -/
structure Follows (wal : Wal HeadStore) (u u' : Traced) : Prop where
  sound : Sound wal u'
  answered : Answered u'
  grows : Sys.Grows u.sys u'.sys

theorem run_follows (h : Sound wal u) (ha : Answered u)
    (hwal : wal.tail = wal.head + (frames (Sys.opened wal).log).length) {acts : List Action}
    (hrun : run step u acts = some u') (hres : u'.sys.reserved < 2 ^ 64) : Follows wal u u' := by
  have hkeep : ∀ v a v', (v.sys.reserved < 2 ^ 64 → Follows wal u v) → v.step a = some v' →
      v'.sys.reserved < 2 ^ 64 → Follows wal u v' := by
    intro v a v' hv hstep hlt
    obtain ⟨s', hs, heq⟩ := Option.map_eq_some_iff.mp hstep
    have hle : v.sys.reserved ≤ v'.sys.reserved := by
      rw [← heq]
      exact (Sys.step_sameLog hs).reserved_ge
    have hv := hv (Nat.lt_of_le_of_lt hle hlt)
    refine ⟨hv.sound.step hwal hstep hlt, hv.answered.step hv.sound.toInv hstep, ?_⟩
    rw [← heq]
    exact hv.grows.trans (hv.sound.toInv.step_grows hs)
  exact run_invariant hkeep (fun _ => ⟨h, ha, .refl u.sys⟩) hrun hres

theorem mem_reservations {r : Nat × List UInt8} :
    r ∈ u.reservations ↔ .called r.1 r.2 ∈ u.events := by
  unfold reservations
  rw [List.mem_filterMap]
  constructor
  · rintro ⟨e, he, heq⟩
    cases e with
    | called lsn record =>
        cases heq
        exact he
    | returned a ok => cases heq
  · intro he
    exact ⟨_, he, rfl⟩

theorem Sound.records_eq (h : Sound wal u)
    (hwal : wal.tail = wal.head + (frames (Sys.opened wal).log).length) :
    u.sys.records = (Sys.opened wal).records ++ u.reservations := by
  show located u.sys.wal.head u.sys.log = located wal.head (Sys.opened wal).log ++ _
  rw [h.head_eq, h.log_eq, located_append, ← hwal, ← h.placed]

/-- An append that has returned Ok, and all before it with it, is below the watermark. -/
theorem Follows.visible (h : Follows wal (opened wal) u)
    (hwal : wal.tail = wal.head + (frames (Sys.opened wal).log).length) {lsn : Nat}
    {record : List UInt8} (hcalled : .called lsn record ∈ u.events)
    (hbefore : ∀ a p, .called a p ∈ u.events → a ≤ lsn → .returned a true ∈ u.events) :
    ⟨lsn, record⟩ ∈ u.sys.recordsBelow u.sys.wal.commit.committed := by
  have hrecords := h.sound.records_eq hwal
  have hmem : (lsn, record) ∈ u.sys.records := by
    rw [hrecords]
    exact List.mem_append_right _ (mem_reservations.mpr hcalled)
  have htile := Sys.ranges_tiles h.sound.toInv
  have hend := (h.sound.toInv.record_bounds hmem).2
  have hle : lsn + framedLen record.length ≤ u.sys.wal.commit.committed := by
    refine h.sound.toInv.le_committed hend fun r hr hlt => ?_
    have hr' := hr
    rw [hrecords] at hr'
    rcases List.mem_append.mp hr' with hold | hnew
    · exact h.grows.written r hold rfl
    · -- A record that starts before this one ends was reserved before it.
      have hlsn : r.1 ≤ lsn := by
        by_contra hgt
        have := htile.hi_le_of_lo_lt (mem_spans hmem) (mem_spans hr) (Nat.not_le.mp hgt)
        dsimp only at this
        omega
      exact (h.answered r.1 (hbefore r.1 r.2 (mem_reservations.mp hnew) hlsn)).1
  exact List.mem_map.mpr ⟨(lsn, record), List.mem_filter.mpr ⟨hmem, decide_eq_true hle⟩, rfl⟩

end Traced

/-- The iterators of a log see one log that grows.  In every run of any threads over an opened
log, with any writes and flushes failing, take an iterator that is created at some point and
one that is created later, each driven to its end while the threads go on in any way:

* both end without an error, and the first yields an initial part of what the second does;
* the first yields every record that a sync had acknowledged by then;
* it yields every record whose append had returned Ok by then, together with all appends that
  had reserved before it. -/
theorem iterators_see_growing_log (config : WalConfig) (store : HeadStore) (wal : Wal HeadStore)
    (hopen : Wal.withStoreAndConfig config store = (.ok wal, wal.store)) (acts acts' : List Action)
    (u u' : Traced) (hrun : run Traced.step (Traced.opened wal) acts = some u)
    (hrun' : run Traced.step u acts' = some u') (schedule schedule' : List (List Action))
    (hfits : (u.sys.actAll schedule.flatten).reserved < 2 ^ 64)
    (hfits' : (u'.sys.actAll schedule'.flatten).reserved < 2 ^ 64) :
    ∃ seen seen' : List Wal.Record,
      (u.sys.wal.iter.collect (u.sys.beside schedule)).1 = .ok (seen.map .ok) ∧
      (u'.sys.wal.iter.collect (u'.sys.beside schedule')).1 = .ok (seen'.map .ok) ∧
      seen <+: seen' ∧
      (∀ T ∈ u.sys.acks, u.recordsBelow wal T <+: seen) ∧
      ∀ lsn record, .called lsn record ∈ u.events →
        (∀ a p, .called a p ∈ u.events → a ≤ lsn → .returned a true ∈ u.events) →
        ⟨lsn, record⟩ ∈ seen := by
  have hstart := Traced.opened_sound hopen
  have hwal : wal.tail = wal.head + (frames (Sys.opened wal).log).length := hstart.tail_eq
  have hres' : u'.sys.reserved < 2 ^ 64 :=
    Nat.lt_of_le_of_lt (Sys.reserved_le_actAll u'.sys schedule'.flatten) hfits'
  have hres : u.sys.reserved < 2 ^ 64 :=
    Nat.lt_of_le_of_lt (Sys.reserved_le_actAll u.sys schedule.flatten) hfits
  have h := Traced.run_follows hstart (fun a ha => absurd ha List.not_mem_nil) hwal hrun hres
  have h' := Traced.run_follows h.sound h.answered hwal hrun' hres'
  have hinv := h.sound.toInv
  have hinv' := h'.sound.toInv
  refine ⟨u.sys.recordsBelow u.sys.wal.commit.committed,
    u'.sys.recordsBelow u'.sys.wal.commit.committed, hinv.iterates hfits, hinv'.iterates hfits',
    h'.grows.recordsBelow_mono (h'.grows.committed_le hinv hinv'), fun T hT => ?_,
    fun lsn record hcalled hbefore => h.visible hwal hcalled hbefore⟩
  rw [← h.sound.recordsBelow_eq hwal]
  exact (Sys.Grows.refl u.sys).recordsBelow_mono
    (Nat.le_trans (hinv.acks T hT) hinv.tracks.durable_le)

/-- Of three appends the second returns first, then the first one, and the sync of the second
is acknowledged while the third is still writing. -/
theorem iterators_see_growing_log_out_of_order :
    ∃ u u', run Traced.step (Traced.opened emptyWal)
        [.append 0 [1] false, .append 1 [2] true, .append 2 [3] false, .land 1 9, .wrote 1 true,
          .mark 1, .land 0 9, .wrote 0 true, .mark 0, .enter 1, .flush 1 true (fun _ => false),
          .relock 1] = some u ∧ 18 ∈ u.sys.acks ∧
      run Traced.step u [.land 2 9, .wrote 2 true, .mark 2] = some u' ∧
      ∃ seen seen' : List Wal.Record,
        (u.sys.wal.iter.collect (u.sys.beside [[.land 2 4]])).1 = .ok (seen.map .ok) ∧
        (u'.sys.wal.iter.collect (u'.sys.beside [])).1 = .ok (seen'.map .ok) ∧ seen <+: seen' ∧
        u.recordsBelow emptyWal 18 <+: seen ∧ ⟨0, [1]⟩ ∈ seen ∧ ⟨9, [2]⟩ ∈ seen := by
  have heval : ((run Traced.step (Traced.opened emptyWal)
      [.append 0 [1] false, .append 1 [2] true, .append 2 [3] false, .land 1 9, .wrote 1 true,
        .mark 1, .land 0 9, .wrote 0 true, .mark 0, .enter 1, .flush 1 true (fun _ => false),
        .relock 1]).bind fun u => (run Traced.step u [.land 2 9, .wrote 2 true, .mark 2]).map
          fun u' => (u.sys.acks, u.events, (u.sys.actAll [.land 2 4]).reserved, u'.sys.reserved)) =
      some ([18], [.called 0 [1], .called 9 [2], .called 18 [3], .returned 9 true,
        .returned 0 true], 27, 27) := by
    decide +kernel
  obtain ⟨u, hrun, heval⟩ := Option.bind_eq_some_iff.mp heval
  obtain ⟨u', hrun', hu⟩ := Option.map_eq_some_iff.mp heval
  simp only [Prod.mk.injEq] at hu
  obtain ⟨hacks, hevents, hreserved, hreserved'⟩ := hu
  have hack : 18 ∈ u.sys.acks := by
    rw [hacks]
    exact List.mem_singleton_self 18
  have hbefore : ∀ lsn ≤ 9, ∀ a p, .called a p ∈ u.events → a ≤ lsn → .returned a true ∈ u.events := by
    intro lsn hlsn a p hcalled hle
    rw [hevents] at hcalled ⊢
    simp only [List.mem_cons, List.not_mem_nil, Event.called.injEq, or_false, reduceCtorEq] at hcalled
    rcases hcalled with ⟨rfl, -⟩ | ⟨rfl, -⟩ | ⟨rfl, -⟩
    · decide
    · decide
    · omega
  obtain ⟨seen, seen', hseen, hseen', hpre, hacked, hvisible⟩ := iterators_see_growing_log
    WalConfig.new _ emptyWal open_emptyWal _ _ u u' hrun hrun' [[.land 2 4]] []
    (by exact hreserved.trans_lt (by decide)) (by exact hreserved'.trans_lt (by decide))
  refine ⟨u, u', hrun, hack, hrun', seen, seen', hseen, hseen', hpre, hacked 18 hack, ?_, ?_⟩
  · exact hvisible 0 [1] (by rw [hevents]; decide) (hbefore 0 (by decide))
  · exact hvisible 9 [2] (by rw [hevents]; decide) (hbefore 9 (by decide))

end WalDb
