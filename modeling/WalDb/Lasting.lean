/-
A log over files that lose power.

The results about threads and crashes (`Crash`, `Lifetime`) are about any store that keeps
its contract.  Here it is asked what the shipped stores on files have to keep for them to be
such a store.  `Lasting` names what matters: which bytes would survive a power loss, and what
the next process may find.  `LawfulLasting` says what the calls do to that, failed calls
included, and the log is shown to lose nothing that a sync has vouched for, over any
number of sessions.

A session ends with the power.  Where a process ends otherwise and the next one reads what
was never flushed, less holds (`Restart`), and so it does where a log is truncated before
it has been flushed (`Segment.Durable`).
-/
import WalDb.Lib.Ends
import WalDb.Sequential
import WalDb.Strict.Open

namespace WalDb

open Lib Record

/-- A store on files, as far as a power loss is concerned. -/
class Lasting (S : Type) [WalStore S] where
  /-- The byte at each offset. -/
  image : S → Image UInt8
  /-- The length that the store reports. -/
  length : S → Nat
  /-- The byte at this offset would survive a power loss. -/
  Stable : S → Nat → Prop
  /-- The parts of the store are in order, and its next flush reaches every byte. -/
  Orderly : S → Prop
  /-- The store with the outcomes that its next system calls have. -/
  setFaults : List Bool → S → S
  /-- No system call fails. -/
  Calm : S → Prop
  /-- The store as a process finds it when everything there is on the disk. -/
  Fresh : S → Prop
  /-- The second store is what the next process may find when the first loses power. -/
  Loss : S → S → Prop

namespace Lasting

/-- The store is still in order, and has lost no byte below `n` and no stable one. -/
structure Keeps {S : Type} [WalStore S] [Lasting S] (n : Nat) (s s' : S) : Prop where
  orderly : Orderly s'
  kept : ∀ o b, o < n → image s o = some b → image s' o = some b
  stable : ∀ o, o < n → Stable s o → Stable s' o

end Lasting

open Lasting

/-- What the calls of a store do to it. -/
class LawfulLasting (S : Type) [WalStore S] [Lasting S] : Prop where
  keeps_setFaults : ∀ {s : S} (faults : List Bool) (n : Nat), Orderly s →
    Keeps n s (setFaults faults s) ∧ length (setFaults faults s) = length s
  calm_setFaults : ∀ s : S, Calm (setFaults [] s)
  image_past : ∀ (s : S) {o : Nat}, 2 ^ 64 - 1 ≤ o → image s o = none
  reads : ∀ {s : S}, Orderly s → Calm s →
    ∃ (reach : Nat → Nat → Prop) (P : S → Prop), Probes reach (image s) P ∧ P s
  /-- A write past the length, whether it succeeds or fails. -/
  writeAt : ∀ {s : S} {off : Nat} {bytes : List UInt8}, Orderly s → length s ≤ off →
    0 < bytes.length → off + bytes.length < 2 ^ 64 →
    (WalStore.writeAt off bytes).Ends s
      (fun _ s' => Keeps off s s' ∧ length s' = off + bytes.length ∧
        ∀ k < bytes.length, image s' (off + k) = bytes[k]?)
      fun _ s' => Keeps off s s' ∧ length s' = length s
  /-- A flush that succeeds makes every byte stable. -/
  sync : ∀ {s : S} (n : Nat), Orderly s →
    (WalStore.sync : Act S Fault Unit).Ends s
      (fun _ s' => Keeps n s s' ∧ length s' = length s ∧
        ∀ o b, o < length s → image s o = some b → Stable s' o)
      fun _ s' => Keeps n s s' ∧ length s' = length s
  /-- A truncation may come before anything has been written. -/
  truncate : ∀ {s s' : S} {len : Nat}, Orderly s → Calm s → len ≤ length s →
    (∀ o b, image s o = some b → Stable s o) → WalStore.truncate len s = (.ok (), s') →
    Keeps len s s' ∧ length s' = len
  /-- A store that is found has all its bytes on the disk, and reading it changes nothing. -/
  fresh : ∀ {s : S}, Fresh s → WalStore.head s = (.ok 0, s) ∧
    ∃ (reach : Nat → Nat → Prop) (P : S → Prop), Sight reach (image s) (length s) P ∧ P s ∧
      ∀ t, P t → Orderly t ∧ Calm t ∧ length t = length s ∧ image t = image s ∧
        ∀ o b, image s o = some b → Stable t o
  loss : ∀ {s s' : S}, Loss s s' → Fresh s' ∧
    ∀ o b, image s o = some b → Stable s o → image s' o = some b

theorem Lasting.Keeps.trans {S : Type} [WalStore S] [Lasting S] {n : Nat} {s s1 s2 : S}
    (h : Keeps n s s1) (h' : Keeps n s1 s2) : Keeps n s s2 where
  orderly := h'.orderly
  kept o b ho hb := h'.kept o b ho (h.kept o b ho hb)
  stable o ho hs := h'.stable o ho (h.stable o ho hs)

theorem Commit.markWritten_settled {st : Commit.State} {start endAt : Nat}
    (hstart : start = st.committed) (hpending : st.pending = ∅) :
    (Commit.markWritten st start endAt).1 = { st with committed := endAt } := by
  unfold Commit.markWritten Commit.insertRegion
  rw [if_pos hstart]
  refine Commit.drain_none ?_
  rw [hpending]
  rfl

/-! ## Calls -/

/-- The calls that write. -/
inductive Deed where
  | append (record : List UInt8)
  | appendAndSync (record : List UInt8)
  | sync

namespace Deed

/-- The offsets that the call reserves. -/
def room : Deed → Nat
  | .append record | .appendAndSync record => framedLen record.length
  | .sync => 0

/-- Whether success means that everything is on the disk. -/
def syncs : Deed → Bool
  | .append _ => false
  | .appendAndSync _ | .sync => true

end Deed

namespace Wal

section Calls

variable {S : Type} [WalStore S]

def does : Deed → Act (Wal S) Fault Unit
  | .append record => do
      let _ ← append record
      pure ()
  | .appendAndSync record => do
      let _ ← appendAndSync record
      pure ()
  | .sync => sync

variable [Lasting S]

/-- The log, with the outcomes that the next system calls of its store have. -/
def underFaults (wal : Wal S) (faults : List Bool) : Wal S :=
  { wal with store := Lasting.setFaults faults wal.store }

/-- What an iterator over the whole log collects when no system call fails. -/
def contents (wal : Wal S) : Except Fault (List (Except WalError Record)) :=
  (wal.iter.collect (wal.underFaults [])).1

/-- What can become of a log: a call, in which any system calls may fail, or a power loss
and the open of what it leaves.  A reopen may not lower the limit on the record size. -/
inductive Later : Wal S → Wal S → Prop
  | refl (wal : Wal S) : Later wal wal
  | call {wal u : Wal S} (h : Later wal u) (faults : List Bool) (d : Deed)
      (hroom : u.tail + d.room < 2 ^ 64) : Later wal (does d (u.underFaults faults)).2
  | powerLoss {wal u v : Wal S} {s t : S} (h : Later wal u) (hloss : Loss u.store s)
      (config : WalConfig) (hmax : u.maxRecordSize ≤ config.maxRecordSize)
      (hopen : withStoreAndConfig config s = (.ok v, t)) : Later wal v

/-- The payloads `ps` are what has been written up to the watermark, and what lies below the
durable one is stable.  Past the watermark lies a write that failed, unless the tail is
there. -/
structure Lasts (wal : Wal S) (ps : List (List UInt8)) : Prop where
  max_lt : wal.maxRecordSize < 2 ^ 32
  orderly : Orderly wal.store
  head_eq : wal.head = 0
  intact : Intact (image wal.store) wal.maxRecordSize 0 ps
  committed_eq : wal.commit.committed = (frames ps).length
  committed_le : wal.commit.committed ≤ length wal.store
  length_le : length wal.store ≤ wal.tail
  durable_le : wal.commit.durable ≤ wal.commit.committed
  stable : ∀ o < wal.commit.durable, Stable wal.store o
  gap : wal.commit.committed = wal.tail ∧ wal.commit.pending = ∅ ∨
    wal.commit.committed < wal.tail

/-- What a call leaves of a log. -/
structure Grows (wal : Wal S) (ps : List (List UInt8)) (wal' : Wal S) (ps' : List (List UInt8)) :
    Prop extends Lasts wal' ps' where
  initial : ps <+: ps'
  durable_ge : wal.commit.durable ≤ wal'.commit.durable
  max_eq : wal'.maxRecordSize = wal.maxRecordSize

variable {wal wal' : Wal S} {ps : List (List UInt8)}

theorem Lasts.grows (h : wal.Lasts ps) : Grows wal ps wal ps :=
  ⟨h, List.prefix_refl ps, Nat.le_refl _, rfl⟩

theorem Grows.trans {wal1 wal2 : Wal S} {ps1 ps2 : List (List UInt8)} (h : Grows wal ps wal1 ps1)
    (h' : Grows wal1 ps1 wal2 ps2) : Grows wal ps wal2 ps2 where
  toLasts := h'.toLasts
  initial := h.initial.trans h'.initial
  durable_ge := Nat.le_trans h.durable_ge h'.durable_ge
  max_eq := h'.max_eq.trans h.max_eq

/-- The log on a store that has kept what lies below the watermark, with as much of it
stable as `st` says. -/
theorem Lasts.onto (h : wal.Lasts ps) {s : S} {st : Commit.State}
    (hk : Keeps (length wal.store) wal.store s) (hlen : length s = length wal.store)
    (hcommitted : st.committed = wal.commit.committed) (hpending : st.pending = wal.commit.pending)
    (hle : wal.commit.durable ≤ st.durable) (hdurable : st.durable ≤ st.committed)
    (hstable : ∀ o < st.durable, Stable s o) :
    Grows wal ps { wal with store := s, commit := st } ps := by
  have hcommit := h.committed_le
  refine ⟨⟨h.max_lt, hk.orderly, h.head_eq, h.intact.mono fun o b _ ho hb => ?_,
    hcommitted.trans h.committed_eq, ?_, ?_, hdurable, hstable, ?_⟩, List.prefix_refl ps, hle, rfl⟩
  · rw [Nat.zero_add, ← h.committed_eq] at ho
    exact hk.kept o b (Nat.lt_of_lt_of_le ho hcommit) hb
  · rw [hlen, hcommitted]
    exact hcommit
  · rw [hlen]
    exact h.length_le
  · rw [hcommitted, hpending]
    exact h.gap

/-- The watermarks are as they were. -/
theorem Lasts.store (h : wal.Lasts ps) {s : S} (hk : Keeps (length wal.store) wal.store s)
    (hlen : length s = length wal.store) {st : Commit.State}
    (hcommitted : st.committed = wal.commit.committed) (hpending : st.pending = wal.commit.pending)
    (hdurable : st.durable = wal.commit.durable) :
    Grows wal ps { wal with store := s, commit := st } ps := by
  have hle := h.durable_le
  have hcommit := h.committed_le
  refine h.onto hk hlen hcommitted hpending (Nat.le_of_eq hdurable.symm) (by omega) fun o ho => ?_
  rw [hdurable] at ho
  exact hk.stable o (by omega) (h.stable o ho)

/-- A frame has been written at the tail.  If everything before it is there, the watermark
moves to its end; otherwise the range waits behind the gap. -/
theorem Lasts.written (h : wal.Lasts ps) {record : List UInt8}
    (hlong : record.length ≤ wal.maxRecordSize) {s : S} (hk : Keeps wal.tail wal.store s)
    (hlen : length s = wal.tail + framedLen record.length)
    (hbytes : ∀ k < (frame record).length, image s (wal.tail + k) = (frame record)[k]?) :
    ∃ ps', Grows wal ps { wal with
      tail := wal.tail + framedLen record.length
      store := s
      commit := (Commit.markWritten wal.commit wal.tail
        (wal.tail + framedLen record.length)).1 } ps' := by
  have hcommit := h.committed_le
  have hlength := h.length_le
  have hdurable := h.durable_le
  have hend := h.committed_eq
  have hkeep : ∀ o b, 0 ≤ o → o < 0 + (frames ps).length → image wal.store o = some b →
      image s o = some b := fun o b _ ho hb => hk.kept o b (by omega) hb
  have hstable : ∀ o < wal.commit.durable, Stable s o := fun o ho =>
    hk.stable o (by omega) (h.stable o ho)
  rcases h.gap with ⟨htail, hpending⟩ | hgap
  · rw [Commit.markWritten_settled htail.symm hpending]
    refine ⟨ps ++ [record], ⟨h.max_lt, hk.orderly, h.head_eq, h.intact.snoc hlong hkeep ?_, ?_, ?_,
      Nat.le_of_eq hlen, ?_, hstable, Or.inl ⟨rfl, hpending⟩⟩, List.prefix_append _ _,
      Nat.le_refl _, rfl⟩
    · rw [Nat.zero_add, ← hend, htail]
      exact hbytes
    · show wal.tail + framedLen record.length = _
      rw [frames_append, List.length_append, ← hend, htail]
      simp
    · exact Nat.le_of_eq hlen.symm
    · show wal.commit.durable ≤ wal.tail + framedLen record.length
      omega
  · have hst : (Commit.markWritten wal.commit wal.tail (wal.tail + framedLen record.length)).1 =
        { wal.commit with pending :=
            wal.commit.pending.insert wal.tail (wal.tail + framedLen record.length) } := by
      unfold Commit.markWritten Commit.insertRegion
      rw [if_neg (Nat.ne_of_gt hgap)]
    rw [hst]
    refine ⟨ps, ⟨h.max_lt, hk.orderly, h.head_eq, h.intact.mono hkeep, hend, ?_,
      Nat.le_of_eq hlen, hdurable, hstable, Or.inr (Nat.lt_of_lt_of_le hgap (Nat.le_add_right _ _))⟩,
      List.prefix_refl ps, Nat.le_refl _, rfl⟩
    show wal.commit.committed ≤ length s
    omega

/-- A write at the tail has failed.  The range it had reserved stays as a gap. -/
theorem Lasts.unwritten (h : wal.Lasts ps) (record : List UInt8) {s : S}
    (hk : Keeps wal.tail wal.store s) (hlen : length s = length wal.store)
    (poison : Option Nat) :
    Grows wal ps { wal with
      tail := wal.tail + framedLen record.length
      store := s
      commit := { wal.commit with poison := poison } } ps := by
  have hcommit := h.committed_le
  have hlength := h.length_le
  have hdurable := h.durable_le
  have hend := h.committed_eq
  have hpos := framedLen_pos record.length
  refine ⟨⟨h.max_lt, hk.orderly, h.head_eq, h.intact.mono fun o b _ ho hb => ?_, hend, ?_, ?_,
    hdurable, fun o ho => ?_, Or.inr ?_⟩, List.prefix_refl ps, Nat.le_refl _, rfl⟩
  · exact hk.kept o b (by omega) hb
  · show wal.commit.committed ≤ length s
    omega
  · show length s ≤ wal.tail + framedLen record.length
    omega
  · have ho : o < wal.commit.durable := ho
    exact hk.stable o (by omega) (h.stable o ho)
  · show wal.commit.committed < wal.tail + framedLen record.length
    omega

variable [LawfulLasting S]

theorem Lasts.underFaults (h : wal.Lasts ps) (faults : List Bool) :
    Grows wal ps (wal.underFaults faults) ps := by
  obtain ⟨hk, hlen⟩ := LawfulLasting.keeps_setFaults faults (length wal.store) h.orderly
  exact h.store hk hlen rfl rfl rfl

/-- An append adds a record, or leaves a gap that no watermark passes. -/
theorem Lasts.append (h : wal.Lasts ps) (record : List UInt8)
    (hroom : wal.tail + framedLen record.length < 2 ^ 64) :
    (Wal.append record).Ends wal
      (fun lsn wal' => (∃ ps', Grows wal ps wal' ps') ∧ wal'.tail = lsn + framedLen record.length)
      fun _ wal' => ∃ ps', Grows wal ps wal' ps' := by
  by_cases hlong : wal.maxRecordSize < record.length
  · exact Act.ends_of_error (append_tooLarge hlong) ⟨ps, h.grows⟩
  have hpos := framedLen_pos record.length
  have hframe : (frame record).length = framedLen record.length := frame_length record
  have hwrite := @LawfulLasting.writeAt S _ _ _ wal.store wal.tail (frame record) h.orderly
    h.length_le (by omega) (by omega)
  rw [Act.Ends, Wal.append, Act.get_bind, if_neg hlong]
  simp only [checkedAdd_of_lt hroom]
  rw [Act.modify_bind, Act.attempt_bind, Nat.mod_eq_of_lt hroom]
  rcases hwrite.cases with ⟨u, s, hrun, hk, hlen, hbytes⟩ | ⟨e, s, hrun, hk, hlen⟩
  · rw [onStore_ok (by exact hrun)]
    exact ⟨h.written (Nat.not_lt.mp hlong) hk (hlen.trans (by rw [hframe])) hbytes, rfl⟩
  · rw [onStore_error (by exact hrun)]
    cases e with
    | err e => exact ⟨ps, h.unwritten record hk hlen _⟩
    | panics _ => exact ⟨ps, h.unwritten record hk hlen wal.commit.poison⟩
    | blocked => exact ⟨ps, h.unwritten record hk hlen wal.commit.poison⟩

/-- A flush that succeeds makes everything below the watermark stable. -/
theorem Lasts.flush (h : wal.Lasts ps) :
    (WalStore.sync : Act S Fault Unit).Ends wal.store
      (fun _ s => Grows wal ps
        { wal with store := s, commit := Commit.afterFlush wal.commit wal.commit.committed true } ps)
      fun _ s => ∀ st : Commit.State, st.committed = wal.commit.committed →
        st.pending = wal.commit.pending → st.durable = wal.commit.durable →
        Grows wal ps { wal with store := s, commit := st } ps := by
  have hdurable := h.durable_le
  have hcommit := h.committed_le
  refine (LawfulLasting.sync (length wal.store) h.orderly).mono (fun _ s hs => ?_) fun _ s hs => ?_
  · obtain ⟨hk, hlen, hall⟩ := hs
    have hst : ∃ durable, Commit.afterFlush wal.commit wal.commit.committed true =
        { wal.commit with syncing := false, durable := durable } ∧
          wal.commit.durable ≤ durable ∧ durable ≤ wal.commit.committed := by
      unfold Commit.afterFlush
      rw [if_pos rfl]
      by_cases hlt : wal.commit.durable < wal.commit.committed
      · exact ⟨_, if_pos hlt, hdurable, Nat.le_refl _⟩
      · exact ⟨_, if_neg hlt, Nat.le_refl _, hdurable⟩
    obtain ⟨durable, hst, hge, hle⟩ := hst
    rw [hst]
    refine h.onto hk hlen rfl rfl hge hle fun o ho => ?_
    have ho : o < durable := ho
    have hlt : o < 0 + (frames ps).length := by
      rw [Nat.zero_add, ← h.committed_eq]
      omega
    obtain ⟨b, hb⟩ := h.intact.byte (Nat.zero_le o) hlt
    exact hall o b (by omega) hb
  · intro st hcommitted hpending hst
    exact h.store hs.1 hs.2 hcommitted hpending hst

/-- The loop of `sync_to`. -/
theorem Lasts.syncRounds (h : wal.Lasts ps) (rounds target : Nat) :
    (Wal.syncRounds rounds target).Ends wal
      (fun _ wal' => Grows wal ps wal' ps ∧ wal'.tail = wal.tail ∧ target ≤ wal'.commit.durable)
      fun _ wal' => Grows wal ps wal' ps := by
  induction rounds generalizing wal with
  | zero => exact Act.ends_fail h.grows
  | succ rounds ih =>
      refine Act.ends_get_bind ?_
      have hkeeps : Keeps (length wal.store) wal.store wal.store :=
        ⟨h.orderly, fun _ _ _ hb => hb, fun _ _ hs => hs⟩
      rcases Commit.syncCheck_cases wal.commit target with
        ⟨e, hcheck⟩ | ⟨hcheck, hle⟩ | ⟨hcheck, -, -, -⟩ | hcheck <;> rw [hcheck]
      · exact Act.ends_of_error rfl h.grows
      · exact Act.ends_of_ok rfl ⟨h.grows, rfl, hle⟩
      · have hlead : Grows wal ps { wal with
            store := wal.store, commit := { wal.commit with syncing := true } } ps :=
          h.store hkeeps rfl rfl rfl rfl
        refine Act.Ends.bind
          (Q := fun _ w => w = { wal with commit := { wal.commit with syncing := true } })
          (Act.ends_of_ok rfl rfl) fun _ w hw => ?_
        subst hw
        dsimp only
        rw [Act.Ends, Act.attempt_bind]
        rcases hlead.toLasts.flush.cases with ⟨u, s, hsync, hs⟩ | ⟨e, s, hsync, hs⟩
        · rw [onStore_ok (by exact hsync)]
          refine (ih hs.toLasts).mono (fun _ w hw => ?_) fun _ w hw => hlead.trans (hs.trans hw)
          exact ⟨hlead.trans (hs.trans hw.1), hw.2⟩
        · rw [onStore_error (by exact hsync)]
          cases e with
          | err e => exact hlead.trans (hs _ rfl rfl rfl)
          | panics _ => exact hlead.trans (hs _ rfl rfl rfl)
          | blocked => exact hlead.trans (hs _ rfl rfl rfl)
      · exact Act.ends_of_error rfl (h.store hkeeps rfl rfl rfl rfl)

theorem Lasts.sync (h : wal.Lasts ps) :
    Wal.sync.Ends wal (fun _ wal' => Grows wal ps wal' ps ∧ wal'.tail ≤ wal'.commit.durable)
      fun _ wal' => Grows wal ps wal' ps := by
  refine Act.ends_get_bind ?_
  by_cases hzero : wal.tail = 0
  · rw [if_pos hzero]
    exact Act.ends_pure ⟨h.grows, by omega⟩
  · rw [if_neg hzero]
    refine (h.syncRounds 2 wal.tail).mono (fun _ w hw => ⟨hw.1, ?_⟩) fun _ w hw => hw
    rw [hw.2.1]
    exact hw.2.2

theorem Lasts.appendAndSync (h : wal.Lasts ps) (record : List UInt8)
    (hroom : wal.tail + framedLen record.length < 2 ^ 64) :
    (Wal.appendAndSync record).Ends wal
      (fun _ wal' => (∃ ps', Grows wal ps wal' ps') ∧ wal'.tail ≤ wal'.commit.durable)
      fun _ wal' => ∃ ps', Grows wal ps wal' ps' := by
  refine (h.append record hroom).bind fun lsn w hw => ?_
  obtain ⟨⟨ps1, h1⟩, htail⟩ := hw
  rw [← htail]
  refine Act.Ends.bind ((h1.toLasts.syncRounds 2 w.tail).mono (fun _ w' hw' => hw')
    fun _ w' hw' => ⟨ps1, h1.trans hw'⟩) fun _ w' hw' => ?_
  refine Act.ends_pure ⟨⟨ps1, h1.trans hw'.1⟩, ?_⟩
  rw [hw'.2.1]
  exact hw'.2.2

/-- A call adds to the log at its end at most, and a sync that succeeds leaves nothing
behind. -/
theorem Lasts.does (h : wal.Lasts ps) (d : Deed) (hroom : wal.tail + d.room < 2 ^ 64) :
    (Wal.does d).Ends wal
      (fun _ wal' => (∃ ps', Grows wal ps wal' ps') ∧
        (d.syncs = true → wal'.tail ≤ wal'.commit.durable))
      fun _ wal' => ∃ ps', Grows wal ps wal' ps' := by
  cases d with
  | append record =>
      refine (h.append record hroom).bind fun lsn w hw => Act.ends_pure ⟨hw.1, ?_⟩
      intro hsyncs
      cases hsyncs
  | appendAndSync record =>
      exact (h.appendAndSync record hroom).bind fun lsn w hw => Act.ends_pure ⟨hw.1, fun _ => hw.2⟩
  | sync =>
      exact h.sync.mono (fun _ w hw => ⟨⟨ps, hw.1⟩, fun _ => hw.2⟩) fun _ w hw => ⟨ps, hw⟩

/-! ## Opening -/

/-- A store on which everything is on the disk is opened as a log of its records, all of them
stable. -/
theorem lasts_of_fresh {config : WalConfig} {s t : S} (hfresh : Fresh s)
    (hopen : withStoreAndConfig config s = (.ok wal, t)) :
    wal.maxRecordSize = config.maxRecordSize ∧
      wal.Lasts (payloads (image s) config.maxRecordSize (length s) 0) ∧
      wal.commit.durable =
        (frames (payloads (image s) config.maxRecordSize (length s) 0)).length := by
  obtain ⟨hhead, _, P, V, hP, hP'⟩ := LawfulLasting.fresh hfresh
  obtain ⟨hwal, hstore⟩ := open_eq_ok V hP hhead hopen
  have hm := config.maxRecordSize_lt
  have hps := @intact_payloads (image s) config.maxRecordSize (length s) hm 0
  have hle : logEnd (image s) config.maxRecordSize (length s) 0 ≤ length s :=
    logEnd_le hm (fun _ ho => V.past_end ho) (Nat.zero_le _)
  have hend : logEnd (image s) config.maxRecordSize (length s) 0 =
      (frames (payloads (image s) config.maxRecordSize (length s) 0)).length := Nat.zero_add _
  generalize logEnd (image s) config.maxRecordSize (length s) 0 = e at *
  -- Cut or not, the store ends where the records do.
  have hcut : Orderly t ∧ length t = e ∧
      (∀ o b, o < e → image s o = some b → image t o = some b ∧ Stable t o) := by
    rcases hstore with ⟨hfull, hPt⟩ | ⟨-, s1, hP1, htrunc⟩
    · obtain ⟨horderly, -, hlen, himage, hstable⟩ := hP' t hPt
      refine ⟨horderly, by omega, fun o b _ hb => ⟨?_, hstable o b hb⟩⟩
      rw [himage]
      exact hb
    · obtain ⟨horderly, hcalm, hlen, himage, hstable⟩ := hP' s1 hP1
      obtain ⟨hk, hlen'⟩ := LawfulLasting.truncate horderly hcalm (by omega)
        (fun o b hb => hstable o b (himage ▸ hb)) htrunc
      refine ⟨hk.orderly, hlen', fun o b ho hb => ⟨?_, hk.stable o ho (hstable o b hb)⟩⟩
      refine hk.kept o b ho ?_
      rw [himage]
      exact hb
  obtain ⟨horderly, hlen, hkept⟩ := hcut
  subst hwal
  refine ⟨rfl, ⟨hm, horderly, rfl, hps.mono fun o b _ ho hb => ?_, hend, ?_, ?_, Nat.le_refl _,
    fun o ho => ?_, Or.inl ⟨rfl, rfl⟩⟩, hend⟩
  · exact (hkept o b (by omega) hb).1
  · exact Nat.le_of_eq hlen.symm
  · exact Nat.le_of_eq hlen
  · have ho : o < e := ho
    obtain ⟨b, hb⟩ := hps.byte (Nat.zero_le o) (by omega)
    exact (hkept o b ho hb).2

/-! ## Sessions -/

/-- The payloads `qs` are the first of the log, and stable. -/
def Vouches (qs : List (List UInt8)) (wal : Wal S) : Prop :=
  ∃ ps, wal.Lasts ps ∧ qs <+: ps ∧ (frames qs).length ≤ wal.commit.durable

omit [LawfulLasting S] in
theorem Vouches.grown {qs ps' : List (List UInt8)} (hqs : qs <+: ps)
    (hle : (frames qs).length ≤ wal.commit.durable) (hg : Grows wal ps wal' ps') :
    Vouches qs wal' :=
  ⟨ps', hg.toLasts, hqs.trans hg.initial, Nat.le_trans hle hg.durable_ge⟩

theorem Vouches.does {qs : List (List UInt8)} (h : Vouches qs wal) (faults : List Bool) (d : Deed)
    (hroom : wal.tail + d.room < 2 ^ 64) :
    Vouches qs (Wal.does d (wal.underFaults faults)).2 := by
  obtain ⟨ps, hlasts, hqs, hle⟩ := h
  have hstart := hlasts.underFaults faults
  rcases (hstart.toLasts.does d hroom).cases with ⟨u, w, hrun, ⟨ps', hg⟩, -⟩ | ⟨e, w, hrun, ps', hg⟩
  · rw [hrun]
    exact Vouches.grown hqs hle (hstart.trans hg)
  · rw [hrun]
    exact Vouches.grown hqs hle (hstart.trans hg)

/-- What the last session vouched for, the next one finds on the disk. -/
theorem Vouches.powerLoss {qs : List (List UInt8)} (h : Vouches qs wal) {s t : S}
    (hloss : Loss wal.store s) {config : WalConfig}
    (hmax : wal.maxRecordSize ≤ config.maxRecordSize)
    (hopen : withStoreAndConfig config s = (.ok wal', t)) : Vouches qs wal' := by
  obtain ⟨ps, hlasts, hqs, hle⟩ := h
  obtain ⟨hfresh, hkept⟩ := LawfulLasting.loss hloss
  obtain ⟨-, hlasts', hdurable⟩ := lasts_of_fresh hfresh hopen
  obtain ⟨-, _, P, V, -, -⟩ := LawfulLasting.fresh hfresh
  have hintact : Intact (image s) config.maxRecordSize 0 qs := by
    obtain ⟨rest, rfl⟩ := hqs
    have hold := (intact_append_iff.mp hlasts.intact).1
    refine hold.congr hmax fun o _ ho => ?_
    obtain ⟨b, hb⟩ := hold.byte (Nat.zero_le o) ho
    rw [hb, hkept o b hb (hlasts.stable o (by omega))]
  have hpre := hintact.isPrefix config.maxRecordSize_lt fun _ ho => V.past_end ho
  refine ⟨_, hlasts', hpre, ?_⟩
  obtain ⟨rest, hrest⟩ := hpre
  rw [hdurable, ← hrest, frames_append, List.length_append]
  exact Nat.le_add_right _ _

theorem Vouches.later {qs : List (List UInt8)} (h : Vouches qs wal) (hlater : Later wal wal') :
    Vouches qs wal' := by
  induction hlater with
  | refl => exact h
  | call _ faults d hroom ih => exact ih.does faults d hroom
  | powerLoss _ hloss _ hmax hopen ih => exact ih.powerLoss hloss hmax hopen

/-- An iterator yields what lies below the watermark. -/
theorem Lasts.contents_eq (h : wal.Lasts ps) :
    wal.contents = .ok ((recordsFrom 0 ps).map .ok) := by
  have hcalm := (h.underFaults []).toLasts
  obtain ⟨_, P, R, hP⟩ := LawfulLasting.reads hcalm.orderly (LawfulLasting.calm_setFaults wal.store)
  have V : Serves (image (wal.underFaults []).store) (2 ^ 64 - 1) P :=
    ⟨R.full, fun ho => LawfulLasting.image_past _ ho, by decide⟩
  have hintact := hcalm.intact
  rw [← h.head_eq] at hintact ⊢
  obtain ⟨s', hrun, -⟩ := Iter.collect_intact V hcalm.max_lt wal.iter hintact rfl
    (by rw [show wal.iter.offset = 0 from h.head_eq, Nat.zero_add]; exact h.committed_eq) hP
  exact congrArg Prod.fst hrun

/-- What a sync vouches for, all later sessions show first. -/
theorem synced_outlasts {config : WalConfig} {s t : S} (hfresh : Fresh s)
    (hopen : withStoreAndConfig config s = (.ok wal, t)) {wal1 wal2 wal3 : Wal S}
    (hbefore : Later wal wal1) (faults : List Bool) {d : Deed} (hsyncs : d.syncs = true)
    (hroom : wal1.tail + d.room < 2 ^ 64)
    (hdone : does d (wal1.underFaults faults) = (.ok (), wal2)) (hafter : Later wal2 wal3) :
    ∃ ps qs, wal2.tail = (frames ps).length ∧
      wal2.contents = .ok ((recordsFrom 0 ps).map .ok) ∧
      wal3.contents = .ok ((recordsFrom 0 (ps ++ qs)).map .ok) := by
  have hstart : Vouches [] wal :=
    ⟨_, (lasts_of_fresh hfresh hopen).2.1, List.nil_prefix, Nat.zero_le _⟩
  obtain ⟨ps1, hlasts, -, -⟩ := hstart.later hbefore
  have hends := (hlasts.underFaults faults).toLasts.does d hroom
  rw [Act.Ends, hdone] at hends
  obtain ⟨⟨ps, hg⟩, hsynced⟩ := hends
  have htail := hsynced hsyncs
  have hdurable := hg.durable_le
  have hcommitted := hg.committed_eq
  have hlength := hg.committed_le
  have hend := hg.length_le
  obtain ⟨ps3, hlasts3, ⟨qs, hqs⟩, -⟩ := Vouches.later
    (⟨ps, hg.toLasts, List.prefix_refl ps, by omega⟩ : Vouches ps wal2) hafter
  exact ⟨ps, qs, by omega, hg.toLasts.contents_eq, by rw [hqs]; exact hlasts3.contents_eq⟩

end Calls

end Wal

end WalDb
