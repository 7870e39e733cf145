/-
A log that only one thread uses, over a store that may fail at any call.

A thread that syncs waits as long as a write below its target is outstanding.  Here there
is nobody to wait for, so it must never come to that, also after appends, flushes and
truncations that failed.  `Quiet` is what keeps it from waiting: either every reserved
range has been folded into the watermark, or a poison at or below the watermark makes
every sync past it return.

Nothing is assumed about what the store holds or which of its calls fail; `Answers` only
says that each call returns a result or an error.  What is read back is as long as it was
asked for or shorter.
-/
import WalDb.Portable
import WalDb.Program
import WalDb.Safety

namespace WalDb

open Lib Lib.Act Record

/-! ## The coordinator -/

namespace Commit

variable {st : State} {tail : Nat}

/-- Nobody flushes, and a sync of everything below `tail` does not wait. -/
structure Quiet (tail : Nat) (st : State) : Prop where
  idle : st.syncing = false
  pending_lt : ∀ a b, st.pending.lookup a = some b → a < b
  settled : (st.committed = tail ∧ st.pending = ∅) ∨ ∃ p ∈ st.poison, p ≤ st.committed

theorem quiet_new (recovered : Nat) : Quiet recovered (new recovered) where
  idle := rfl
  pending_lt _ _ h := by cases h
  settled := Or.inl ⟨rfl, rfl⟩

theorem Quiet.markWritten (h : Quiet tail st) {endAt : Nat} (hlt : tail < endAt) :
    Quiet endAt (markWritten st tail endAt).1 := by
  obtain ⟨hle, hpending⟩ := insertRegion_mono hlt h.pending_lt
  have hframe : (insertRegion st tail endAt).syncing = st.syncing ∧
      (insertRegion st tail endAt).poison = st.poison := by
    unfold insertRegion
    split
    · exact ⟨(drain_frame _).2.1, (drain_frame _).2.2.2.1⟩
    · exact ⟨rfl, rfl⟩
  refine ⟨hframe.1.trans h.idle, hpending, ?_⟩
  rcases h.settled with ⟨heq, hempty⟩ | ⟨p, hp, hple⟩
  · -- Nothing is pending, so the watermark stops at the end of the new range.
    have hnone : (({ st with committed := endAt } : State).pending).lookup endAt = none := by
      rw [hempty]
      rfl
    have hins : insertRegion st tail endAt = { st with committed := endAt } := by
      rw [insertRegion, if_pos heq.symm, drain_none hnone]
    refine Or.inl ?_
    show (insertRegion st tail endAt).committed = endAt ∧ (insertRegion st tail endAt).pending = ∅
    rw [hins]
    exact ⟨rfl, hempty⟩
  · refine Or.inr ⟨p, ?_, Nat.le_trans hple hle⟩
    show p ∈ (insertRegion st tail endAt).poison
    rw [hframe.2]
    exact hp

/-- After a failed write the poison covers everything that is reserved later. -/
theorem Quiet.markFailed (h : Quiet tail st) (tail' : Nat) :
    Quiet tail' (markFailed st tail).1 where
  idle := h.idle
  pending_lt := h.pending_lt
  settled := by
    refine Or.inr ⟨_, rfl, ?_⟩
    rcases h.settled with ⟨heq, -⟩ | ⟨p, hp, hple⟩
    · show st.poison.elim tail (min · tail) ≤ st.committed
      cases st.poison with
      | none => exact Nat.le_of_eq heq.symm
      | some p => exact Nat.le_trans (Nat.min_le_right p tail) (Nat.le_of_eq heq.symm)
    · show st.poison.elim tail (min · tail) ≤ st.committed
      rw [Option.mem_def.mp hp]
      exact Nat.le_trans (Nat.min_le_left p tail) hple

theorem Quiet.reset (h : Quiet tail st) (offset : Nat) : Quiet offset (reset st offset) where
  idle := h.idle
  pending_lt _ _ hab := by cases hab
  settled := Or.inl ⟨rfl, rfl⟩

theorem Quiet.afterFlush (h : Quiet tail st) (flushTo : Nat) (flushed : Bool) :
    Quiet tail (afterFlush { st with syncing := true } flushTo flushed) := by
  unfold Commit.afterFlush
  dsimp only
  split_ifs <;> exact ⟨rfl, h.pending_lt, h.settled⟩

/-- A target that is durable is answered at once. -/
theorem syncCheck_flushed {target : Nat} (h : target ≤ st.durable) :
    ∃ result, syncCheck st target = (st, .done result) := by
  unfold syncCheck
  cases st.poison.filter (· < target) with
  | some p => exact ⟨_, rfl⟩
  | none => exact ⟨.ok (), if_pos h⟩

/-- One round answers, or flushes everything below the target. -/
theorem Quiet.syncCheck (h : Quiet tail st) :
    (∃ result, syncCheck st tail = (st, .done result)) ∨
      (syncCheck st tail = ({ st with syncing := true }, .lead st.committed) ∧
        tail ≤ st.committed) := by
  unfold Commit.syncCheck
  cases hp : st.poison.filter (· < tail) with
  | some p => exact Or.inl ⟨_, rfl⟩
  | none =>
      -- A poison below the target would have ended the round, so the watermark is there.
      have hle : tail ≤ st.committed := by
        rcases h.settled with ⟨heq, -⟩ | ⟨p, hpoison, hple⟩
        · exact Nat.le_of_eq heq.symm
        · rw [Option.mem_def.mp hpoison, Option.filter_eq_none_iff] at hp
          have hge : ¬ p < tail := by simpa using hp p rfl
          omega
      by_cases hd : tail ≤ st.durable
      · exact Or.inl ⟨.ok (), if_pos hd⟩
      · by_cases hf : st.flushFailed = true
        · exact Or.inl ⟨.error flushFailedError, by simp only [if_neg hd, if_pos hf]⟩
        · refine Or.inr ⟨?_, hle⟩
          simp only [if_neg hd, if_neg hf, if_pos (And.intro hle h.idle)]

end Commit

/-! ## The store -/

/-- A store with its head at `floor` that answers every call with a result or an error, as
long as it is not truncated below the head. -/
structure Answers {S : Type} [WalStore S] (floor : Nat) (P : S → Prop) : Prop where
  read : ∀ {s : S} {off n : Nat}, P s → off < 2 ^ 64 → n < 2 ^ 32 →
    Safe P (WalStore.readAt off n) s fun bs => bs.length ≤ n
  write : ∀ {s : S} {off : Nat} {bytes : List UInt8}, P s → off + bytes.length < 2 ^ 64 →
    Safe P (WalStore.writeAt off bytes) s fun _ => True
  truncate : ∀ {s : S} {len : Nat}, P s → floor ≤ len → len < 2 ^ 64 →
    Safe P (WalStore.truncate len) s fun _ => True
  sync : ∀ {s : S}, P s → Safe P (WalStore.sync : Act S Fault Unit) s fun _ => True
  len : ∀ {s : S}, P s → Safe P WalStore.len s (· < 2 ^ 64)
  head : ∀ {s : S}, P s → Safe P WalStore.head s fun head => head = floor ∧ head < 2 ^ 64

/-- The store as a reader knows it: no other call has an effect. -/
structure Still (S : Type) where
  store : S

namespace Still

variable {S : Type} [WalStore S] {P : S → Prop} {floor : Nat}

instance : WalStore (Still S) where
  writeAt _ _ := pure ()
  readAt off n := Act.zoom Still.store (fun _ s => ⟨s⟩) (WalStore.readAt off n)
  truncate _ := pure ()
  sync := pure ()
  len := pure 0

theorem tame (A : Answers floor P) {asks : Nat → Nat → Prop}
    (hasks : ∀ off n, asks off n → off < 2 ^ 64 ∧ n < 2 ^ 32) :
    Tame asks fun t : Still S => P t.store where
  read hP hask := Act.Ends.zoom (A.read hP (hasks _ _ hask).1 (hasks _ _ hask).2)
  truncate _ hP := Act.ends_pure ⟨trivial, hP⟩
  len hP := Act.ends_pure ⟨by decide, hP⟩
  head hP := Act.ends_pure ⟨by decide, hP⟩

/-- `t` is the store `s`. -/
def Is (s : S) (t : Still S) : Prop := t.store = s

theorem readsAlike : ReadsAlike (fun _ => True) (Is : S → Still S → Prop) where
  down _ _ := trivial
  readAt off n _ := by
    intro s t h
    show (WalStore.readAt off n s).1 = (WalStore.readAt off n t.store).1 ∧
      (WalStore.readAt off n t.store).2 = (WalStore.readAt off n s).2
    rw [show t.store = s from h]
    exact ⟨rfl, rfl⟩

omit [WalStore S] in
/-- What only reads the store is as safe over it as over the one that it reads. -/
theorem safe {α : Type} {x : Act S Fault α} {y : Act (Still S) Fault α} (h : Lockstep Is Is x y)
    {s : S} {Q : α → Prop} (hy : Safe (fun t => P t.store) y ⟨s⟩ Q) : Safe P x s Q := by
  obtain ⟨hres, hpost⟩ := h s ⟨s⟩ rfl
  rcases hy.cases with ⟨a, t, hrun, hQ, hP⟩ | ⟨e, t, hrun, he, hP⟩
  · rw [hrun] at hres hpost
    exact Act.ends_of_ok (Prod.ext hres (Eq.symm hpost)) ⟨hQ, hP⟩
  · rw [hrun] at hres hpost
    exact Act.ends_of_error (Prod.ext hres (Eq.symm hpost)) ⟨he, hP⟩

end Still

section Open

variable {S : Type} [WalStore S] {P : S → Prop} {floor m : Nat} {s : S}

/-- The open scan goes forward. -/
theorem scan_ge {physical offset endAt : Nat} {s' : S}
    (h : scan m physical offset s = (.ok endAt, s')) : offset ≤ endAt := by
  induction hn : physical - offset using Nat.strongRecOn generalizing offset s with
  | ind n ih =>
      by_cases hlt : offset < physical
      · cases hstep : scanStep m offset s with
        | mk r s1 =>
            rcases r with fault | next
            · rw [scan_error hlt hstep] at h
              cases h
            · cases next with
              | none =>
                  rw [scan_break hlt hstep] at h
                  cases h
                  exact Nat.le_refl _
              | some next =>
                  have hgt := scanStep_gt hstep
                  rw [scan_next hlt hstep] at h
                  have := ih (physical - next) (by omega) h rfl
                  omega
      · rw [scan_past hlt] at h
        cases h
        exact Nat.le_refl _

theorem PayloadRead.lt (hm : m < 2 ^ 32) {off n : Nat} (h : PayloadRead m off n) :
    off < 2 ^ 64 ∧ n < 2 ^ 32 := by
  refine ⟨h.1, ?_⟩
  rcases h.2 with rfl | hn
  · decide
  · omega

theorem scan_returns (A : Answers floor P) (hm : m < 2 ^ 32) (physical : Nat) {off : Nat}
    (hoff : off < 2 ^ 64) (hP : P s) :
    Safe P (scan m physical off) s fun endAt => off ≤ endAt ∧ endAt < 2 ^ 64 := by
  have hsafe := Still.safe (scan_lockstep Still.readsAlike trivial off)
    (scan_safe (Still.tame A fun _ _ => PayloadRead.lt hm) physical hoff hP)
  rcases hsafe.cases with ⟨endAt, s', hrun, hlt, hP'⟩ | ⟨e, s', hrun, he⟩
  · exact Act.ends_of_ok hrun ⟨⟨scan_ge hrun, hlt⟩, hP'⟩
  · exact Act.ends_of_error hrun he

theorem cutTail_returns (A : Answers floor P) (config : WalConfig) {offset physical : Nat}
    (hfloor : floor ≤ offset) (hoff : offset < 2 ^ 64) (hlen : physical < 2 ^ 64) (hP : P s) :
    Safe P (cutTail config offset physical) s fun _ => True := by
  unfold cutTail
  by_cases hstrict : config.openPolicy = .strict
  · rw [if_pos hstrict]
    have hT : Tame (Strict.MayRead physical) fun t : Still S => P t.store :=
      Still.tame A fun off n h => by
        obtain ⟨hn, hle⟩ := h
        unfold Strict.windowLen at hn
        omega
    refine (Still.safe (Strict.classify_lockstep Still.readsAlike _ _ trivial)
      (Strict.classify_safe hT.toTameReads hlen hP)).bind fun tail s1 h => ?_
    cases tail with
    | torn => exact A.truncate h.2 hfloor hoff
    | intactAfter => exact Act.ends_fail ⟨⟨_, rfl⟩, h.2⟩
    | unreadable => exact Act.ends_fail ⟨⟨_, rfl⟩, h.2⟩
    | oversized => exact Act.ends_fail ⟨⟨_, rfl⟩, h.2⟩
  · rw [if_neg hstrict]
    exact A.truncate hP hfloor hoff

theorem recover_returns (A : Answers floor P) (config : WalConfig) {head : Nat}
    (hfloor : floor ≤ head) (hhead : head < 2 ^ 64) (hP : P s) :
    Safe P (recover config head) s fun _ => True := by
  refine (A.len hP).bind fun physical s1 h1 => ?_
  refine (scan_returns A config.maxRecordSize_lt physical hhead h1.2).bind fun offset s2 h2 => ?_
  obtain ⟨⟨hge, hlt⟩, hP2⟩ := h2
  split
  · refine (cutTail_returns A config (Nat.le_trans hfloor hge) hlt h1.1 hP2).bind fun _ s3 h3 => ?_
    exact Act.ends_pure ⟨trivial, h3.2⟩
  · exact Act.ends_pure ⟨trivial, hP2⟩

end Open

/-! ## The calls -/

namespace Wal

variable {S : Type} {P : Nat → S → Prop} {wal : Wal S}

/-- A log between two calls of its only thread. -/
structure Alone (P : Nat → S → Prop) (wal : Wal S) : Prop where
  store : P wal.head wal.store
  max_lt : wal.maxRecordSize < 2 ^ 32
  head_lt : wal.head < 2 ^ 64
  quiet : Commit.Quiet wal.tail wal.commit

theorem Alone.onStore (h : wal.Alone P) {α : Type} {x : Act S Fault α} {Q : α → Prop}
    (hx : Safe (P wal.head) x wal.store Q) : Safe (Alone P) (onStore x) wal Q :=
  Act.Ends.zoom (hx.mono (fun _ _ hs => ⟨hs.1, { h with store := hs.2 }⟩)
    fun _ _ hs => ⟨hs.1, { h with store := hs.2 }⟩)

variable [WalStore S] (A : ∀ floor, Answers floor (P floor))

include A

theorem withStoreAndConfig_returns (config : WalConfig) {floor : Nat} {s : S} (hP : P floor s) :
    (withStoreAndConfig config).Ends s (fun wal _ => wal.Alone P) (Reported (P floor)) := by
  have hopen : Safe (P floor) (withStoreAndConfig config) s (Alone P) := by
    refine ((A floor).head hP).bind fun head s1 h1 => ?_
    obtain ⟨⟨rfl, hlt⟩, hP1⟩ := h1
    refine (recover_returns (A head) config (Nat.le_refl _) hlt hP1).bind fun recovered s2 h2 => ?_
    exact Act.ends_get_bind (Act.ends_pure
      ⟨⟨h2.2, config.maxRecordSize_lt, hlt, Commit.quiet_new _⟩, h2.2⟩)
  exact hopen.mono (fun _ _ h => h.1) fun _ _ h => h

/-- An append that returns an offset has put its range at the end. -/
theorem Alone.append (h : wal.Alone P) (record : List UInt8) :
    (Wal.append record).Ends wal
      (fun lsn wal' => wal'.Alone P ∧ wal'.tail = lsn + framedLen record.length)
      (Reported (Alone P)) := by
  by_cases hlen : wal.maxRecordSize < record.length
  · exact Act.ends_of_error (append_tooLarge hlen) ⟨⟨_, rfl⟩, h⟩
  rw [Act.Ends, Wal.append, Act.get_bind, if_neg hlen]
  have hpos : wal.tail < wal.tail + framedLen record.length := by
    unfold framedLen headerLen
    omega
  by_cases hfit : wal.tail + framedLen record.length < 2 ^ 64
  · simp only [checkedAdd_of_lt hfit]
    rw [Act.modify_bind, Act.attempt_bind, Nat.mod_eq_of_lt hfit]
    have hwrite := (A wal.head).write h.store
      (show wal.tail + (frame record).length < 2 ^ 64 by rw [frame_length]; exact hfit)
    rcases hwrite.cases with ⟨u, s, hrun, -, hP⟩ | ⟨e, s, hrun, ⟨e', rfl⟩, hP⟩
    · rw [onStore_ok (by exact hrun)]
      exact ⟨⟨hP, h.max_lt, h.head_lt, h.quiet.markWritten hpos⟩, rfl⟩
    · rw [onStore_error (by exact hrun)]
      exact ⟨⟨_, rfl⟩, hP, h.max_lt, h.head_lt, h.quiet.markFailed _⟩
  · simp only [checkedAdd_of_le (Nat.not_lt.mp hfit)]
    exact ⟨⟨_, rfl⟩, h.store, h.max_lt, h.head_lt, h.quiet.markFailed _⟩

omit A in
/-- What is durable is answered in one round. -/
theorem Alone.syncRounds_durable (h : wal.Alone P) {target : Nat}
    (hdurable : target ≤ wal.commit.durable) (rounds : Nat) :
    Safe (Alone P) (syncRounds (rounds + 1) target) wal fun _ => True := by
  refine Act.ends_get_bind ?_
  obtain ⟨result, hcheck⟩ := Commit.syncCheck_flushed hdurable
  rw [hcheck]
  cases result with
  | ok u => exact Act.ends_of_ok rfl ⟨trivial, h⟩
  | error e => exact Act.ends_of_error rfl ⟨⟨_, rfl⟩, h⟩

/-- A sync of everything returns: it is answered at once, or after one flush. -/
theorem Alone.syncTo (h : wal.Alone P) : Safe (Alone P) (Wal.syncTo wal.tail) wal fun _ => True := by
  refine Act.ends_get_bind ?_
  rcases h.quiet.syncCheck with ⟨result, hcheck⟩ | ⟨hcheck, hle⟩ <;> rw [hcheck]
  · cases result with
    | ok u => exact Act.ends_of_ok rfl ⟨trivial, h⟩
    | error e => exact Act.ends_of_error rfl ⟨⟨_, rfl⟩, h⟩
  · show Safe (Alone P) (Act.modify _ >>= _) wal _
    rw [Safe, Act.Ends, Act.modify_bind]
    dsimp only
    rw [Act.attempt_bind]
    have hquiet := h.quiet.afterFlush wal.commit.committed
    rcases ((A wal.head).sync h.store).cases with ⟨u, s, hrun, -, hP⟩ | ⟨e, s, hrun, ⟨e', rfl⟩, hP⟩
    · rw [onStore_ok (by exact hrun)]
      have hnext : Alone P { wal with
          store := s
          commit := Commit.afterFlush { wal.commit with syncing := true }
            wal.commit.committed true } := ⟨hP, h.max_lt, h.head_lt, hquiet true⟩
      exact hnext.syncRounds_durable (Nat.le_trans hle (Commit.le_afterFlush_durable _ _)) 0
    · rw [onStore_error (by exact hrun)]
      exact ⟨⟨_, rfl⟩, hP, h.max_lt, h.head_lt, hquiet false⟩

theorem Alone.sync (h : wal.Alone P) : Safe (Alone P) Wal.sync wal fun _ => True := by
  refine Act.ends_get_bind ?_
  split
  · exact Act.ends_pure ⟨trivial, h⟩
  · exact h.syncTo A

theorem Alone.appendAndSync (h : wal.Alone P) (record : List UInt8) :
    Safe (Alone P) (Wal.appendAndSync record) wal fun _ => True := by
  refine (h.append A record).bind fun lsn w hw => ?_
  rw [← hw.2]
  exact (hw.1.syncTo A).bind fun _ w' hw' => Act.ends_pure ⟨trivial, hw'.2⟩

theorem Alone.keptEnd (h : wal.Alone P) {lsn : Nat} (hlsn : lsn < 2 ^ 64) :
    Safe (fun w => w.Alone P ∧ w.head = wal.head) (Wal.keptEnd lsn) wal
      fun newEnd => lsn ≤ newEnd ∧ newEnd < 2 ^ 64 := by
  have hread : ∀ {w : Wal S} {off n : Nat}, w.Alone P ∧ w.head = wal.head → off < 2 ^ 64 →
      n < 2 ^ 32 → Safe (fun w => w.Alone P ∧ w.head = wal.head)
        (Wal.onStore (WalStore.readAt off n)) w fun bs => bs.length ≤ n := by
    intro w off n hw hoff hn
    exact Act.Ends.zoom (((A w.head).read hw.1.store hoff hn).mono
      (fun _ _ hs => ⟨hs.1, { hw.1 with store := hs.2 }, hw.2⟩)
      fun _ _ hs => ⟨hs.1, { hw.1 with store := hs.2 }, hw.2⟩)
  refine Act.ends_get_bind ?_
  refine (hread ⟨h, rfl⟩ hlsn (show headerLen < 2 ^ 32 by decide)).bind fun header w1 h1 => ?_
  by_cases hshort : header.length < headerLen
  · rw [if_pos hshort]
    exact Act.ends_fail ⟨⟨_, rfl⟩, h1.2⟩
  rw [if_neg hshort]
  by_cases hbig : wal.maxRecordSize < (parseHeader header).len
  · rw [if_pos hbig]
    exact Act.ends_fail ⟨⟨_, rfl⟩, h1.2⟩
  rw [if_neg hbig]
  cases hstart : checkedAdd lsn headerLen with
  | none => exact Act.ends_fail ⟨⟨_, rfl⟩, h1.2⟩
  | some payloadStart =>
      obtain ⟨rfl, hlt⟩ := checkedAdd_eq_some hstart
      have hmax := h.max_lt
      refine (hread h1.2 hlt (by omega)).bind fun payload w2 h2 => ?_
      split
      · exact Act.ends_fail ⟨⟨_, rfl⟩, h2.2⟩
      split
      · exact Act.ends_fail ⟨⟨_, rfl⟩, h2.2⟩
      cases hend : checkedAdd (lsn + headerLen) (parseHeader header).len with
      | none => exact Act.ends_fail ⟨⟨_, rfl⟩, h2.2⟩
      | some newEnd =>
          obtain ⟨rfl, hlt'⟩ := checkedAdd_eq_some hend
          exact Act.ends_pure ⟨⟨by omega, hlt'⟩, h2.2⟩

theorem Alone.truncateAfter (h : wal.Alone P) {lsn : Nat} (hhead : wal.head ≤ lsn)
    (hlsn : lsn < 2 ^ 64) : Safe (Alone P) (Wal.truncateAfter lsn) wal fun _ => True := by
  refine (((h.keptEnd A hlsn).mono (fun _ _ hw => hw) fun _ _ hw => ⟨hw.1, hw.2.1⟩).bind
    fun newEnd w1 h1 => ?_)
  obtain ⟨⟨hge, hlt⟩, halone, hsame⟩ := h1
  refine (halone.onStore ((A w1.head).truncate halone.store (by omega) hlt)).bind fun _ w2 h2 => ?_
  refine (h2.2.onStore ((A w2.head).sync h2.2.store)).bind fun _ w3 h3 => ?_
  exact Act.ends_of_ok rfl
    ⟨trivial, h3.2.store, h3.2.max_lt, h3.2.head_lt, h3.2.quiet.reset newEnd⟩

/-- The iterator reads and changes nothing but the store. -/
theorem Alone.collect (h : wal.Alone P) {it : Iter} (hoff : it.offset < 2 ^ 64) :
    Safe (Alone P) it.collect wal fun _ => True := by
  let R : Wal S → Wal (Still S) → Prop := fun w v =>
    Still.Is w.store v.store ∧ v.maxRecordSize = wal.maxRecordSize ∧ w = { wal with store := w.store }
  have hread : ReadsAlike (fun _ => True) wal.maxRecordSize R := by
    refine ⟨fun _ _ => trivial, fun w v hR => ⟨by rw [hR.2.2], hR.2.1⟩, fun off n hreach => ?_⟩
    refine (Still.readsAlike.readAt off n (Or.inr hreach)).zoom (fun _ _ hR => hR.1) fun w v s t hR hst => ?_
    refine ⟨hst, hR.2.1, ?_⟩
    rw [hR.2.2]
  have hlock : Lockstep R R it.collect it.collect := it.collect_lockstep hread trivial
  let still : Wal (Still S) := { wal with store := ⟨wal.store⟩ }
  have hends : it.collect.Ends still
      (fun _ => Iter.Within (fun t => P wal.head t.store) wal.maxRecordSize) fun _ _ => False :=
    Iter.collect_ends (Still.tame (A wal.head) fun _ _ => PayloadRead.lt h.max_lt) hoff
      ⟨h.store, rfl⟩
  obtain ⟨hres, hstore, -, hsame⟩ := hlock wal still ⟨rfl, rfl, rfl⟩
  rcases hends.cases with ⟨items, v, hrun, hP, -⟩ | ⟨e, v, hrun, hfalse⟩
  · rw [hrun] at hres hstore
    have hstore : v.store.store = (it.collect wal).2.store := hstore
    rw [← hstore] at hsame
    exact Act.ends_of_ok (Prod.ext hres hsame) ⟨trivial, { h with store := hP }⟩
  · exact hfalse.elim

end Wal

end WalDb
