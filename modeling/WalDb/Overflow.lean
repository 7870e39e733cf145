/-
Running out of offsets.

An append reserves its range with an unconditional `fetch_add`, which wraps, and only then
finds that the range does not end below `2^64`.  The failed append poisons the log at the
offset it started from, so no sync reports anything beyond it; but the counter has come
round to the start of the log, and the next append reserves a range there.

`events` is what a caller sees of a run of calls.  `FailStop` says of it what running out
should look like, and it holds exactly where the records but the last fit below `2^64`
(`failStop_iff_fits`).
-/
import WalDb.Sequential
import WalDb.Watermark
import WalDb.Segment.Sound

namespace WalDb

open Lib Record

namespace Wal

inductive AppendOrSync where
  | append (record : List UInt8)
  | sync

/-- A call that has returned, with the reservation counter it began at. -/
inductive Completion where
  | append (record : List UInt8) (tail : Nat) (result : Except Fault Nat)
  | sync (tail : Nat) (result : Except Fault Unit)

namespace Completion

/-- The range that an append which returned Ok was given. -/
def granted : Completion → Option (Nat × Nat)
  | append record _ (.ok lsn) => some (lsn, lsn + framedLen record.length)
  | _ => none

/-- Where an append started whose range does not end below `2^64`.  A record above the
maximum reserves nothing. -/
def overflowAt (m : Nat) : Completion → Option Nat
  | append record tail _ =>
      if record.length ≤ m ∧ 2 ^ 64 ≤ tail + framedLen record.length then some tail else none
  | sync _ _ => none

/-- How far a sync that returned Ok has synced. -/
def synced : Completion → Option Nat
  | sync tail (.ok ()) => some tail
  | _ => none

end Completion

variable {S : Type} [WalStore S]

def observe (wal : Wal S) : AppendOrSync → Completion × Wal S
  | .append record => (.append record wal.tail (append record wal).1, (append record wal).2)
  | .sync => (.sync wal.tail (sync wal).1, (sync wal).2)

/-- What the calls return, one after another. -/
def events (wal : Wal S) : List AppendOrSync → List Completion
  | [] => []
  | call :: calls => (wal.observe call).1 :: events (wal.observe call).2 calls

/-- Appends that return Ok get ranges above `base`, each behind the one before, so that
their LSNs increase and the ranges do not meet; and after an append that has run out of
offsets no append returns Ok, and no sync does beyond the offset it started at. -/
structure FailStop (m base : Nat) (events : List Completion) : Prop where
  above : ∀ e ∈ events, ∀ r ∈ e.granted, base ≤ r.1
  ordered : events.Pairwise fun e e' => ∀ r ∈ e.granted, ∀ r' ∈ e'.granted, r.2 ≤ r'.1
  stopped : events.Pairwise fun e e' => ∀ t ∈ e.overflowAt m, e'.granted = none
  unsynced : events.Pairwise fun e e' => ∀ t ∈ e.overflowAt m, ∀ t' ∈ e'.synced, t' ≤ t

/-- The sizes of the records that are not above the maximum. -/
def admitted (m : Nat) : List AppendOrSync → List Nat
  | [] => []
  | .append record :: calls =>
      if record.length ≤ m then framedLen record.length :: admitted m calls else admitted m calls
  | .sync :: calls => admitted m calls

/-- The records but the last end below `2^64`. -/
def Fits (m tail : Nat) (calls : List AppendOrSync) : Prop :=
  tail + (admitted m calls).dropLast.sum < 2 ^ 64

instance (m tail : Nat) (calls : List AppendOrSync) : Decidable (Fits m tail calls) :=
  inferInstanceAs (Decidable (_ < _))

theorem Fits.tail_lt {m tail : Nat} {calls : List AppendOrSync} (h : Fits m tail calls) :
    tail < 2 ^ 64 := Nat.lt_of_le_of_lt (Nat.le_add_right _ _) h

theorem fits_tooLarge {m tail : Nat} {record : List UInt8} {calls : List AppendOrSync}
    (hlen : ¬ record.length ≤ m) : Fits m tail (.append record :: calls) ↔ Fits m tail calls := by
  rw [Fits, admitted, if_neg hlen]
  rfl

/-- The last record that is admitted may run out. -/
theorem fits_last {m tail : Nat} {record : List UInt8} {calls : List AppendOrSync}
    (hlast : admitted m calls = []) (hlt : tail < 2 ^ 64) :
    Fits m tail (.append record :: calls) := by
  rw [Fits, admitted, hlast]
  split <;> exact hlt

theorem fits_append {m tail : Nat} {record : List UInt8} {calls : List AppendOrSync}
    (hlen : record.length ≤ m) (hmore : admitted m calls ≠ []) :
    Fits m tail (.append record :: calls) ↔ Fits m (tail + framedLen record.length) calls := by
  rw [Fits, Fits, admitted, if_pos hlen, List.dropLast_cons_of_ne_nil hmore, List.sum_cons,
    Nat.add_assoc]

/-! ## What the calls do to the counter and to the poison -/

/-- The log is poisoned at or below `t`. -/
def Poisoned (t : Nat) (wal : Wal S) : Prop := ∃ p, wal.commit.poison = some p ∧ p ≤ t

omit [WalStore S] in
theorem Poisoned.congr {t : Nat} {wal wal' : Wal S} (h : Poisoned t wal)
    (heq : wal'.commit.poison = wal.commit.poison) : Poisoned t wal' := by
  rw [Poisoned, heq]
  exact h

omit [WalStore S] in
theorem poisoned_markFailed {wal wal' : Wal S} {start : Nat}
    (heq : wal'.commit = (Commit.markFailed wal.commit start).1) :
    Poisoned start wal' ∧ ∀ t, Poisoned t wal → Poisoned t wal' := by
  have hpoison : wal'.commit.poison =
      some (wal.commit.poison.elim start fun p => min p start) := by
    rw [heq]
    rfl
  refine ⟨⟨_, hpoison, ?_⟩, fun t ⟨p, hp, hle⟩ => ⟨_, hpoison, ?_⟩⟩
  · cases wal.commit.poison with
    | none => exact Nat.le_refl start
    | some p => exact Nat.min_le_right p start
  · rw [hp]
    exact Nat.le_trans (Nat.min_le_left p start) hle

/-- An append of an admissible record moves the counter, and takes the poison with it where
it runs out. -/
structure Reserved (record : List UInt8) (wal wal' : Wal S) (result : Except Fault Nat) :
    Prop where
  tail_eq : wal'.tail = (wal.tail + framedLen record.length) % 2 ^ 64
  max_eq : wal'.maxRecordSize = wal.maxRecordSize
  lsn_eq : ∀ lsn, result = .ok lsn → lsn = wal.tail ∧ wal.tail + framedLen record.length < 2 ^ 64
  poisoned : ∀ t, Poisoned t wal → Poisoned t wal'
  overflow : 2 ^ 64 ≤ wal.tail + framedLen record.length → Poisoned wal.tail wal'

theorem append_reserved {wal : Wal S} {record : List UInt8}
    (hlen : record.length ≤ wal.maxRecordSize) :
    Reserved record wal (append record wal).2 (append record wal).1 := by
  rw [append, Act.get_bind, if_neg (Nat.not_lt.mpr hlen), Act.modify_bind]
  by_cases hfit : 2 ^ 64 ≤ wal.tail + framedLen record.length
  · rw [checkedAdd_of_le hfit]
    have hpoison := fun wal' => @poisoned_markFailed S wal wal' wal.tail
    exact ⟨rfl, rfl, (fun _ h => by cases h), (hpoison _ rfl).2, fun _ => (hpoison _ rfl).1⟩
  · have hlt := Nat.not_le.mp hfit
    rw [checkedAdd_of_lt hlt]
    dsimp only
    rw [Act.attempt_bind]
    cases hwrite : WalStore.writeAt wal.tail (encode [] record) wal.store with
    | mk result s' =>
        cases result with
        | ok u =>
            rw [onStore_ok (by exact hwrite)]
            refine ⟨rfl, rfl, fun lsn h => ?_, fun t ht => ht.congr ?_, fun h => absurd h hfit⟩
            · cases h
              exact ⟨rfl, hlt⟩
            · exact (Commit.insertRegion_frame _ _ _).2.2.2.1
        | error fault =>
            rw [onStore_error (by exact hwrite)]
            cases fault with
            | err e =>
                have hpoison := fun wal' => @poisoned_markFailed S wal wal' wal.tail
                exact ⟨rfl, rfl, (fun _ h => by cases h), (hpoison _ rfl).2, fun h => absurd h hfit⟩
            | panics _ =>
                exact ⟨rfl, rfl, (fun _ h => by cases h), fun _ ht => ht, fun h => absurd h hfit⟩
            | blocked =>
                exact ⟨rfl, rfl, (fun _ h => by cases h), fun _ ht => ht, fun h => absurd h hfit⟩

/-- A round that returns Ok has found no poison below the target. -/
theorem syncCheck_ok_le {st st' : Commit.State} {target p : Nat}
    (h : Commit.syncCheck st target = (st', .done (.ok ()))) (hp : st.poison = some p) :
    target ≤ p := by
  by_contra hlt
  have hfilter : st.poison.filter (· < target) = some p := by
    rw [hp]
    simpa using Nat.not_le.mp hlt
  rw [Commit.syncCheck, hfilter] at h
  cases h

/-- A round of `sync_to` leaves the counter and the poison alone, and does not return Ok for
a target beyond the poison. -/
theorem syncRounds_effect (rounds target : Nat) (wal : Wal S) :
    (syncRounds rounds target wal).2.tail = wal.tail ∧
      (syncRounds rounds target wal).2.maxRecordSize = wal.maxRecordSize ∧
      (syncRounds rounds target wal).2.commit.poison = wal.commit.poison ∧
      ((syncRounds rounds target wal).1 = .ok () → ∀ t, Poisoned t wal → target ≤ t) ∧
      ∀ P : S → Prop, (∀ s, P s → P (WalStore.sync s).2) → P wal.store →
        P (syncRounds rounds target wal).2.store := by
  induction rounds generalizing wal with
  | zero => exact ⟨rfl, rfl, rfl, (fun h => by cases h), fun _ _ hP => hP⟩
  | succ rounds ih =>
      rw [syncRounds, Act.get_bind]
      rcases Commit.syncCheck_cases wal.commit target with
        ⟨e, hcheck⟩ | ⟨hcheck, hle⟩ | ⟨hcheck, -, -, -⟩ | hcheck <;> rw [hcheck]
      · exact ⟨rfl, rfl, rfl, (fun h => by cases h), fun _ _ hP => hP⟩
      · refine ⟨rfl, rfl, rfl, fun _ t ht => ?_, fun _ _ hP => hP⟩
        obtain ⟨p, hp, hpt⟩ := ht
        exact Nat.le_trans (syncCheck_ok_le hcheck hp) hpt
      · simp only [onCommit]
        rw [Act.modify_bind, Act.attempt_bind]
        cases hsync : WalStore.sync wal.store with
        | mk result s' =>
            have hstore : ∀ P : S → Prop, (∀ s, P s → P (WalStore.sync s).2) → P wal.store →
                P s' := by
              intro P hP hs
              have := hP _ hs
              rwa [hsync] at this
            cases result with
            | ok u =>
                rw [onStore_ok (by exact hsync)]
                dsimp only
                rw [Act.modify_bind]
                generalize hafter : Commit.afterFlush _ wal.commit.committed true = commit
                have hpoison : commit.poison = wal.commit.poison := by
                  rw [← hafter, Commit.afterFlush]
                  simp only [if_true]
                  split <;> rfl
                obtain ⟨htail, hmax, hsame, hok, hkeep⟩ :=
                  ih { wal with store := s', commit := commit }
                exact ⟨htail, hmax, hsame.trans hpoison, fun h t ht => hok h t (ht.congr hpoison),
                  fun P hP hs => hkeep P hP (hstore P hP hs)⟩
            | error fault =>
                rw [onStore_error (by exact hsync)]
                cases fault with
                | err e => exact ⟨rfl, rfl, rfl, (fun h => by cases h), hstore⟩
                | panics _ => exact ⟨rfl, rfl, rfl, (fun h => by cases h), hstore⟩
                | blocked => exact ⟨rfl, rfl, rfl, (fun h => by cases h), hstore⟩
      · exact ⟨rfl, rfl, rfl, (fun h => by cases h), fun _ _ hP => hP⟩

/-- A sync leaves the counter alone, keeps the log poisoned, and does not return Ok beyond
the poison. -/
structure Flushed (wal wal' : Wal S) (result : Except Fault Unit) : Prop where
  tail_eq : wal'.tail = wal.tail
  max_eq : wal'.maxRecordSize = wal.maxRecordSize
  poisoned : ∀ t, Poisoned t wal → Poisoned t wal'
  target_le : result = .ok () → ∀ t, Poisoned t wal → wal.tail ≤ t
  store : ∀ P : S → Prop, (∀ s, P s → P (WalStore.sync s).2) → P wal.store → P wal'.store

theorem sync_flushed (wal : Wal S) : Flushed wal (sync wal).2 (sync wal).1 := by
  rw [sync, Act.get_bind]
  by_cases hzero : wal.tail = 0
  · rw [if_pos hzero]
    exact ⟨rfl, rfl, fun _ ht => ht, fun _ _ _ => by rw [hzero]; exact Nat.zero_le _,
      fun _ _ hP => hP⟩
  · rw [if_neg hzero]
    obtain ⟨htail, hmax, hpoison, hok, hstore⟩ := syncRounds_effect 2 wal.tail wal
    exact ⟨htail, hmax, fun t ht => ht.congr hpoison, hok, hstore⟩

/-! ## Runs -/

theorem events_cons (wal : Wal S) (call : AppendOrSync) (calls : List AppendOrSync) :
    wal.events (call :: calls) =
      (wal.observe call).1 :: (wal.observe call).2.events calls := rfl

/-- A record above the maximum changes nothing. -/
theorem observe_tooLarge {wal : Wal S} {record : List UInt8}
    (h : ¬ record.length ≤ wal.maxRecordSize) :
    wal.observe (.append record) = (.append record wal.tail
      (.error (.err (.recordTooLarge record.length wal.maxRecordSize))), wal) := by
  rw [observe, append_tooLarge (Nat.not_le.mp h)]

/-- Where nothing more is admitted nothing more is granted. -/
theorem granted_none {wal : Wal S} {calls : List AppendOrSync}
    (h : admitted wal.maxRecordSize calls = []) : ∀ e ∈ wal.events calls, e.granted = none := by
  induction calls generalizing wal with
  | nil => exact nofun
  | cons call calls ih =>
      rw [events_cons, List.forall_mem_cons]
      cases call with
      | append record =>
          rw [admitted] at h
          split at h
          · cases h
          · rename_i hlen
            rw [observe_tooLarge hlen]
            exact ⟨rfl, ih h⟩
      | sync =>
          refine ⟨rfl, ih ?_⟩
          show admitted (sync wal).2.maxRecordSize calls = []
          rw [(sync_flushed wal).max_eq]
          exact h

/-- Once the log is poisoned no sync returns Ok beyond the poison. -/
theorem synced_le {wal : Wal S} {t : Nat} (h : Poisoned t wal) (calls : List AppendOrSync) :
    ∀ e ∈ wal.events calls, ∀ t' ∈ e.synced, t' ≤ t := by
  induction calls generalizing wal with
  | nil => exact nofun
  | cons call calls ih =>
      rw [events_cons, List.forall_mem_cons]
      cases call with
      | append record =>
          refine ⟨nofun, ?_⟩
          by_cases hlen : record.length ≤ wal.maxRecordSize
          · exact ih ((append_reserved hlen).poisoned t h)
          · rw [observe_tooLarge hlen]
            exact ih h
      | sync =>
          have hflush := sync_flushed wal
          refine ⟨fun t' ht' => ?_, ih (hflush.poisoned t h)⟩
          cases hresult : (sync wal).1 with
          | ok u =>
              rw [observe, hresult] at ht'
              cases ht'
              exact hflush.target_le hresult t h
          | error fault =>
              rw [observe, hresult] at ht'
              cases ht'

omit [WalStore S] in
/-- An append that returns Ok is given the range at the counter. -/
theorem Reserved.granted_le {record : List UInt8} {wal wal' : Wal S} {result : Except Fault Nat}
    (h : Reserved record wal wal' result) :
    ∀ r ∈ (Completion.append record wal.tail result).granted,
      wal.tail ≤ r.1 ∧ r.2 ≤ wal.tail + framedLen record.length := by
  intro r hr
  cases result with
  | ok lsn =>
      cases hr
      obtain ⟨rfl, -⟩ := h.lsn_eq lsn rfl
      exact ⟨Nat.le_refl _, Nat.le_refl _⟩
  | error fault => cases hr

theorem overflowAt_append {m t tail : Nat} {record : List UInt8} {result : Except Fault Nat}
    (h : t ∈ (Completion.append record tail result).overflowAt m) :
    tail = t ∧ 2 ^ 64 ≤ tail + framedLen record.length := by
  rw [Completion.overflowAt] at h
  split at h
  · rename_i hover
    cases h
    exact ⟨rfl, hover.2⟩
  · cases h

theorem failStop_nil (m base : Nat) : FailStop m base [] := ⟨nofun, .nil, .nil, .nil⟩

/-- One more event before a run that stops. -/
theorem FailStop.cons {m base base' : Nat} {e : Completion} {es : List Completion}
    (h : FailStop m base' es) (hbase : base ≤ base')
    (hgrant : ∀ r ∈ e.granted, base ≤ r.1 ∧ r.2 ≤ base')
    (hstop : ∀ t ∈ e.overflowAt m, ∀ e' ∈ es, e'.granted = none ∧ ∀ t' ∈ e'.synced, t' ≤ t) :
    FailStop m base (e :: es) where
  above := List.forall_mem_cons.mpr ⟨fun r hr => (hgrant r hr).1,
    fun e' he' r hr => Nat.le_trans hbase (h.above e' he' r hr)⟩
  ordered := .cons (fun e' he' r hr r' hr' =>
    Nat.le_trans (hgrant r hr).2 (h.above e' he' r' hr')) h.ordered
  stopped := .cons (fun e' he' t ht => (hstop t ht e' he').1) h.stopped
  unsynced := .cons (fun e' he' t ht => (hstop t ht e' he').2) h.unsynced

/-- Where nothing is granted any base will do. -/
theorem FailStop.rebase {m base base' : Nat} {es : List Completion} (h : FailStop m base es)
    (hnone : ∀ e ∈ es, e.granted = none) : FailStop m base' es where
  above := fun e he r hr => by
    rw [hnone e he] at hr
    cases hr
  ordered := h.ordered
  stopped := h.stopped
  unsynced := h.unsynced

/-- Where the records but the last fit, running out is fail-stop, over any store. -/
theorem failStop_of_fits {calls : List AppendOrSync} {wal : Wal S} (hlt : wal.tail < 2 ^ 64)
    (hfits : Fits wal.maxRecordSize wal.tail calls) :
    FailStop wal.maxRecordSize wal.tail (wal.events calls) := by
  induction calls generalizing wal with
  | nil => exact failStop_nil _ _
  | cons call calls ih =>
      rw [events_cons]
      cases call with
      | sync =>
          have hflush := sync_flushed wal
          have hrest : FailStop (sync wal).2.maxRecordSize (sync wal).2.tail _ :=
            @ih (sync wal).2 (by rw [hflush.tail_eq]; exact hlt) (by
              rw [hflush.tail_eq, hflush.max_eq]
              exact hfits)
          rw [hflush.max_eq, hflush.tail_eq] at hrest
          exact hrest.cons (Nat.le_refl _) nofun nofun
      | append record =>
          by_cases hlen : record.length ≤ wal.maxRecordSize
          · have hres := append_reserved hlen
            by_cases hlast : admitted wal.maxRecordSize calls = []
            · -- The last record that is admitted: it may run out, but nothing follows it.
              rw [← hres.max_eq] at hlast
              have hnone := granted_none hlast
              have htail : (append record wal).2.tail < 2 ^ 64 := by
                rw [hres.tail_eq]
                exact Nat.mod_lt _ (by decide)
              have hstop : FailStop _ (wal.tail + framedLen record.length) _ :=
                (ih htail (by rw [Fits, hlast]; exact htail)).rebase hnone
              rw [hres.max_eq] at hstop
              refine hstop.cons (Nat.le_add_right _ _) hres.granted_le fun t ht e' he' => ?_
              obtain ⟨rfl, hover⟩ := overflowAt_append ht
              exact ⟨hnone e' he', synced_le (hres.overflow hover) calls e' he'⟩
            · rw [fits_append hlen hlast] at hfits
              have hfit := hfits.tail_lt
              have htail := hres.tail_eq
              rw [Nat.mod_eq_of_lt hfit] at htail
              have hstop := @ih (append record wal).2 (by rw [htail]; exact hfit)
                (by rw [hres.max_eq, htail]; exact hfits)
              rw [hres.max_eq, htail] at hstop
              refine hstop.cons (Nat.le_add_right _ _) hres.granted_le fun t ht => ?_
              exact absurd (overflowAt_append ht).2 (Nat.not_le.mpr hfit)
          · rw [fits_tooLarge hlen] at hfits
            rw [observe_tooLarge hlen]
            refine (ih hlt hfits).cons (Nat.le_refl _) nofun fun t ht => ?_
            rw [Completion.overflowAt, if_neg fun hc => hlen hc.1] at ht
            cases ht

/-! ## A store that takes every write -/

/-- Every write that ends below `2^64` succeeds. -/
structure Accepts (P : S → Prop) : Prop where
  takes : ∀ {s : S} (off : Nat) (bytes : List UInt8), P s → off + bytes.length < 2 ^ 64 →
    ∃ s', WalStore.writeAt off bytes s = (.ok (), s') ∧ P s'
  flushes : ∀ s : S, P s → P (WalStore.sync s).2

/-- An append that reserves a range is granted it. -/
theorem Accepts.reserves {P : S → Prop} (h : Accepts P) {wal : Wal S} (hP : P wal.store)
    {record : List UInt8} (hlen : record.length ≤ wal.maxRecordSize) :
    P (append record wal).2.store ∧
      (wal.tail + framedLen record.length < 2 ^ 64 → (append record wal).1 = .ok wal.tail) := by
  rw [append, Act.get_bind, if_neg (Nat.not_lt.mpr hlen), Act.modify_bind]
  by_cases hfit : 2 ^ 64 ≤ wal.tail + framedLen record.length
  · rw [checkedAdd_of_le hfit]
    exact ⟨hP, fun hlt => absurd hfit (Nat.not_le.mpr hlt)⟩
  · have hlt := Nat.not_le.mp hfit
    obtain ⟨s', hwrite, hP'⟩ := h.takes wal.tail (encode [] record) hP
      (by rw [encode_length]; exact hlt)
    rw [checkedAdd_of_lt hlt]
    dsimp only
    rw [Act.attempt_bind, onStore_ok (by exact hwrite)]
    exact ⟨hP', fun _ => rfl⟩

/-- From a counter near the start of the log the next record that is admitted is granted. -/
theorem Accepts.grants {P : S → Prop} (h : Accepts P) {calls : List AppendOrSync} {wal : Wal S}
    (hP : P wal.store) (hroom : wal.tail + framedLen wal.maxRecordSize < 2 ^ 64)
    (hmore : admitted wal.maxRecordSize calls ≠ []) :
    ∃ e ∈ wal.events calls, e.granted ≠ none := by
  induction calls generalizing wal with
  | nil => exact absurd rfl hmore
  | cons call calls ih =>
      rw [events_cons]
      cases call with
      | append record =>
          by_cases hlen : record.length ≤ wal.maxRecordSize
          · refine ⟨_, List.mem_cons_self, ?_⟩
            have hok := (h.reserves hP hlen).2 (by unfold framedLen at hroom ⊢; omega)
            rw [observe, hok]
            exact nofun
          · rw [admitted, if_neg hlen] at hmore
            obtain ⟨e, he, hgrant⟩ := ih hP hroom hmore
            rw [observe_tooLarge hlen]
            exact ⟨e, List.mem_cons_of_mem _ he, hgrant⟩
      | sync =>
          have hflush := sync_flushed wal
          obtain ⟨e, he, hgrant⟩ := @ih (sync wal).2 (hflush.store P h.flushes hP)
            (by rw [hflush.tail_eq, hflush.max_eq]; exact hroom)
            (by rw [hflush.max_eq]; exact hmore)
          exact ⟨e, List.mem_cons_of_mem _ he, hgrant⟩

/-- After an append that has run out the counter has come round, and the next record that is
admitted is granted. -/
theorem Accepts.grants_past_overflow {P : S → Prop} (h : Accepts P) {calls : List AppendOrSync} {wal : Wal S}
    {record : List UInt8} (hm : wal.maxRecordSize < 2 ^ 32) (hlt : wal.tail < 2 ^ 64)
    (hP : P wal.store) (hlen : record.length ≤ wal.maxRecordSize)
    (hover : 2 ^ 64 ≤ wal.tail + framedLen record.length)
    (hmore : admitted wal.maxRecordSize calls ≠ []) :
    ∃ e ∈ (append record wal).2.events calls, e.granted ≠ none := by
  have hres := append_reserved hlen
  have htail : (append record wal).2.tail = wal.tail + framedLen record.length - 2 ^ 64 := by
    rw [hres.tail_eq]
    unfold framedLen headerLen at hover ⊢
    omega
  refine h.grants (h.reserves hP hlen).1 ?_ (by rw [hres.max_eq]; exact hmore)
  rw [htail, hres.max_eq]
  unfold framedLen headerLen
  omega

/-- Over such a store the records but the last fit wherever no append is granted after one
that ran out. -/
theorem Accepts.fits {P : S → Prop} (h : Accepts P) {calls : List AppendOrSync} {wal : Wal S}
    (hm : wal.maxRecordSize < 2 ^ 32) (hlt : wal.tail < 2 ^ 64) (hP : P wal.store)
    (hstop : (wal.events calls).Pairwise fun e e' =>
      ∀ t ∈ e.overflowAt wal.maxRecordSize, e'.granted = none) :
    Fits wal.maxRecordSize wal.tail calls := by
  induction calls generalizing wal with
  | nil => exact hlt
  | cons call calls ih =>
      rw [events_cons, List.pairwise_cons] at hstop
      obtain ⟨hfirst, hrest⟩ := hstop
      cases call with
      | sync =>
          have hflush := sync_flushed wal
          have hfits := @ih (sync wal).2 (by rw [hflush.max_eq]; exact hm)
            (by rw [hflush.tail_eq]; exact hlt) (hflush.store P h.flushes hP)
            (by rw [hflush.max_eq]; exact hrest)
          rw [hflush.max_eq, hflush.tail_eq] at hfits
          exact hfits
      | append record =>
          by_cases hlen : record.length ≤ wal.maxRecordSize
          · have hres := append_reserved hlen
            by_cases hmore : admitted wal.maxRecordSize calls = []
            · exact fits_last hmore hlt
            by_cases hfit : wal.tail + framedLen record.length < 2 ^ 64
            · have htail := hres.tail_eq
              rw [Nat.mod_eq_of_lt hfit] at htail
              have hfits := @ih (append record wal).2 (by rw [hres.max_eq]; exact hm)
                (by rw [htail]; exact hfit) (h.reserves hP hlen).1
                (by rw [hres.max_eq]; exact hrest)
              rw [hres.max_eq, htail] at hfits
              exact (fits_append hlen hmore).mpr hfits
            · have hover := Nat.not_lt.mp hfit
              obtain ⟨e, he, hgrant⟩ := h.grants_past_overflow hm hlt hP hlen hover hmore
              refine absurd (hfirst e he wal.tail ?_) hgrant
              show wal.tail ∈ Completion.overflowAt _ _
              rw [observe, Completion.overflowAt, if_pos ⟨hlen, hover⟩]
              rfl
          · rw [observe_tooLarge hlen] at hrest
            exact (fits_tooLarge hlen).mpr (ih hm hlt hP hrest)

theorem accepts_ready : Accepts SegmentedStore.Ready where
  takes off bytes hready hfit := by
    obtain ⟨s', hrun, hw⟩ := SegmentedStore.writeAt_ok hready hfit
    exact ⟨s', hrun, hw.toReady⟩
  flushes s hready := by
    obtain ⟨s', hrun, hs⟩ := SegmentedStore.sync_ok hready
    rw [hrun]
    exact hs.toReady

/-- A directory whose last segment ends at the last offset, with everything below dropped. -/
def lastOffset : Dir where
  segments := (∅ : AList fun _ : Nat => File).insert (2 ^ 61 - 1)
    ⟨List.replicate 7 0, List.replicate 7 0⟩
  headFile := some (toLe 8 (2 ^ 64 - 1) ++ toLe 4 (crc32c (toLe 8 (2 ^ 64 - 1))).toNat)
  headTmpFile := none
  faults := []

/-- Running out of offsets is fail-stop where the records but the last end below `2^64`,
over any store; and over a store that takes every write it is not where they do not. -/
theorem failStop_iff_fits {wal : Wal S} (hm : wal.maxRecordSize < 2 ^ 32)
    (hlt : wal.tail < 2 ^ 64) (calls : List AppendOrSync) :
    (Fits wal.maxRecordSize wal.tail calls →
        FailStop wal.maxRecordSize wal.tail (wal.events calls)) ∧
      ∀ P : S → Prop, Accepts P → P wal.store →
        FailStop wal.maxRecordSize wal.tail (wal.events calls) →
          Fits wal.maxRecordSize wal.tail calls :=
  ⟨failStop_of_fits hlt, fun _ hacc hP hstop => hacc.fits hm hlt hP hstop.stopped⟩

/-- A log at the last offset.  Running out with the last record is fail-stop; one more append
is one too many. -/
theorem failStop_iff_fits_last :
    ∃ wal : Wal SegmentedStore, openSegmentedWith smallRecords 8 false lastOffset = .ok wal ∧
      wal.tail = 2 ^ 64 - 1 ∧ (append [] wal).1 ≠ .ok wal.tail ∧
      FailStop wal.maxRecordSize wal.tail (wal.events [.append [], .sync]) ∧
      ¬ FailStop wal.maxRecordSize wal.tail (wal.events [.append [], .append []]) := by
  have hobs : ((openSegmentedWith smallRecords 8 false lastOffset).toOption.map fun wal =>
      decide (wal.maxRecordSize = 100 ∧ wal.tail = 2 ^ 64 - 1 ∧
        (append [] wal).1 ≠ .ok wal.tail)) = some true := by decide +kernel
  obtain ⟨wal, hopen, hobs⟩ := Option.map_eq_some_iff.mp hobs
  obtain ⟨hmax, htail, happend⟩ := of_decide_eq_true hobs
  have hopen := Act.eq_ok_of_toOption hopen
  obtain ⟨s, -, hfound⟩ := openSegmentedWith_found rfl rfl hopen
  have hm : wal.maxRecordSize < 2 ^ 32 := by omega
  have hlt : wal.tail < 2 ^ 64 := by omega
  refine ⟨wal, hopen, htail, happend, (failStop_iff_fits hm hlt _).1 ?_, fun hstop => ?_⟩
  · rw [hmax, htail]
    decide
  · have hfits := (failStop_iff_fits hm hlt _).2 _ accepts_ready hfound.steady.ready hstop
    rw [hmax, htail] at hfits
    exact absurd hfits (by decide)

/-- The counter is at `2^64 - 1`.  An empty record does not fit any more, and its append
fails; the next one is given the range from 7 on and returns Ok. -/
theorem append_wraps_around :
    ∃ wal : Wal SegmentedStore, openSegmentedWith smallRecords 8 false lastOffset = .ok wal ∧
      wal.tail = 2 ^ 64 - 1 ∧
      (append [] wal).1 = .error (.err (.io "reserving a record offset"
        (.other "log size exceeds u64"))) ∧
      (append [] (append [] wal).2).1 = .ok 7 := by
  have hobs : ((openSegmentedWith smallRecords 8 false lastOffset).toOption.map fun wal =>
      decide (wal.tail = 2 ^ 64 - 1 ∧
        (append [] wal).1 = .error (.err (.io "reserving a record offset"
          (.other "log size exceeds u64"))) ∧
        (append [] (append [] wal).2).1 = .ok 7)) = some true := by decide +kernel
  obtain ⟨wal, hopen, hobs⟩ := Option.map_eq_some_iff.mp hobs
  exact ⟨wal, Act.eq_ok_of_toOption hopen, of_decide_eq_true hobs⟩

end Wal
end WalDb
