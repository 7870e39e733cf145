/-
The write-ahead log (`wal.rs`): append, sync, iterate, truncate, open.

These are the calls of one thread, run to completion; where the source would wait
for another thread the call ends in `Fault.blocked`.  The frame buffer is
thread-local and cleared by every `encode`, so each append frames into an empty
one.
-/
import WalDb.Commit
import WalDb.Strict.Classify

namespace WalDb

open Lib Record

/-- A log over a store. -/
structure Wal (S : Type) where
  tail : Nat
  store : S
  maxRecordSize : Nat
  recoveryPolicy : RecoveryPolicy
  head : Nat
  commit : Commit.State
  truncatedOnOpen : Nat

/-- The outcome of the open scan: where the intact records end, and how many
bytes past that point the store held. -/
structure Recovered where
  endAt : Nat
  cut : Nat
  deriving DecidableEq, Repr

section Recover

variable {S : Type} [WalStore S]

/-- One round of the scanning loop of `recover`: the offset after the record at
`offset`, or `none` where the loop breaks. -/
def scanStep (m offset : Nat) : Act S Fault (Option Nat) := do
  let header ← WalStore.readAt offset headerLen
  -- An incomplete header is a torn tail.
  if header.length < headerLen then pure none
  else
    let parsed := parseHeader header
    -- With an implausible length the rest is a torn tail.
    if m < parsed.len then pure none
    else
      match checkedAdd offset headerLen with
      | none => pure none
      | some payloadStart => do
          let payload ← WalStore.readAt payloadStart parsed.len
          if payload.length < parsed.len then pure none
          else if verify header payload parsed.crc = false then pure none
          else pure (checkedAdd payloadStart parsed.len)

/-- Every round that goes on moves forward, whatever the store returned. -/
theorem scanStep_gt {m offset next : Nat} {s s' : S}
    (h : scanStep m offset s = (.ok (some next), s')) : offset < next := by
  unfold scanStep at h
  obtain ⟨header, s1, -, h⟩ := Act.bind_eq_ok h
  by_cases hshort : header.length < headerLen
  · rw [if_pos hshort] at h
    cases h
  rw [if_neg hshort] at h
  by_cases hbig : m < (parseHeader header).len
  · rw [if_pos hbig] at h
    cases h
  rw [if_neg hbig] at h
  cases h1 : checkedAdd offset headerLen with
  | none =>
      rw [h1] at h
      cases h
  | some payloadStart =>
      rw [h1] at h
      obtain ⟨payload, s2, -, h⟩ := Act.bind_eq_ok h
      by_cases hpay : payload.length < (parseHeader header).len
      · rw [if_pos hpay] at h
        cases h
      rw [if_neg hpay] at h
      by_cases hver : verify header payload (parseHeader header).crc = false
      · rw [if_pos hver] at h
        cases h
      rw [if_neg hver] at h
      have h2 : checkedAdd payloadStart (parseHeader header).len = some next := by
        simpa using congrArg Prod.fst h
      have e1 := (checkedAdd_eq_some h1).1
      have e2 := (checkedAdd_eq_some h2).1
      have h8 : headerLen = 8 := rfl
      omega

/-- The scanning loop of `recover`. -/
def scan (m physical offset : Nat) : Act S Fault Nat := fun s =>
  if offset < physical then
    match _h : scanStep m offset s with
    | (.ok (some next), s') => scan m physical next s'
    | (.ok none, s') => (.ok offset, s')
    | (.error fault, s') => (.error fault, s')
  else (.ok offset, s)
termination_by physical - offset
decreasing_by
  have hgt := scanStep_gt _h
  omega

theorem scan_next {m physical offset next : Nat} {s s' : S} (hlt : offset < physical)
    (h : scanStep m offset s = (.ok (some next), s')) :
    scan m physical offset s = scan m physical next s' := by
  rw [scan, if_pos hlt]
  split <;> rename_i heq <;> rw [h] at heq <;> cases heq
  rfl

theorem scan_break {m physical offset : Nat} {s s' : S} (hlt : offset < physical)
    (h : scanStep m offset s = (.ok none, s')) : scan m physical offset s = (.ok offset, s') := by
  rw [scan, if_pos hlt]
  split <;> rename_i heq <;> rw [h] at heq <;> cases heq
  rfl

theorem scan_error {m physical offset : Nat} {s s' : S} {fault : Fault} (hlt : offset < physical)
    (h : scanStep m offset s = (.error fault, s')) :
    scan m physical offset s = (.error fault, s') := by
  rw [scan, if_pos hlt]
  split <;> rename_i heq <;> rw [h] at heq <;> cases heq
  rfl

theorem scan_past {m physical offset : Nat} (h : ¬ offset < physical) (s : S) :
    scan m physical offset s = (.ok offset, s) := by
  rw [scan, if_neg h]

/-- The end of `recover` where the scan stopped short of the store's length:
unless the policy is strict and the cut would lose data, cut the store there. -/
def cutTail (config : WalConfig) (offset physical : Nat) : Act S Fault Unit :=
  if config.openPolicy = .strict then do
    match ← Strict.classify config.maxRecordSize offset physical with
    | .torn => WalStore.truncate offset
    | .intactAfter =>
        Act.fail (.err (.corruption offset "intact data follows a damaged record"))
    | .unreadable =>
        Act.fail (.err (.corruption offset
          "the log cannot be read to its end after a damaged record"))
    | .oversized =>
        Act.fail (.err (.corruption offset "an intact record is longer than max_record_size"))
  else WalStore.truncate offset

/-- Scan from `head` for the end of the intact records, and cut the store there. -/
def recover (config : WalConfig) (head : Nat) : Act S Fault Recovered := do
  let physical ← WalStore.len
  let offset ← scan config.maxRecordSize physical head
  if offset < physical then do
    cutTail config offset physical
    pure { endAt := offset, cut := physical - offset }
  else pure { endAt := offset, cut := physical - offset }

end Recover

namespace Wal

variable {S : Type} [WalStore S]

/-- `with_store_and_config`.  The action's state is the store, which outlives a
failed open. -/
def withStoreAndConfig (config : WalConfig) : Act S Fault (Wal S) := do
  let head ← WalStore.head
  let recovered ← recover config head
  let store ← Act.get
  pure
    { tail := recovered.endAt
      store := store
      maxRecordSize := config.maxRecordSize
      recoveryPolicy := config.recoveryPolicy
      head := head
      commit := Commit.new recovered.endAt
      truncatedOnOpen := recovered.cut }

/-- Run a store operation inside the log. -/
def onStore {α : Type} (x : Act S Fault α) : Act (Wal S) Fault α :=
  Act.zoom Wal.store (fun wal store => { wal with store := store }) x

/-- Replace the state under the commit lock. -/
def onCommit (f : Commit.State → Commit.State) : Act (Wal S) Fault Unit :=
  Act.modify fun wal => { wal with commit := f wal.commit }

/-! ## Appending -/

def append (record : List UInt8) : Act (Wal S) Fault Nat := do
  let wal ← Act.get
  if wal.maxRecordSize < record.length then
    Act.fail (.err (.recordTooLarge record.length wal.maxRecordSize))
  else do
    let frameLen := framedLen record.length
    let start := wal.tail
    -- `fetch_add` on the atomic tail wraps.
    Act.modify fun wal => { wal with tail := (start + frameLen) % 2 ^ 64 }
    match checkedAdd start frameLen with
    | none => do
        onCommit fun st => (Commit.markFailed st start).1
        Act.fail (.err (.io "reserving a record offset" (.other "log size exceeds u64")))
    | some endAt => do
        match ← Act.attempt (onStore (WalStore.writeAt start (encode [] record))) with
        | .ok () => do
            onCommit fun st => (Commit.markWritten st start endAt).1
            pure start
        | .error (.err e) => do
            onCommit fun st => (Commit.markFailed st start).1
            Act.fail (.err e)
        | .error fault => Act.fail fault

/-! ## Syncing -/

/-- The loop of `sync_to`, for at most `rounds` rounds. -/
def syncRounds : Nat → Nat → Act (Wal S) Fault Unit
  | 0, _ => Act.fail .blocked
  | rounds + 1, target => do
      let wal ← Act.get
      let (commit, exit) := Commit.syncCheck wal.commit target
      onCommit fun _ => commit
      match exit with
      | .done (.ok ()) => pure ()
      | .done (.error e) => Act.fail (.err e)
      | .wait => Act.fail .blocked
      | .lead flushTo => do
          match ← Act.attempt (onStore WalStore.sync) with
          | .ok () => do
              onCommit fun st => Commit.afterFlush st flushTo true
              syncRounds rounds target
          | .error (.err e) => do
              onCommit fun st => Commit.afterFlush st flushTo false
              Act.fail (.err e)
          | .error fault => Act.fail fault

/-- `Commit::sync_to`.  A flush that succeeds makes the next round return, so
two rounds are all the loop takes. -/
def syncTo (target : Nat) : Act (Wal S) Fault Unit := syncRounds 2 target

def sync : Act (Wal S) Fault Unit := do
  let wal ← Act.get
  if wal.tail = 0 then pure () else syncTo wal.tail

def appendAndSync (record : List UInt8) : Act (Wal S) Fault Nat := do
  let lsn ← append record
  syncTo (lsn + framedLen record.length)
  pure lsn

/-! ## Truncating -/

/-- The checks of `truncate_after`: where the record at `lsn` ends, if an intact
one is there. -/
def keptEnd (lsn : Nat) : Act (Wal S) Fault Nat := do
  let wal ← Act.get
  let header ← onStore (WalStore.readAt lsn headerLen)
  if header.length < headerLen then Act.fail (.err (.corruption lsn "no record at this LSN"))
  else
    let parsed := parseHeader header
    if wal.maxRecordSize < parsed.len then
      Act.fail (.err (.corruption lsn "no valid record at this LSN"))
    else
      match checkedAdd lsn headerLen with
      | none => Act.fail (.err (.corruption lsn "record offset overflow"))
      | some payloadStart => do
          let payload ← onStore (WalStore.readAt payloadStart parsed.len)
          if payload.length < parsed.len then
            Act.fail (.err (.corruption lsn "incomplete record at this LSN"))
          else if verify header payload parsed.crc = false then
            Act.fail (.err (.corruption lsn "no valid record at this LSN"))
          else
            match checkedAdd payloadStart parsed.len with
            | none => Act.fail (.err (.corruption lsn "record offset overflow"))
            | some newEnd => pure newEnd

def truncateAfter (lsn : Nat) : Act (Wal S) Fault Unit := do
  let newEnd ← keptEnd lsn
  onStore (WalStore.truncate newEnd)
  onStore WalStore.sync
  Act.modify fun wal => { wal with tail := newEnd }
  onCommit fun st => Commit.reset st newEnd

def truncateBefore (lsn : Nat) : Act (Wal S) Fault Nat := do
  let newHead ← onStore (WalStore.truncateBefore lsn)
  Act.modify fun wal => { wal with head := newHead }
  pure newHead

/-! ## Iterating -/

/-- A record read back from the log. -/
structure Record where
  lsn : Nat
  data : List UInt8
  deriving DecidableEq, Repr

/-- One step of iteration.  `damaged` carries the offset to continue at, where
the damage leaves it known. -/
inductive Step where
  | record (r : Record) (next : Nat)
  | damaged (e : WalError) (next : Option Nat)
  | ended

/-- An iterator over a log's records in order. -/
structure Iter where
  offset : Nat
  endAt : Nat
  done : Bool
  policy : RecoveryPolicy

def iter (wal : Wal S) : Iter where
  offset := wal.head
  endAt := wal.commit.committed
  done := false
  policy := wal.recoveryPolicy

def iterFrom (wal : Wal S) (lsn : Nat) : Iter where
  offset := min (max lsn wal.head) wal.commit.committed
  endAt := wal.commit.committed
  done := false
  policy := wal.recoveryPolicy

namespace Iter

/-- Read the record at the iterator's offset. -/
def step (it : Iter) : Act (Wal S) Fault Step := do
  let wal ← Act.get
  let header ← onStore (WalStore.readAt it.offset headerLen)
  if header.length < headerLen then pure .ended
  else
    let parsed := parseHeader header
    if wal.maxRecordSize < parsed.len then
      pure (.damaged (.corruption it.offset "record length exceeds the maximum") none)
    else
      match checkedAdd it.offset headerLen with
      | none => Act.fail (.err (.corruption it.offset "record offset overflow"))
      | some payloadStart => do
          let payload ← onStore (WalStore.readAt payloadStart parsed.len)
          if payload.length < parsed.len then pure .ended
          else
            match checkedAdd payloadStart parsed.len with
            | none => Act.fail (.err (.corruption it.offset "record offset overflow"))
            | some next =>
                if verify header payload parsed.crc = false then
                  pure (.damaged (.corruption it.offset "checksum mismatch") (some next))
                else pure (.record { lsn := it.offset, data := payload } next)

/-- `Iterator::next`: the item, if any, and the iterator afterwards. -/
def next (it : Iter) : Act (Wal S) Fault (Option (Except WalError Record) × Iter) :=
  if it.done = true ∨ it.endAt ≤ it.offset then pure (none, it)
  else do
    match ← Act.attempt it.step with
    | .ok (.record r next) => pure (some (.ok r), { it with offset := next })
    | .ok (.damaged e (some next)) =>
        if it.policy = .skipBadRecords then pure (some (.error e), { it with offset := next })
        else pure (some (.error e), { it with done := true })
    | .ok (.damaged e none) => pure (some (.error e), { it with done := true })
    | .ok .ended => pure (none, { it with done := true })
    | .error (.err e) => pure (some (.error e), { it with done := true })
    | .error fault => Act.fail fault

/-- The offset a step lets the iteration continue at. -/
def continueAt : Step → Option Nat
  | .record _ next => some next
  | .damaged _ next => next
  | .ended => none

/-- A step that knows where to continue moves forward, whatever the store
returned. -/
theorem step_continueAt_gt {it : Iter} {wal wal' : Wal S} {st : Step} {n : Nat}
    (h : it.step wal = (.ok st, wal')) (hn : continueAt st = some n) : it.offset < n := by
  unfold step at h
  obtain ⟨w, s1, -, h⟩ := Act.bind_eq_ok h
  obtain ⟨header, s2, -, h⟩ := Act.bind_eq_ok h
  by_cases hshort : header.length < headerLen
  · rw [if_pos hshort] at h
    cases h
    cases hn
  rw [if_neg hshort] at h
  by_cases hbig : w.maxRecordSize < (parseHeader header).len
  · rw [if_pos hbig] at h
    cases h
    cases hn
  rw [if_neg hbig] at h
  cases h1 : checkedAdd it.offset headerLen with
  | none =>
      rw [h1] at h
      cases h
  | some payloadStart =>
      rw [h1] at h
      obtain ⟨payload, s3, -, h⟩ := Act.bind_eq_ok h
      by_cases hpay : payload.length < (parseHeader header).len
      · rw [if_pos hpay] at h
        cases h
        cases hn
      rw [if_neg hpay] at h
      cases h2 : checkedAdd payloadStart (parseHeader header).len with
      | none =>
          rw [h2] at h
          cases h
      | some next =>
          have hnext : continueAt st = some next := by
            rw [h2] at h
            dsimp only at h
            split at h <;> cases h <;> rfl
          rw [hn] at hnext
          cases hnext
          have e1 := (checkedAdd_eq_some h1).1
          have e2 := (checkedAdd_eq_some h2).1
          have h8 : headerLen = 8 := rfl
          omega

/-- What is left to iterate: nothing once done, and less after every item. -/
def left (it : Iter) : Nat := if it.done then 0 else it.endAt - it.offset + 1

theorem next_left_lt {it it' : Iter} {wal wal' : Wal S} {item : Except WalError Record}
    (h : it.next wal = (.ok (some item, it'), wal')) : it'.left < it.left := by
  unfold next at h
  by_cases hstop : it.done = true ∨ it.endAt ≤ it.offset
  · rw [if_pos hstop] at h
    cases h
  rw [if_neg hstop, Act.attempt_bind] at h
  have hdone : it.done = false := by
    cases hd : it.done
    · rfl
    · exact absurd (Or.inl hd) hstop
  have hlt : it.offset < it.endAt := by
    by_contra hge
    exact hstop (Or.inr (by omega))
  have hleft : it.left = it.endAt - it.offset + 1 := by simp [left, hdone]
  -- An item either finishes the iterator or moves it forward.
  have hmove : ∀ n, it.offset < n → ({ it with offset := n } : Iter).left < it.left := by
    intro n hn
    rw [hleft]
    simp only [left, hdone, Bool.false_eq_true, if_false]
    omega
  have hfin : ({ it with done := true } : Iter).left < it.left := by
    rw [hleft]
    simp [left]
  cases hs : it.step wal with
  | mk r w =>
      rw [hs] at h
      have hgt : ∀ st n, r = .ok st → continueAt st = some n → it.offset < n := by
        intro st n hr hn
        rw [hr] at hs
        exact step_continueAt_gt hs hn
      dsimp only at h
      split at h
      · cases h
        exact hmove _ (hgt _ _ rfl rfl)
      · split at h <;> cases h
        · exact hmove _ (hgt _ _ rfl rfl)
        · exact hfin
      · cases h
        exact hfin
      · cases h
      · cases h
        exact hfin
      · cases h

/-- The items of an iterator, to its end.  Every iterator ends. -/
def collect (it : Iter) : Act (Wal S) Fault (List (Except WalError Record)) := fun wal =>
  match _h : it.next wal with
  | (.ok (none, _), wal') => (.ok [], wal')
  | (.error fault, wal') => (.error fault, wal')
  | (.ok (some item, it'), wal') =>
      match it'.collect wal' with
      | (.ok items, wal'') => (.ok (item :: items), wal'')
      | (.error fault, wal'') => (.error fault, wal'')
termination_by it.left
decreasing_by exact next_left_lt _h

theorem collect_none {it it' : Iter} {wal wal' : Wal S}
    (h : it.next wal = (.ok (none, it'), wal')) : it.collect wal = (.ok [], wal') := by
  rw [collect]
  split <;> rename_i heq <;> rw [h] at heq <;> cases heq
  rfl

theorem collect_some {it it' : Iter} {wal wal' wal'' : Wal S} {item : Except WalError Record}
    {items : List (Except WalError Record)}
    (h : it.next wal = (.ok (some item, it'), wal'))
    (hrest : it'.collect wal' = (.ok items, wal'')) :
    it.collect wal = (.ok (item :: items), wal'') := by
  rw [collect]
  split <;> rename_i heq <;> rw [h] at heq <;> cases heq
  rw [hrest]

end Iter

end Wal

end WalDb
