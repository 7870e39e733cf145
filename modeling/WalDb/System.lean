/-
Threads calling `append`, `append_and_sync` and `sync` on one log.

A thread's state is its position in the call it is in.  A step is what one thread
does without another being able to see it half done: the atomic reservation, some
bytes of a write reaching the store, the return of a store operation, a critical
section of the commit lock.  A run is any list of steps, so every interleaving is
one, with any number of threads.

The store under the log is any store that keeps the `WalStore` contract: a write
may fail after any initial part of its bytes, and a flush that succeeds makes
durable every write that had returned when it began.  A flush that fails may drop,
for good, any bytes that were not durable yet.  `stable` is what the flushes so
far guarantee; a power loss leaves those bytes and says nothing of the others.

The fields below `wal` and `threads` are for the proofs only: the payloads of every
reservation in order, where each write stands, the end of the reservations had
the tail not wrapped, and the targets for which a sync has returned success.
-/
import WalDb.Decode
import WalDb.Wal
import WalDb.Watermark
import WalDb.Lib.Overwrite
import WalDb.Lib.Run

namespace WalDb

open Lib Record

/-- How an operation of a single-threaded call ends: as it should, with an error
that leaves the store as it was, or with an error that comes when a `truncate` has
already cut the store to `len` bytes. -/
inductive Outcome where
  | ok
  | fails
  | cuts (len : Nat)
  deriving DecidableEq, Repr

/-- A store that keeps the contract, and what has become of each byte. -/
structure Disk where
  data : List UInt8
  stable : Image UInt8
  returned : Nat → Bool
  lost : Nat → Bool
  /-- How the next operations of a single-threaded call end. -/
  faults : List Outcome

namespace Disk

/-- The bytes of the writes that have returned. -/
def snapshot (d : Disk) : Image UInt8 := fun o => if d.returned o then d.data[o]? else none

/-- Some bytes of a write arrive. -/
def land (d : Disk) (offset : Nat) (bytes : List UInt8) : Disk :=
  { d with data := overwrite d.data offset bytes }

/-- A write of `n` bytes at `offset` returns. -/
def finish (d : Disk) (offset n : Nat) : Disk :=
  { d with returned := fun o => d.returned o || (decide (offset ≤ o) && decide (o < offset + n)) }

/-- A flush that began with `snap` succeeds. -/
def flushed (d : Disk) (snap : Image UInt8) : Disk :=
  { d with stable := fun o => if d.lost o then d.stable o else (snap o).or (d.stable o) }

/-- A flush fails, and of the bytes that were not durable the `dropped` ones are
gone for good. -/
def flushFailed (d : Disk) (dropped : Nat → Bool) : Disk :=
  { d with lost := fun o => d.lost o || (dropped o && (d.stable o).isNone) }

/-- The bytes from `len` on are gone, and no flush so far vouches for what is
written there next. -/
def cut (d : Disk) (len : Nat) : Disk :=
  { d with
    data := d.data.take len
    returned := fun o => d.returned o && decide (o < len)
    stable := fun o => if o < len then d.stable o else none }

/-- How the next operation ends, and the store without that decision. -/
def nextFault (d : Disk) : Outcome × Disk :=
  (d.faults.headD .ok, { d with faults := d.faults.tail })

def osError (context : String) : Fault := .err (.io context .os)

def writeAt (offset : Nat) (bytes : List UInt8) : Act Disk Fault Unit := fun d =>
  match d.nextFault with
  | (.ok, d) => (.ok (), (d.land offset bytes).finish offset bytes.length)
  | (_, d) => (.error (osError "writing a record"), d)

def readAt (offset n : Nat) : Act Disk Fault (List UInt8) := fun d =>
  match d.nextFault with
  | (.ok, d) => (.ok ((d.data.drop offset).take n), d)
  | (_, d) => (.error (osError "reading from the log"), d)

def truncate (len : Nat) : Act Disk Fault Unit := fun d =>
  match d.nextFault with
  | (.ok, d) => (.ok (), d.cut len)
  | (.fails, d) => (.error (osError "truncating the log"), d)
  | (.cuts n, d) => (.error (osError "truncating the log"), d.cut (max len n))

def sync : Act Disk Fault Unit := fun d =>
  match d.nextFault with
  | (.ok, d) => (.ok (), d.flushed d.snapshot)
  | (_, d) => (.error (osError "flushing to stable storage"), d.flushFailed fun _ => true)

instance : WalStore Disk where
  writeAt := writeAt
  readAt := readAt
  truncate := truncate
  sync := sync
  len := fun d => (.ok d.data.length, d)

end Disk

/-- Where a thread is.  `writing` has put `done` bytes of its frame into the store;
`flushing` is inside the store's `sync` with what it will make durable, and
`relocking` has come out of it. -/
inductive Pc where
  | idle
  | overflowed (start : Nat)
  | writing (start : Nat) (record : List UInt8) (done : Nat) (thenSync : Bool)
  | marking (start : Nat) (record : List UInt8) (ok thenSync : Bool)
  | entering (target : Nat)
  | flushing (target flushTo : Nat) (snap : Image UInt8)
  | relocking (target flushTo : Nat) (ok : Bool)
  | waiting (target : Nat)
  | woken (target : Nat)

/-- A log with the threads using it. -/
structure Sys where
  wal : Wal Disk
  threads : Nat → Pc
  log : List (List UInt8)
  status : Nat → Commit.Status
  reserved : Nat
  acks : List Nat

/-- What a thread does next. -/
inductive Action where
  /-- Call `append`, or `append_and_sync`: check the length, reserve a range. -/
  | append (t : Nat) (record : List UInt8) (thenSync : Bool)
  /-- The next `n` bytes of the frame reach the store. -/
  | land (t n : Nat)
  /-- The store's `write_at` returns. -/
  | wrote (t : Nat) (ok : Bool)
  /-- `mark_written` or `mark_failed`. -/
  | mark (t : Nat)
  /-- Call `sync`: load the tail. -/
  | sync (t : Nat)
  /-- `sync_to` takes the lock for its first round. -/
  | enter (t : Nat)
  /-- The store's `sync` returns. -/
  | flush (t : Nat) (ok : Bool) (dropped : Nat → Bool)
  /-- The leader takes the lock again. -/
  | relock (t : Nat)
  /-- A wait ends without a notification. -/
  | spurious (t : Nat)
  /-- A woken thread takes the lock again. -/
  | wake (t : Nat)

namespace Sys

def setPc (threads : Nat → Pc) (t : Nat) (pc : Pc) : Nat → Pc :=
  fun u => if u = t then pc else threads u

/-- `notify_all`. -/
def notifyAll (threads : Nat → Pc) : Nat → Pc := fun u =>
  match threads u with
  | .waiting target => .woken target
  | pc => pc

def withCommit (s : Sys) (st : Commit.State) : Sys := { s with wal := { s.wal with commit := st } }

def withStore (s : Sys) (d : Disk) : Sys := { s with wal := { s.wal with store := d } }

/-- Thread `t` leaves the lock as a round of `sync_to` says. -/
def leave (s : Sys) (t target : Nat) : Commit.Exit → Sys
  | .done (.ok ()) =>
      { s with threads := setPc s.threads t .idle, acks := target :: s.acks }
  | .done (.error _) => { s with threads := setPc s.threads t .idle }
  | .lead flushTo =>
      { s with threads := setPc s.threads t (.flushing target flushTo s.wal.store.snapshot) }
  | .wait => { s with threads := setPc s.threads t (.waiting target) }

/-- One round of `sync_to` by thread `t`, which holds the lock. -/
def round (s : Sys) (t target : Nat) : Sys :=
  let r := Commit.syncCheck s.wal.commit target
  leave (s.withCommit r.1) t target r.2

/-- Reserve a range and go on to write it. -/
def reserve (s : Sys) (t : Nat) (record : List UInt8) (thenSync : Bool) : Sys :=
  let start := s.wal.tail
  let frameLen := framedLen record.length
  { wal := { s.wal with tail := (start + frameLen) % 2 ^ 64 }
    threads := setPc s.threads t
      (match checkedAdd start frameLen with
        | some _ => .writing start record 0 thenSync
        | none => .overflowed start)
    log := s.log ++ [record]
    status := Commit.setStatus s.status start .inflight
    reserved := s.reserved + frameLen
    acks := s.acks }

/-- Record the end of a write under the lock, and wake whoever waits for it. -/
def settle (s : Sys) (t start : Nat) (status : Commit.Status) (r : Commit.State × Bool)
    (pc : Pc) : Sys :=
  { s with
    wal := { s.wal with commit := r.1 }
    status := Commit.setStatus s.status start status
    threads := setPc (if r.2 then notifyAll s.threads else s.threads) t pc }

def step (s : Sys) : Action → Option Sys
  | .append t record thenSync =>
      match s.threads t with
      | .idle =>
          -- A record that is too large is refused before anything is reserved.
          if s.wal.maxRecordSize < record.length then some s
          else some (s.reserve t record thenSync)
      | _ => none
  | .land t n =>
      match s.threads t with
      | .writing start record done thenSync =>
          if 0 < n ∧ done + n ≤ framedLen record.length then
            some { s.withStore (s.wal.store.land (start + done)
                      (((encode [] record).drop done).take n)) with
                   threads := setPc s.threads t (.writing start record (done + n) thenSync) }
          else none
      | _ => none
  | .wrote t ok =>
      match s.threads t with
      | .writing start record done thenSync =>
          if ok = true then
            if done = framedLen record.length then
              some { s.withStore (s.wal.store.finish start (framedLen record.length)) with
                     threads := setPc s.threads t (.marking start record true thenSync) }
            else none
          else some { s with threads := setPc s.threads t (.marking start record false thenSync) }
      | _ => none
  | .mark t =>
      match s.threads t with
      | .marking start record true thenSync =>
          let endAt := start + framedLen record.length
          some (s.settle t start .written (Commit.markWritten s.wal.commit start endAt)
            (if thenSync then .entering endAt else .idle))
      | .marking start _ false _ =>
          some (s.settle t start .failed (Commit.markFailed s.wal.commit start) .idle)
      | .overflowed start =>
          some (s.settle t start .failed (Commit.markFailed s.wal.commit start) .idle)
      | _ => none
  | .sync t =>
      match s.threads t with
      | .idle =>
          if s.wal.tail = 0 then some { s with acks := 0 :: s.acks }
          else some { s with threads := setPc s.threads t (.entering s.wal.tail) }
      | _ => none
  | .enter t =>
      match s.threads t with
      | .entering target => some (s.round t target)
      | _ => none
  | .flush t ok dropped =>
      match s.threads t with
      | .flushing target flushTo snap =>
          let d := if ok then s.wal.store.flushed snap else s.wal.store.flushFailed dropped
          some { s.withStore d with threads := setPc s.threads t (.relocking target flushTo ok) }
      | _ => none
  | .relock t =>
      match s.threads t with
      | .relocking target flushTo ok =>
          let s := { s.withCommit (Commit.afterFlush s.wal.commit flushTo ok) with
                     threads := notifyAll s.threads }
          if ok then some (s.round t target)
          else some { s with threads := setPc s.threads t .idle }
      | _ => none
  | .spurious t =>
      match s.threads t with
      | .waiting target => some { s with threads := setPc s.threads t (.woken target) }
      | _ => none
  | .wake t =>
      match s.threads t with
      | .woken target => some ((s.withCommit (Commit.afterWait s.wal.commit)).round t target)
      | _ => none

/-- The ways in which the actions can go, one for each branch of `step`. -/
inductive Takes (s : Sys) : Action → Sys → Prop
  | refuse {t : Nat} {record : List UInt8} {ts : Bool} (ht : s.threads t = .idle)
      (hlen : s.wal.maxRecordSize < record.length) : Takes s (.append t record ts) s
  | reserve {t : Nat} {record : List UInt8} {ts : Bool} (ht : s.threads t = .idle)
      (hlen : record.length ≤ s.wal.maxRecordSize) :
      Takes s (.append t record ts) (s.reserve t record ts)
  | land {t n start done : Nat} {record : List UInt8} {ts : Bool}
      (ht : s.threads t = .writing start record done ts)
      (hn : done + n ≤ framedLen record.length) :
      Takes s (.land t n)
        { s.withStore (s.wal.store.land (start + done) (((encode [] record).drop done).take n)) with
          threads := setPc s.threads t (.writing start record (done + n) ts) }
  | wroteOk {t start : Nat} {record : List UInt8} {ts : Bool}
      (ht : s.threads t = .writing start record (framedLen record.length) ts) :
      Takes s (.wrote t true)
        { s.withStore (s.wal.store.finish start (framedLen record.length)) with
          threads := setPc s.threads t (.marking start record true ts) }
  | wroteErr {t start done : Nat} {record : List UInt8} {ts : Bool}
      (ht : s.threads t = .writing start record done ts) :
      Takes s (.wrote t false)
        { s with threads := setPc s.threads t (.marking start record false ts) }
  | markOk {t start : Nat} {record : List UInt8} {ts : Bool}
      (ht : s.threads t = .marking start record true ts) :
      Takes s (.mark t) (s.settle t start .written
        (Commit.markWritten s.wal.commit start (start + framedLen record.length))
        (if ts then .entering (start + framedLen record.length) else .idle))
  | markErr {t start : Nat} {record : List UInt8} {ts : Bool}
      (ht : s.threads t = .marking start record false ts) :
      Takes s (.mark t) (s.settle t start .failed (Commit.markFailed s.wal.commit start) .idle)
  | markOverflow {t start : Nat} (ht : s.threads t = .overflowed start) :
      Takes s (.mark t) (s.settle t start .failed (Commit.markFailed s.wal.commit start) .idle)
  | syncEmpty {t : Nat} (ht : s.threads t = .idle) (htail : s.wal.tail = 0) :
      Takes s (.sync t) { s with acks := 0 :: s.acks }
  | sync {t : Nat} (ht : s.threads t = .idle) :
      Takes s (.sync t) { s with threads := setPc s.threads t (.entering s.wal.tail) }
  | enter {t target : Nat} (ht : s.threads t = .entering target) :
      Takes s (.enter t) (s.round t target)
  | flush {t target flushTo : Nat} {snap : Image UInt8} {ok : Bool} {dropped : Nat → Bool}
      (ht : s.threads t = .flushing target flushTo snap) :
      Takes s (.flush t ok dropped)
        { s.withStore (if ok then s.wal.store.flushed snap else s.wal.store.flushFailed dropped) with
          threads := setPc s.threads t (.relocking target flushTo ok) }
  | relockOk {t target flushTo : Nat} (ht : s.threads t = .relocking target flushTo true) :
      Takes s (.relock t) (({ s.withCommit (Commit.afterFlush s.wal.commit flushTo true) with
        threads := notifyAll s.threads } : Sys).round t target)
  | relockErr {t target flushTo : Nat} (ht : s.threads t = .relocking target flushTo false) :
      Takes s (.relock t) { s.withCommit (Commit.afterFlush s.wal.commit flushTo false) with
        threads := setPc (notifyAll s.threads) t .idle }
  | spurious {t target : Nat} (ht : s.threads t = .waiting target) :
      Takes s (.spurious t) { s with threads := setPc s.threads t (.woken target) }
  | wake {t target : Nat} (ht : s.threads t = .woken target) :
      Takes s (.wake t) ((s.withCommit (Commit.afterWait s.wal.commit)).round t target)

theorem takes_of_step {s s' : Sys} {a : Action} (h : step s a = some s') : Takes s a s' := by
  cases a with
  | append t record ts =>
      simp only [step] at h
      split at h
      · rename_i ht
        split at h <;> rename_i hlen <;> cases h
        · exact .refuse ht hlen
        · exact .reserve ht (Nat.not_lt.mp hlen)
      · cases h
  | land t n =>
      simp only [step] at h
      split at h
      · rename_i ht
        split at h <;> cases h
        rename_i hn
        exact .land ht hn.2
      · cases h
  | wrote t ok =>
      simp only [step] at h
      split at h
      · rename_i ht
        cases ok with
        | true =>
            rw [if_pos rfl] at h
            split at h <;> cases h
            rename_i hdone
            rw [hdone] at ht
            exact .wroteOk ht
        | false =>
            cases h
            exact .wroteErr ht
      · cases h
  | mark t =>
      simp only [step] at h
      split at h <;> cases h
      · rename_i ht
        exact .markOk ht
      · rename_i ht
        exact .markErr ht
      · rename_i ht
        exact .markOverflow ht
  | sync t =>
      simp only [step] at h
      split at h
      · rename_i ht
        split at h <;> cases h
        · rename_i htail
          exact .syncEmpty ht htail
        · exact .sync ht
      · cases h
  | enter t =>
      simp only [step] at h
      split at h <;> cases h
      rename_i ht
      exact .enter ht
  | flush t ok dropped =>
      simp only [step] at h
      split at h <;> cases h
      rename_i ht
      exact .flush ht
  | relock t =>
      simp only [step] at h
      split at h
      · rename_i ok ht
        cases ok <;> cases h
        · exact .relockErr ht
        · exact .relockOk ht
      · cases h
  | spurious t =>
      simp only [step] at h
      split at h <;> cases h
      rename_i ht
      exact .spurious ht
  | wake t =>
      simp only [step] at h
      split at h <;> cases h
      rename_i ht
      exact .wake ht

/-- What a round changes: what the lock guards, where its thread is, and the
acknowledgements. -/
theorem round_eq (s : Sys) (t target : Nat) : ∃ st pc acks,
    s.round t target = { s.withCommit st with threads := setPc s.threads t pc, acks := acks } := by
  unfold round
  generalize Commit.syncCheck s.wal.commit target = r
  obtain ⟨st, exit⟩ := r
  cases exit with
  | done result => cases result <;> exact ⟨st, _, _, rfl⟩
  | lead flushTo => exact ⟨st, _, _, rfl⟩
  | wait => exact ⟨st, _, _, rfl⟩

/-- The log as it was opened over a flat store, with every thread idle and what the
open recovered already durable. -/
def opened (wal : Wal HeadStore) : Sys where
  wal :=
    { tail := wal.tail
      store :=
        { data := wal.store.data
          stable := Image.ofList wal.store.data
          returned := fun o => decide (o < wal.store.data.length)
          lost := fun _ => false
          faults := [] }
      maxRecordSize := wal.maxRecordSize
      recoveryPolicy := wal.recoveryPolicy
      head := wal.head
      commit := wal.commit
      truncatedOnOpen := wal.truncatedOnOpen }
  threads := fun _ => .idle
  log := payloads (Image.ofList wal.store.data) wal.maxRecordSize wal.store.data.length wal.head
  status := fun _ => .written
  reserved := wal.tail
  acks := []

end Sys
end WalDb
