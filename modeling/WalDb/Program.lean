/-
Whole programs over a log.

A program opens a log, appends, syncs, reads, truncates at either end and opens it again,
one request after another.  A store outlives the log over it: what an open has refused can
be opened again, with other settings.
-/
import WalDb.IsEmpty
import WalDb.Lib.Simulation

namespace WalDb

open Lib Record

/-- A log in use, or the store that an open has refused. -/
inductive Handle (S : Type) where
  | isOpen (wal : Wal S)
  | closed (store : S)

/-- What a program asks of a log. -/
inductive Request where
  | append (record : List UInt8)
  | appendAndSync (record : List UInt8)
  | sync
  | iter
  | iterFrom (lsn : Nat)
  | truncateAfter (lsn : Nat)
  | truncateBefore (lsn : Nat)
  | len
  | isEmpty
  | reopen (config : WalConfig)

/-- What it is told.  A reopen tells how many bytes it cut. -/
inductive Reply where
  | done
  | lsn (lsn : Nat)
  | head (head : Nat)
  | items (items : List (Except WalError Wal.Record))
  | size (len : Nat)
  | empty (flag : Bool)
  | opened (cut : Nat)
  | closed
  deriving DecidableEq

namespace Handle

variable {S : Type} [WalStore S] [Shipped S]

def ofCall {α : Type} (reply : α → Reply) (r : Except Fault α × Wal S) :
    Except Fault Reply × Handle S :=
  (r.1.map reply, .isOpen r.2)

/-- The next process opens what `store` has left. -/
def reopen (config : WalConfig) (store : S) : Except Fault Reply × Handle S :=
  match Shipped.reopen store with
  | .error fault => (.error fault, .closed store)
  | .ok store' =>
      match Wal.withStoreAndConfig config store' with
      | (.ok wal, _) => (.ok (.opened wal.truncatedOnOpen), .isOpen wal)
      | (.error fault, store'') => (.error fault, .closed store'')

def ask : Handle S → Request → Except Fault Reply × Handle S
  | .isOpen wal, .append record => ofCall .lsn (wal.append record)
  | .isOpen wal, .appendAndSync record => ofCall .lsn (wal.appendAndSync record)
  | .isOpen wal, .sync => ofCall (fun _ => .done) wal.sync
  | .isOpen wal, .iter => ofCall .items (wal.iter.collect wal)
  | .isOpen wal, .iterFrom lsn => ofCall .items ((wal.iterFrom lsn).collect wal)
  | .isOpen wal, .truncateAfter lsn => ofCall (fun _ => .done) (wal.truncateAfter lsn)
  | .isOpen wal, .truncateBefore lsn => ofCall .head (wal.truncateBefore lsn)
  | .isOpen wal, .len => (.ok (.size wal.len), .isOpen wal)
  | .isOpen wal, .isEmpty => (.ok (.empty wal.isEmpty), .isOpen wal)
  | .isOpen wal, .reopen config => reopen config wal.store
  | .closed store, .reopen config => reopen config store
  | .closed store, _ => (.ok .closed, .closed store)

/-- The handle with the outcomes that its next system calls have. -/
def facing (faults : List Bool) : Handle S → Handle S
  | .isOpen wal => .isOpen (wal.facing faults)
  | .closed store => .closed (Shipped.setFaults faults store)

/-- A request, with the outcomes that its system calls have. -/
def face (h : Handle S) (q : List Bool × Request) : Except Fault Reply × Handle S :=
  (h.facing q.1).ask q.2

end Handle

end WalDb
