/-
Files, and the single-file store (`store.rs`).

A file has two contents: what reads see, and what a power loss leaves.  Writing and
resizing change the first; a flush copies it to the second.  A process that exits
keeps the first, since it lives in the page cache.

Every system call may fail.  `faults` says which of the next ones do; where it is
empty, none does.
-/
import WalDb.Store

namespace WalDb

open Lib

structure File where
  written : List UInt8
  durable : List UInt8
  deriving DecidableEq, Repr

namespace File

def empty : File := ⟨[], []⟩

/-- `pwrite_all`. -/
def pwriteAll (file : File) (offset : Nat) (bytes : List UInt8) : File :=
  { file with written := overwrite file.written offset bytes }

/-- `pread_fill`: the bytes it fills the buffer with. -/
def preadFill (file : File) (offset n : Nat) : List UInt8 := (file.written.drop offset).take n

/-- `set_len`: cut, or grow with zeros. -/
def setLen (file : File) (len : Nat) : File :=
  { file with
    written := file.written.take len ++ List.replicate (len - file.written.length) 0 }

/-- `durable_sync`. -/
def durableSync (file : File) : File := { file with durable := file.written }

end File

/-- A system call, with the decision whether it fails. -/
def osCall (context : String) : Act (List Bool) Fault Unit
  | true :: faults => (.error (.err (.io context .os)), faults)
  | false :: faults => (.ok (), faults)
  | [] => (.ok (), [])

/-- `flush_dir_if_dirty`.  The flag is cleared before the flush, and set again if the
flush fails. -/
def flushDirIfDirty {S : Type} (dirty : S → Bool) (put : S → Bool → S)
    (syncDir : Act S Fault Unit) : Act S Fault Unit := do
  let store ← Act.get
  if dirty store then do
    Act.modify fun store => put store false
    match ← Act.attempt syncDir with
    | .ok () => pure ()
    | .error fault => do
        Act.modify fun store => put store true
        Act.fail fault
  else pure ()

theorem flushDirIfDirty_ok {S : Type} {dirty : S → Bool} {put : S → Bool → S}
    {syncDir : Act S Fault Unit} {s : S} (hput : put s (dirty s) = s)
    (hsync : syncDir (put s false) = (.ok (), put s false)) :
    flushDirIfDirty dirty put syncDir s = (.ok (), put s false) := by
  unfold flushDirIfDirty
  rw [Act.get_bind]
  by_cases h : dirty s = true
  · rw [if_pos h, Act.modify_bind, Act.attempt_bind, hsync]
    rfl
  · rw [if_neg h]
    rw [Bool.not_eq_true] at h
    rw [h] at hput
    rw [hput]
    rfl

/-- A file-backed store.  A file offset is a signed 64-bit number. -/
structure FileStore where
  file : File
  parentDirty : Bool
  faults : List Bool
  written_lt : file.written.length < 2 ^ 63

namespace FileStore

def os (context : String) : Act FileStore Fault Unit :=
  Act.zoom FileStore.faults (fun s faults => { s with faults := faults }) (osCall context)

/-- `FileStore::open` on a file that another store may have left. -/
def ofFile (file : File) (faults : List Bool) (h : file.written.length < 2 ^ 63) : FileStore where
  file := file
  parentDirty := true
  faults := faults
  written_lt := h

def writeAt (offset : Nat) (bytes : List UInt8) : Act FileStore Fault Unit :=
  -- For no bytes `pwrite_all` makes no call.
  if bytes = [] then pure ()
  else do
    os "writing a record"
    fun s =>
      -- The operating system refuses to grow a file past the largest offset.
      if h : (overwrite s.file.written offset bytes).length < 2 ^ 63 then
        (.ok (), { s with file := s.file.pwriteAll offset bytes, written_lt := h })
      else (.error (.err (.io "writing a record" .os)), s)

def readAt (offset n : Nat) : Act FileStore Fault (List UInt8) :=
  -- Neither does `pread_fill` for an empty buffer.
  if n = 0 then pure []
  else do
    os "reading from the log"
    let s ← Act.get
    -- The operating system refuses a range that ends past the largest offset.
    if offset + n < 2 ^ 63 then pure (s.file.preadFill offset n)
    else Act.fail (.err (.io "reading from the log" .os))

def truncate (len : Nat) : Act FileStore Fault Unit := do
  os "truncating the log"
  fun s =>
    if h : (s.file.setLen len).written.length < 2 ^ 63 then
      (.ok (), { s with file := s.file.setLen len, written_lt := h })
    else (.error (.err (.io "truncating the log" .os)), s)

def sync : Act FileStore Fault Unit := do
  flushDirIfDirty FileStore.parentDirty (fun s dirty => { s with parentDirty := dirty })
    (os "flushing the log directory")
  os "flushing to stable storage"
  Act.modify fun s => { s with file := s.file.durableSync }

def len : Act FileStore Fault Nat := do
  os "reading log file metadata"
  let s ← Act.get
  pure s.file.written.length

instance : WalStore FileStore where
  writeAt := writeAt
  readAt := readAt
  truncate := truncate
  sync := sync
  len := len

end FileStore

end WalDb
