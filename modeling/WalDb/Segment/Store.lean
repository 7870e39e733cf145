/-
Segmented file storage (`segment.rs`).

One flat byte space is striped across files of `segmentSize` bytes each in a
directory.  A read or a write is cut at the boundaries between them.

The map of open handles is the list of their indices.  A handle is dropped when its
file is removed, so it always means the file of that index in the directory; but a
file may be there without a handle, as after an open, and `sync` flushes only the
files it has one for.  The listing of the directory is that of `segments`, in its
own order.  Names of segment files are their indices; other names are never looked
at, but for the two of the head marker.

Offsets are `u64`.  The loops add to theirs without a check, which panics where the sum does
not fit.
-/
import Mathlib.Data.List.AList
import WalDb.Crc32c
import WalDb.File
import WalDb.Lib.LittleEndian

namespace WalDb

open Lib

/-- Size of the head marker: an 8-byte offset plus a 4-byte checksum of it. -/
def headFileLen : Nat := 12

/-- The directory of a segmented log: the segment files by index, the head marker
and its temporary file. -/
structure Dir where
  segments : AList fun _ : Nat => File
  headFile : Option (List UInt8)
  headTmpFile : Option (List UInt8)
  faults : List Bool

structure SegmentedStore where
  dir : Dir
  segmentSize : Nat
  /-- The segments with an open handle. -/
  handles : List Nat
  /-- Highest byte offset ever written. -/
  maxWritten : Nat
  /-- Index of the lowest segment that may still have unflushed writes. -/
  syncedFrom : Nat
  head : Nat
  dirDirty : Bool
  parentDirty : Bool
  segmentSize_pos : 0 < segmentSize

namespace Dir

def empty : Dir := ⟨∅, none, none, []⟩

def os (context : String) : Act Dir Fault Unit :=
  Act.zoom Dir.faults (fun d faults => { d with faults := faults }) (osCall context)

/-- Open segment `index` with `create` and without `truncate`. -/
def createSegment (d : Dir) (index : Nat) : Dir :=
  match d.segments.lookup index with
  | some _ => d
  | none => { d with segments := d.segments.insert index File.empty }

/-- Replace the file of segment `index`, if there is one. -/
def modifySegment (d : Dir) (index : Nat) (f : File → File) : Dir :=
  match d.segments.lookup index with
  | some file => { d with segments := d.segments.insert index (f file) }
  | none => d

/-- The loop of `open` over the listing of the directory: the highest segment seen,
and its length. -/
def findHighest (highest : Option (Nat × Nat)) :
    List (Sigma fun _ : Nat => File) → Act Dir Fault (Option (Nat × Nat))
  | [] => pure highest
  | ⟨index, file⟩ :: rest => do
      os "reading the log directory"
      os "reading segment metadata"
      findHighest
        (if highest.elim true fun h => decide (h.1 < index) then some (index, file.written.length)
          else highest) rest

def readHeadFile : Act Dir Fault (Option Nat) := do
  os "reading the head marker"
  let d ← Act.get
  match d.headFile with
  | none => pure none
  | some bytes =>
      if headFileLen ≤ bytes.length then
        let head := ofLe (bytes.take 8)
        let stored := BitVec.ofNat 32 (ofLe ((bytes.drop 8).take 4))
        -- A marker that does not match its checksum is torn or corrupt.
        if crc32c (bytes.take 8) = stored then pure (some head) else pure none
      else pure none

end Dir

namespace SegmentedStore

/-- `SegmentedStore::open`; `created` says that the directory was not there. -/
def openDir (segmentSize : Nat) (created : Bool) : Act Dir Fault SegmentedStore := do
  if h : segmentSize = 0 then
    Act.fail (.err (.io "opening the segmented log" (.other "segment size must be non-zero")))
  else do
    Dir.os "creating the log directory"
    Dir.os "reading the log directory"
    let d ← Act.get
    let highest ← Dir.findHighest none d.segments.entries
    let totalLen := match highest with
      | some (index, len) => saturatingAdd (saturatingMul index segmentSize) len
      | none => 0
    let active := totalLen / segmentSize
    let marker ← Dir.readHeadFile
    let head := min (marker.getD 0) totalLen
    let d ← Act.get
    pure
      { dir := d
        segmentSize := segmentSize
        handles := []
        maxWritten := totalLen
        -- Everything already on disk is treated as durable on open.
        syncedFrom := active
        head := head
        dirDirty := true
        parentDirty := created
        segmentSize_pos := Nat.pos_of_ne_zero h }

def onDir {α : Type} (x : Act Dir Fault α) : Act SegmentedStore Fault α :=
  Act.zoom SegmentedStore.dir (fun s d => { s with dir := d }) x

def os (context : String) : Act SegmentedStore Fault Unit := onDir (Dir.os context)

/-- Open segment `index`, creating the file if it does not exist yet. -/
def segmentForWrite (index : Nat) : Act SegmentedStore Fault Unit := do
  let s ← Act.get
  if index ∈ s.handles then pure ()
  else do
    os "creating a log segment"
    Act.modify fun s =>
      { s with
        dir := s.dir.createSegment index
        dirDirty := true
        handles := index :: s.handles }

/-- Open segment `index` if it exists, and say whether it does. -/
def segmentForRead (index : Nat) : Act SegmentedStore Fault Bool := do
  let s ← Act.get
  if index ∈ s.handles then pure true
  else do
    os "opening a log segment"
    match s.dir.segments.lookup index with
    | none => pure false
    | some _ => do
        Act.modify fun s => { s with handles := index :: s.handles }
        pure true

/-- Durably record `head`: write the temporary file, flush it, rename it over the
marker, flush the directory. -/
def writeHeadFile (head : Nat) : Act SegmentedStore Fault Unit := do
  let buf := toLe 8 head
  let buf := buf ++ toLe 4 (crc32c buf).toNat
  os "writing the head marker"
  onDir (Act.modify fun d => { d with headTmpFile := some [] })
  os "writing the head marker"
  onDir (Act.modify fun d => { d with headTmpFile := some buf })
  os "flushing the head marker"
  os "replacing the head marker"
  onDir (Act.modify fun d => { d with headFile := d.headTmpFile, headTmpFile := none })
  os "flushing the log directory"

/-- What a write at `pos` has room for in its segment. -/
def room (segmentSize pos : Nat) : Nat := segmentSize - pos % segmentSize

theorem room_pos {segmentSize : Nat} (h : 0 < segmentSize) (pos : Nat) :
    0 < room segmentSize pos := by
  have := Nat.mod_lt pos h
  unfold room
  omega

/-- The loop of `write_at`. -/
def writeChunks (segmentSize : {n : Nat // 0 < n}) (pos : Nat) (remaining : List UInt8) :
    Act SegmentedStore Fault Unit :=
  if _h : remaining = [] then pure ()
  else
    let index := pos / segmentSize.val
    let here := pos % segmentSize.val
    let take := min remaining.length (room segmentSize.val pos)
    do
      segmentForWrite index
      os "writing a record"
      onDir (Act.modify fun d => d.modifySegment index (·.pwriteAll here (remaining.take take)))
      let next ← addChecked pos take
      writeChunks segmentSize next (remaining.drop take)
termination_by remaining.length
decreasing_by
  have h1 := room_pos segmentSize.property pos
  have h2 := List.length_pos_of_ne_nil _h
  rw [List.length_drop]
  omega

def writeAt (offset : Nat) (bytes : List UInt8) : Act SegmentedStore Fault Unit := do
  let s ← Act.get
  writeChunks ⟨s.segmentSize, s.segmentSize_pos⟩ offset bytes
  let endAt := saturatingAdd offset bytes.length
  Act.modify fun s => { s with maxWritten := max s.maxWritten endAt }

/-- The loop of `read_at`, for the `n` bytes that are still wanted. -/
def readChunks (segmentSize : {n : Nat // 0 < n}) (pos n : Nat) :
    Act SegmentedStore Fault (List UInt8) :=
  if _h : n = 0 then pure []
  else
    let index := pos / segmentSize.val
    let here := pos % segmentSize.val
    let want := min n (room segmentSize.val pos)
    do
      match ← segmentForRead index with
      -- No such segment: the log ends here.
      | false => pure []
      | true => do
          os "reading from the log"
          let s ← Act.get
          let got := ((s.dir.segments.lookup index).getD File.empty).preadFill here want
          let next ← addChecked pos got.length
          if got.length < want then pure got
          else do
            let rest ← readChunks segmentSize next (n - want)
            pure (got ++ rest)
termination_by n
decreasing_by
  have h1 := room_pos segmentSize.property pos
  omega

def readAt (offset n : Nat) : Act SegmentedStore Fault (List UInt8) := do
  let s ← Act.get
  readChunks ⟨s.segmentSize, s.segmentSize_pos⟩ offset n

/-- What `truncate` does with one entry of the directory. -/
def truncateEntry (lastIndex lastLocal index : Nat) : Act SegmentedStore Fault Unit :=
  if lastIndex < index then do
    -- Entirely past the new end: drop the segment.
    os "removing a truncated segment"
    Act.modify fun s =>
      { s with
        dir := { s.dir with segments := s.dir.segments.erase index }
        handles := s.handles.filter (· ≠ index)
        dirDirty := true }
  else if index = lastIndex then do
    -- Straddles the new end: shrink it to the kept bytes.
    segmentForWrite index
    os "truncating a log segment"
    onDir (Act.modify fun d => d.modifySegment index (·.setLen lastLocal))
  else pure ()

/-- The loop of `truncate` over the listing of the directory. -/
def truncateEntries (lastIndex lastLocal : Nat) : List Nat → Act SegmentedStore Fault Unit
  | [] => pure ()
  | index :: rest => do
      os "reading the log directory"
      truncateEntry lastIndex lastLocal index
      truncateEntries lastIndex lastLocal rest

def truncate (len : Nat) : Act SegmentedStore Fault Unit := do
  let s ← Act.get
  let lastIndex := len / s.segmentSize
  let lastLocal := len % s.segmentSize
  os "reading the log directory"
  truncateEntries lastIndex lastLocal s.dir.segments.keys
  Act.modify fun s => { s with maxWritten := len, syncedFrom := lastIndex }

/-- The loop of `sync`: flush the segments of the window that are open. -/
def flushSegments : List Nat → Act SegmentedStore Fault Unit
  | [] => pure ()
  | index :: rest => do
      let s ← Act.get
      if index ∈ s.handles then do
        os "flushing to stable storage"
        onDir (Act.modify fun d => d.modifySegment index File.durableSync)
        flushSegments rest
      else flushSegments rest

/-- The directory flushes that `sync` starts with. -/
def flushDirs : Act SegmentedStore Fault Unit := do
  flushDirIfDirty SegmentedStore.dirDirty (fun s dirty => { s with dirDirty := dirty })
    (os "flushing the log directory")
  flushDirIfDirty SegmentedStore.parentDirty (fun s dirty => { s with parentDirty := dirty })
    (os "flushing the log directory")

def sync : Act SegmentedStore Fault Unit := do
  flushDirs
  let s ← Act.get
  let written := s.maxWritten
  if written = 0 then pure ()
  else do
    -- The segment holding the last written byte.
    let active := (written - 1) / s.segmentSize
    flushSegments (List.range' s.syncedFrom (active + 1 - s.syncedFrom))
    -- The active segment may still grow, so it stays in the window.
    Act.modify fun s => { s with syncedFrom := active }

/-- The loop of `truncate_before` over the listing of the directory. -/
def dropEntries (keepFrom : Nat) : List Nat → Act SegmentedStore Fault Unit
  | [] => pure ()
  | index :: rest => do
      os "reading the log directory"
      if index < keepFrom then do
        Act.modify fun s => { s with handles := s.handles.filter (· ≠ index) }
        os "removing a dropped segment"
        onDir (Act.modify fun d => { d with segments := d.segments.erase index })
        dropEntries keepFrom rest
      else dropEntries keepFrom rest

def truncateBefore (offset : Nat) : Act SegmentedStore Fault Nat := do
  let s ← Act.get
  let written := s.maxWritten
  let prev := s.head
  -- `clamp` asserts that its bounds are in order.
  if written < prev then Act.fail (.panics "assertion failed: min <= max")
  else do
    let newHead := min (max offset prev) written
    writeHeadFile newHead
    let lastSegment := (written - 1) / s.segmentSize
    let keepFrom := min (newHead / s.segmentSize) lastSegment
    os "reading the log directory"
    dropEntries keepFrom s.dir.segments.keys
    Act.modify fun s => { s with head := newHead }
    pure newHead

instance : WalStore SegmentedStore where
  writeAt := writeAt
  readAt := readAt
  truncate := truncate
  sync := sync
  len := fun s => (.ok s.maxWritten, s)
  head := fun s => (.ok s.head, s)
  truncateBefore := truncateBefore

end SegmentedStore

end WalDb
