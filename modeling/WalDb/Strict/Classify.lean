/-
The strict-open check (`strict.rs`): is a damaged record followed by intact data?

Every offset after the damage is tried as a record start.  The scan keeps a
window of the store's bytes in memory and checks a candidate that fits from it;
a longer candidate is checked from prefix checksums, remembered at every
multiple of `markInterval`.  The source's scratch buffers are overwritten before
each use and carry nothing from one call to the next, so they are not modelled.
-/
import WalDb.Store
import WalDb.Record
import WalDb.Strict.ZeroShift

namespace WalDb
namespace Strict

open Lib Record

/-- Bytes read into the scan window at a time. -/
def windowLen : Nat := 64 * 1024

/-- A prefix checksum is remembered at every multiple of this many bytes. -/
def markInterval : Nat := 4096

/-- What follows a damaged record. -/
inductive Tail where
  | torn
  | intactAfter
  | unreadable
  | oversized
  deriving DecidableEq, Repr

/-- A run of the store's bytes held in memory. -/
structure Window where
  start : Nat
  bytes : List UInt8

namespace Window

variable {σ : Type}

def new (start : Nat) : Window := { start := start, bytes := [] }

def endAt (w : Window) : Act σ Fault Nat := addChecked w.start w.bytes.length

/-- Whether the window holds the header at `pos` and either half a window after
it or everything up to `limit`. -/
def covers (w : Window) (pos limit : Nat) : Act σ Fault Bool :=
  if pos < w.start then pure false
  else do
    let e ← w.endAt
    if limit ≤ e then pure true
    else do
      let ahead ← subChecked e pos
      pure (decide (windowLen / 2 ≤ ahead))

/-- Refill the window from `pos`; the flag is whether the store read whole. -/
def fill {S : Type} [WalStore S] (pos limit : Nat) : Act S Fault (Window × Bool) := do
  let left ← subChecked limit pos
  let len := min left windowLen
  let bytes ← WalStore.readAt pos len
  pure ({ start := pos, bytes := bytes }, bytes.length == len)

/-- The test at the head of the loop: the window covers `pos`, or is refilled from
there.  The flag is false only if the refill read short. -/
def ready {S : Type} [WalStore S] (w : Window) (pos limit : Nat) :
    Act S Fault (Window × Bool) := do
  let covered ← w.covers pos limit
  if covered then pure (w, true) else fill pos limit

/-- The header bytes at `pos`. -/
def header (w : Window) (pos : Nat) : Act σ Fault (List UInt8) := do
  let lo ← subChecked pos w.start
  sliceChecked w.bytes lo (lo + headerLen)

/-- The bytes `[lo, hi)`, if the window holds all of them. -/
def slice (w : Window) (lo hi : Nat) : Act σ Fault (Option (List UInt8)) :=
  if lo < w.start then pure none
  else do
    let e ← w.endAt
    if e < hi then pure none
    else do
      let a ← subChecked lo w.start
      let b ← subChecked hi w.start
      let bytes ← sliceChecked w.bytes a b
      pure (some bytes)

end Window

/-- Checksums of the store's bytes from a fixed `base`: `marks[i]` covers
`[base, base + i * markInterval)`. -/
structure Prefix where
  base : Nat
  marks : List (BitVec 32)

namespace Prefix

variable {S : Type} [WalStore S]

def new (base : Nat) : Prefix := { base := base, marks := [0#32] }

/-- Continue `crc` over the `len` bytes at `lo`. -/
def extend (crc : BitVec 32) (lo len : Nat) : Act S Fault (Option (BitVec 32)) := do
  let scratch ← WalStore.readAt lo len
  if scratch.length < len then pure none
  else pure (some (crc32cAppend crc scratch))

/-- The loop of `up_to`: push marks until `marks[index]` exists. -/
def pushMarks (base index : Nat) (marks : List (BitVec 32)) :
    Act S Fault (Option (List (BitVec 32))) :=
  if marks.length ≤ index then do
    let last ← subChecked marks.length 1
    let seed ← getChecked marks last
    let lo ← addChecked base (last * markInterval)
    match ← extend seed lo markInterval with
    | none => pure none
    | some crc => pushMarks base index (marks ++ [crc])
  else pure (some marks)
termination_by index + 1 - marks.length
decreasing_by
  rw [List.length_append, List.length_singleton]
  omega

/-- The checksum of `[base, pos)`, or `none` if the store read short. -/
def upTo (p : Prefix) (pos : Nat) : Act S Fault (Option (BitVec 32 × Prefix)) := do
  let d ← subChecked pos p.base
  let index := d / markInterval
  match ← pushMarks p.base index p.marks with
  | none => pure none
  | some marks => do
      let lo ← addChecked p.base (index * markInterval)
      let seed ← getChecked marks index
      let rest ← subChecked pos lo
      match ← extend seed lo rest with
      | none => pure none
      | some crc => pure (some (crc, { p with marks := marks }))

/-- The checksum of `[lo, hi)`, or `none` if the store read short. -/
def span (p : Prefix) (lo hi : Nat) : Act S Fault (Option (BitVec 32 × Prefix)) := do
  match ← p.upTo lo with
  | none => pure none
  | some (before, p) => do
      match ← p.upTo hi with
      | none => pure none
      | some (through, p) => do
          let len ← subChecked hi lo
          pure (some (through ^^^ zeroShift before (BitVec.ofNat 64 len), p))

end Prefix

variable {S : Type} [WalStore S]

/-- The loop of `oversized`: stream the checksum to `recordEnd`, or stop at a
short read. -/
def streamCrc (crc : BitVec 32) (lo recordEnd : Nat) : Act S Fault (Option (BitVec 32)) :=
  if lo < recordEnd then do
    let len := min (recordEnd - lo) markInterval
    let buf ← WalStore.readAt lo len
    if buf.length < len then pure none
    else do
      let _ ← addChecked lo len
      streamCrc (crc32cAppend crc buf) (lo + len) recordEnd
  else pure (some crc)
termination_by recordEnd - lo
decreasing_by
  unfold markInterval
  omega

/-- Whether the record at `pos` was rejected only for its length. -/
def oversized (m pos limit : Nat) : Act S Fault (Option Tail) :=
  if limit - pos < headerLen then pure none
  else do
    let header ← WalStore.readAt pos headerLen
    if header.length < headerLen then pure (some .unreadable)
    else do
      let parsed := parseHeader header
      let payloadStart ← addChecked pos headerLen
      if parsed.len ≤ m then pure none
      else do
        let room ← subChecked limit payloadStart
        if room < parsed.len then pure none
        else do
          let recordEnd ← addChecked payloadStart parsed.len
          match ← streamCrc (crc32c (header.drop lenOffset)) payloadStart recordEnd with
          | none => pure (some .unreadable)
          | some crc => pure (if crc = parsed.crc then some .oversized else none)

/-- Whether the candidate at `pos`, with the header the window gave, is intact;
`none` if the store read short.  The prefix checksums come back with the answer. -/
def candidate (m limit : Nat) (window : Window) (prior : Prefix) (pos : Nat)
    (header : List UInt8) : Act S Fault (Option (Bool × Prefix)) := do
  let parsed := parseHeader header
  let left ← subChecked limit pos
  let room ← subChecked left headerLen
  if parsed.len ≤ m ∧ parsed.len ≤ room then do
    let payloadStart ← addChecked pos headerLen
    let recordEnd ← addChecked payloadStart parsed.len
    match ← window.slice payloadStart recordEnd with
    | some payload => pure (some (verify header payload parsed.crc, prior))
    | none => do
        match ← prior.span (pos + lenOffset) recordEnd with
        | some (crc, prior) => pure (some (crc == parsed.crc, prior))
        | none => pure none
  else pure (some (false, prior))

/-- The loop of `classify`: try every offset from `pos` on as a record start. -/
def classifyFrom (m limit : Nat) (window : Window) (prior : Prefix) (pos : Nat) :
    Act S Fault Tail :=
  if headerLen ≤ limit - pos then do
    let (window, whole) ← window.ready pos limit
    if whole = false then pure .unreadable
    else do
      let header ← window.header pos
      match ← candidate m limit window prior pos header with
      | none => pure .unreadable
      | some (true, _) => pure .intactAfter
      | some (false, prior) => do
          let _ ← addChecked pos 1
          classifyFrom m limit window prior (pos + 1)
  else pure .torn
termination_by limit - pos
decreasing_by
  have h8 : headerLen = 8 := rfl
  omega

/-- Classify the record at `damaged`, where the open scan stopped, and the bytes
after it up to `limit`, the store's length. -/
def classify (m damaged limit : Nat) : Act S Fault Tail := do
  match ← oversized m damaged limit with
  | some tail => pure tail
  | none =>
      match checkedAdd damaged 1 with
      | none => pure .torn
      | some first => classifyFrom m limit (Window.new first) (Prefix.new first) first

end Strict
end WalDb
