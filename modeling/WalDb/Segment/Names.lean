/-
The names of the segment files, under concurrent calls.

A file that has been written to and flushed is lost all the same if its name is not in the
directory after a power loss.  `write_at` sets a flag when it has created a file, and `sync`
flushes the directory if the flag is set.  The calls are broken up into their accesses to
what they share: the map of handles with its lock, the directory, and the flag.  Any number
of reads and writes are under way at a time, and one `sync`.

The flag and the flush are a `DirtyFlag`.  Of the calls only the segments that they go
through are kept, and of `sync` the part after the flush of the log directory is one step,
which comes at any time and may fail: it changes neither names nor handles.  Behind the
machine stands that a call with no other under way is the function of the store.
-/
import WalDb.Lib.DirtyFlag
import WalDb.Lib.Run
import WalDb.Segment.Image

namespace WalDb

open Lib SegmentedStore

/-- The segments that a read or a write of `n` bytes goes through. -/
def chunkIndices (segmentSize : {n : Nat // 0 < n}) (pos n : Nat) : List Nat :=
  if _h : n = 0 then []
  else
    let take := min n (room segmentSize.val pos)
    pos / segmentSize.val :: chunkIndices segmentSize (pos + take) (n - take)
termination_by n
decreasing_by
  have := room_pos segmentSize.property pos
  omega

namespace Names

inductive Kind where
  | write
  | read
  deriving DecidableEq

/-- Where a call stands with the first of the segments it still has to go through. -/
inductive Stage where
  | next
  /-- There was no handle in the map. -/
  | missed
  /-- A writer has the lock, and still found no handle. -/
  | locked
  | created
  | flagged
  /-- A reader has opened the file. -/
  | found
  | opened
  | returned
  | failed
  deriving DecidableEq

structure StoreCall where
  kind : Kind
  offset : Nat
  n : Nat
  todo : List Nat
  stage : Stage
  deriving DecidableEq

def StoreCall.at (call : StoreCall) (stage : Stage) : StoreCall := { call with stage := stage }

/-- Where the call of `sync` stands: in the flush of the directory, behind it, or returned. -/
inductive SyncStage where
  | idle
  | flushing
  | rest
  | acked
  | failed
  deriving DecidableEq

end Names

structure Names where
  segmentSize : {n : Nat // 0 < n}
  dir : DirtyFlag Nat
  /-- The segments that have a handle in the map. -/
  handles : List Nat
  /-- The call that has the lock of the map. -/
  lock : Option Nat
  calls : List Names.StoreCall
  sync : Names.SyncStage

namespace Names

/-- The accesses of a read or a write. -/
inductive Access where
  /-- Look into the map. -/
  | lookup
  /-- Take the lock and look again. -/
  | lockMap
  | create
  | createFails
  | setFlag
  /-- Enter the handle, and let go of the lock. -/
  | insert
  | openFile
  | openFails
  /-- Take the lock, enter the handle if there is none, and let go of the lock. -/
  | insertFound
  /-- Read or write the chunk. -/
  | transfer
  /-- The chunk is not read or written, or no offset is left behind it. -/
  | transferFails
  | shortRead
  | finish
  deriving DecidableEq

inductive Action where
  | start (kind : Kind) (offset n : Nat)
  | access (c : Nat) (act : Access)
  | syncBegin
  | flushStep (act : DirtyFlag.Action Nat)
  | restOk
  | restFails
  deriving DecidableEq

/-- What an access of call `c` makes of what is shared, and of the call. -/
def move (r : Names) (c : Nat) (call : StoreCall) (act : Access) : Option (Names × StoreCall) :=
  match act, call.kind, call.stage, call.todo with
  -- The lock admits no reader of the map while a writer has it.
  | .lookup, _, .next, i :: _ =>
      if r.lock = none then some (r, call.at (if i ∈ r.handles then .opened else .missed)) else none
  | .lockMap, .write, .missed, i :: _ =>
      if r.lock = none then
        if i ∈ r.handles then some (r, call.at .opened)
        else some ({ r with lock := some c }, call.at .locked)
      else none
  | .create, .write, .locked, i :: _ => some ({ r with dir := r.dir.add i }, call.at .created)
  | .createFails, .write, .locked, _ :: _ => some ({ r with lock := none }, call.at .failed)
  | .setFlag, .write, .created, _ :: _ => some ({ r with dir := r.dir.mark }, call.at .flagged)
  | .insert, .write, .flagged, i :: _ =>
      some ({ r with handles := i :: r.handles, lock := none }, call.at .opened)
  | .openFile, .read, .missed, i :: _ =>
      some (r, call.at (if i ∈ r.dir.present then .found else .returned))
  | .openFails, .read, .missed, _ :: _ => some (r, call.at .failed)
  | .insertFound, .read, .found, i :: _ =>
      if r.lock = none then
        some ({ r with handles := if i ∈ r.handles then r.handles else i :: r.handles },
          call.at .opened)
      else none
  | .transfer, _, .opened, _ :: todo => some (r, { call with todo := todo, stage := .next })
  | .transferFails, _, .opened, _ :: _ => some (r, call.at .failed)
  | .shortRead, .read, .opened, _ :: _ => some (r, call.at .returned)
  | .finish, _, .next, [] => some (r, call.at .returned)
  | _, _, _, _ => none

/-- The steps of `flush_dir_if_dirty`. -/
def ofFlusher : DirtyFlag.Action Nat → Bool
  | .load | .swap | .start | .finish | .fail | .restore => true
  | .add _ | .mark | .enter => false

/-- Where `sync` stands, by where the flush of the directory stands. -/
def syncAt : Flusher Nat → SyncStage
  | .clean => .rest
  | .idle => .failed
  | _ => .flushing

def step (r : Names) : Action → Option Names
  | .start kind offset n =>
      some { r with
        calls := r.calls ++ [⟨kind, offset, n, chunkIndices r.segmentSize offset n, .next⟩] }
  | .access c act =>
      (r.calls[c]?).bind fun call => (r.move c call act).map fun m =>
        { m.1 with calls := r.calls.set c m.2 }
  | .syncBegin =>
      if r.sync = .flushing ∨ r.sync = .rest then none
      else (r.dir.step .enter).map fun dir => { r with dir := dir, sync := .flushing }
  | .flushStep act =>
      if r.sync = .flushing ∧ ofFlusher act = true then
        (r.dir.step act).map fun dir => { r with dir := dir, sync := syncAt dir.flusher }
      else none
  | .restOk => if r.sync = .rest then some { r with sync := .acked } else none
  | .restFails => if r.sync = .rest then some { r with sync := .failed } else none

/-- A store with no call under way, of whose names `durable` are known to be durable. -/
def ofStore (s : SegmentedStore) (durable : List Nat) : Names where
  segmentSize := ⟨s.segmentSize, s.segmentSize_pos⟩
  dir := ⟨s.dir.segments.keys, durable, s.dirDirty, .idle, false⟩
  handles := s.handles
  lock := none
  calls := []
  sync := .idle

/-! ## A call on its own

With nothing else under way the accesses add up to the functions of the store. -/

/-- The names, the handles and the flag are those of the store, and the map is not locked. -/
structure Shows (r : Names) (s : SegmentedStore) : Prop where
  segmentSize_eq : r.segmentSize.val = s.segmentSize
  handles_eq : r.handles = s.handles
  present_iff : ∀ i, i ∈ r.dir.present ↔ (s.seg i).isSome = true
  dirty_eq : r.dir.dirty = s.dirDirty
  free : r.lock = none

theorem shows_ofStore (s : SegmentedStore) (durable : List Nat) : Shows (ofStore s durable) s :=
  ⟨rfl, rfl, fun _ => AList.mem_keys.symm.trans AList.lookup_isSome.symm, rfl, rfl⟩

/-- Where a call stands after a function that has returned. -/
def stageAfter {α : Type} (res : Except Fault α) (stage : α → Stage) : Stage :=
  match res with
  | .ok a => stage a
  | .error _ => .failed

section Alone

variable {r : Names} {s s' : SegmentedStore} {c i : Nat} {todo : List Nat} {call : StoreCall}

/-- Accesses of call `c` and no others lead to `r'`, with the call as given. -/
def Alone (r : Names) (c : Nat) (r' : Names) (call : StoreCall) : Prop :=
  ∃ acts : List Access, run step r (acts.map (.access c)) = some r' ∧ r'.calls[c]? = some call

theorem alone_refl (hc : r.calls[c]? = some call) : Alone r c r call := ⟨[], rfl, hc⟩

theorem Alone.access {r0 r1 : Names} {call' : StoreCall} (h : Alone r0 c r call) (act : Access)
    (hm : r.move c call act = some (r1, call')) :
    Alone r0 c { r1 with calls := r.calls.set c call' } call' := by
  obtain ⟨acts, hrun, hc⟩ := h
  obtain ⟨hlt, -⟩ := List.getElem?_eq_some_iff.mp hc
  refine ⟨acts ++ [act], ?_, List.getElem?_set_self hlt⟩
  rw [List.map_append, run_append hrun, List.map_singleton, run, step, hc, Option.bind_some, hm]
  rfl

theorem Alone.call_eq {r0 : Names} (h : Alone r0 c r call) : r.calls[c]? = some call := by
  obtain ⟨_, _, hc⟩ := h
  exact hc

theorem Alone.trans {r0 r1 r2 : Names} {call1 call2 : StoreCall} (h1 : Alone r0 c r1 call1)
    (h2 : Alone r1 c r2 call2) : Alone r0 c r2 call2 := by
  obtain ⟨acts1, hrun1, -⟩ := h1
  obtain ⟨acts2, hrun2, hc⟩ := h2
  refine ⟨acts1 ++ acts2, ?_, hc⟩
  rw [List.map_append, run_append hrun1, hrun2]

/-- A system call fails or not, and changes nothing that is shown. -/
theorem Shows.os (h : Shows r s) (context : String) :
    (∃ fault s', SegmentedStore.os context s = (.error fault, s') ∧ Shows r s') ∨
      ∃ s', SegmentedStore.os context s = (.ok (), s') ∧ Shows r s' := by
  have hshows : Shows r (SegmentedStore.os context s).2 :=
    ⟨h.segmentSize_eq, h.handles_eq, h.present_iff, h.dirty_eq, h.free⟩
  cases hcall : SegmentedStore.os context s with
  | mk res s' =>
      rw [hcall] at hshows
      cases res with
      | error fault => exact Or.inl ⟨fault, s', rfl, hshows⟩
      | ok u => exact Or.inr ⟨s', rfl, hshows⟩

theorem Shows.setCalls (h : Shows r s) (calls : List StoreCall) : Shows { r with calls := calls } s :=
  ⟨h.segmentSize_eq, h.handles_eq, h.present_iff, h.dirty_eq, h.free⟩

theorem move_lookup_hit {kind : Kind} {offset n : Nat} (hfree : r.lock = none)
    (hmem : i ∈ r.handles) : r.move c ⟨kind, offset, n, i :: todo, .next⟩ .lookup =
      some (r, ⟨kind, offset, n, i :: todo, .opened⟩) := by
  show (if r.lock = none then some (r, StoreCall.at _ (if i ∈ r.handles then _ else _)) else none) = _
  rw [if_pos hfree, if_pos hmem]
  rfl

theorem move_lookup_miss {kind : Kind} {offset n : Nat} (hfree : r.lock = none)
    (hmem : i ∉ r.handles) : r.move c ⟨kind, offset, n, i :: todo, .next⟩ .lookup =
      some (r, ⟨kind, offset, n, i :: todo, .missed⟩) := by
  show (if r.lock = none then some (r, StoreCall.at _ (if i ∈ r.handles then _ else _)) else none) = _
  rw [if_pos hfree, if_neg hmem]
  rfl

theorem move_lockMap_miss {offset n : Nat} (hfree : r.lock = none) (hmem : i ∉ r.handles) :
    r.move c ⟨.write, offset, n, i :: todo, .missed⟩ .lockMap =
      some ({ r with lock := some c }, ⟨.write, offset, n, i :: todo, .locked⟩) := by
  show (if r.lock = none then if i ∈ r.handles then _ else some (_, StoreCall.at _ .locked) else none) = _
  rw [if_pos hfree, if_neg hmem]
  rfl

theorem segmentForWrite_alone (h : Shows r s) {offset n : Nat}
    (hc : r.calls[c]? = some ⟨.write, offset, n, i :: todo, .next⟩) {res : Except Fault Unit}
    (hrun : segmentForWrite i s = (res, s')) :
    ∃ r', Alone r c r' ⟨.write, offset, n, i :: todo, stageAfter res fun _ => .opened⟩ ∧
      Shows r' s' := by
  rw [segmentForWrite, Act.get_bind] at hrun
  by_cases hmem : i ∈ s.handles
  · rw [if_pos hmem] at hrun
    cases hrun
    exact ⟨_, (alone_refl hc).access .lookup (move_lookup_hit h.free (h.handles_eq ▸ hmem)),
      h.setCalls _⟩
  rw [if_neg hmem] at hrun
  have hmem' : i ∉ r.handles := h.handles_eq ▸ hmem
  have hmissed := (alone_refl hc).access .lookup (move_lookup_miss h.free hmem')
  have hlocked := hmissed.access .lockMap (move_lockMap_miss h.free hmem')
  rcases h.os "creating a log segment" with ⟨fault, s1, hcall, hos⟩ | ⟨s1, hcall, hos⟩
  · rw [Act.bind_error hcall] at hrun
    cases hrun
    exact ⟨_, hlocked.access .createFails rfl,
      ⟨hos.segmentSize_eq, hos.handles_eq, hos.present_iff, hos.dirty_eq, rfl⟩⟩
  · rw [Act.bind_ok hcall] at hrun
    cases hrun
    refine ⟨_, ((hlocked.access .create rfl).access .setFlag rfl).access .insert rfl,
      ⟨hos.segmentSize_eq, congrArg (i :: ·) hos.handles_eq, fun j => ?_, rfl, rfl⟩⟩
    refine DirtyFlag.mem_add.trans ?_
    rw [hos.present_iff]
    show _ ↔ ((s1.dir.createSegment i).segments.lookup j).isSome = true
    rw [Dir.lookup_createSegment]
    by_cases hj : j = i
    · rw [if_pos hj]
      exact iff_of_true (Or.inr hj) rfl
    · rw [if_neg hj]
      exact or_iff_left hj

theorem segmentForRead_alone (h : Shows r s) {offset n : Nat}
    (hc : r.calls[c]? = some ⟨.read, offset, n, i :: todo, .next⟩) {res : Except Fault Bool}
    (hrun : segmentForRead i s = (res, s')) :
    ∃ r', Alone r c r' ⟨.read, offset, n, i :: todo,
        stageAfter res fun found => if found then .opened else .returned⟩ ∧ Shows r' s' := by
  rw [segmentForRead, Act.get_bind] at hrun
  by_cases hmem : i ∈ s.handles
  · rw [if_pos hmem] at hrun
    cases hrun
    exact ⟨_, (alone_refl hc).access .lookup (move_lookup_hit h.free (h.handles_eq ▸ hmem)),
      h.setCalls _⟩
  rw [if_neg hmem] at hrun
  have hmem' : i ∉ r.handles := h.handles_eq ▸ hmem
  have hmissed := (alone_refl hc).access .lookup (move_lookup_miss h.free hmem')
  rcases h.os "opening a log segment" with ⟨fault, s1, hcall, hos⟩ | ⟨s1, hcall, hos⟩
  · rw [Act.bind_error hcall] at hrun
    cases hrun
    exact ⟨_, hmissed.access .openFails rfl, hos.setCalls _⟩
  rw [Act.bind_ok hcall] at hrun
  have hopen := hmissed.access .openFile rfl
  have hin := h.present_iff i
  rw [seg] at hin
  cases hfile : s.dir.segments.lookup i with
  | none =>
      rw [hfile] at hrun hin
      cases hrun
      rw [if_neg (by rw [hin]; exact Bool.false_ne_true)] at hopen
      exact ⟨_, hopen, (hos.setCalls _).setCalls _⟩
  | some file =>
      rw [hfile] at hrun hin
      cases hrun
      rw [if_pos (hin.mpr rfl)] at hopen
      refine ⟨_, hopen.access .insertFound (if_pos h.free), ?_⟩
      refine ⟨hos.segmentSize_eq, ?_, hos.present_iff, hos.dirty_eq, h.free⟩
      exact (if_neg hmem').trans (congrArg (i :: ·) hos.handles_eq)

theorem chunkIndices_zero (size : {n : Nat // 0 < n}) (pos : Nat) :
    chunkIndices size pos 0 = [] := by
  rw [chunkIndices, dif_pos rfl]

theorem chunkIndices_pos (size : {n : Nat // 0 < n}) (pos : Nat) {n : Nat} (hn : n ≠ 0) :
    chunkIndices size pos n = pos / size.val ::
      chunkIndices size (pos + min n (room size.val pos)) (n - min n (room size.val pos)) := by
  rw [chunkIndices, dif_neg hn]

/-- Writing to a file changes nothing that is shown. -/
theorem Shows.modifySegment (h : Shows r s) (i : Nat) (f : File → File) :
    Shows r { s with dir := s.dir.modifySegment i f } := by
  refine ⟨h.segmentSize_eq, h.handles_eq, fun j => ?_, h.dirty_eq, h.free⟩
  rw [h.present_iff, seg, seg, Dir.lookup_modifySegment]
  split
  · rw [Option.isSome_map]
  · rfl

theorem writeChunks_alone (size : {n : Nat // 0 < n}) {offset n : Nat} {res : Except Fault Unit}
    (pos : Nat) (remaining : List UInt8) (h : Shows r s)
    (hc : r.calls[c]? = some ⟨.write, offset, n, chunkIndices size pos remaining.length, .next⟩)
    (hrun : writeChunks size pos remaining s = (res, s')) :
    ∃ r' todo, Alone r c r' ⟨.write, offset, n, todo, stageAfter res fun _ => .returned⟩ ∧
      Shows r' s' := by
  induction hlen : remaining.length using Nat.strong_induction_on generalizing pos remaining r s with
  | _ len ih =>
  subst hlen
  rw [writeChunks] at hrun
  by_cases hnil : remaining = []
  · subst hnil
    rw [dif_pos rfl] at hrun
    cases hrun
    rw [List.length_nil, chunkIndices_zero] at hc
    exact ⟨_, [], (alone_refl hc).access .finish rfl, h.setCalls _⟩
  rw [dif_neg hnil] at hrun
  have hpos := List.length_pos_of_ne_nil hnil
  rw [chunkIndices_pos size pos (Nat.ne_of_gt hpos)] at hc
  obtain ⟨opened, s1, hseg⟩ : ∃ opened s1, segmentForWrite (pos / size.val) s = (opened, s1) :=
    ⟨_, _, rfl⟩
  obtain ⟨r1, hopen, h1⟩ := segmentForWrite_alone h hc hseg
  rcases opened with fault | u
  · rw [Act.bind_error hseg] at hrun
    cases hrun
    exact ⟨r1, _, hopen, h1⟩
  rw [Act.bind_ok hseg] at hrun
  rcases h1.os "writing a record" with ⟨fault, s2, hcall, hos⟩ | ⟨s2, hcall, hos⟩
  · rw [Act.bind_error hcall] at hrun
    cases hrun
    exact ⟨_, _, hopen.access .transferFails rfl, hos.setCalls _⟩
  rw [Act.bind_ok hcall, Act.bind_ok (onDir_modify _ s2), addChecked] at hrun
  by_cases hend : pos + min remaining.length (room size.val pos) < 2 ^ 64
  swap
  · rw [if_neg hend] at hrun
    cases hrun
    exact ⟨_, _, hopen.access .transferFails rfl, (hos.setCalls _).modifySegment _ _⟩
  rw [if_pos hend, Act.pure_bind] at hrun
  have hmoved := hopen.access .transfer rfl
  have hlt : (remaining.drop (min remaining.length (room size.val pos))).length <
      remaining.length := by
    have := room_pos size.property pos
    rw [List.length_drop]
    omega
  obtain ⟨r2, todo, hrest, h2⟩ := ih _ hlt _ _ ((hos.setCalls _).modifySegment _ _)
    (by rw [List.length_drop]; exact hmoved.call_eq) hrun rfl
  exact ⟨r2, todo, hmoved.trans hrest, h2⟩

theorem readChunks_alone (size : {n : Nat // 0 < n}) {offset n : Nat}
    {res : Except Fault (List UInt8)} (pos m : Nat) (h : Shows r s)
    (hc : r.calls[c]? = some ⟨.read, offset, n, chunkIndices size pos m, .next⟩)
    (hrun : readChunks size pos m s = (res, s')) :
    ∃ r' todo, Alone r c r' ⟨.read, offset, n, todo, stageAfter res fun _ => .returned⟩ ∧
      Shows r' s' := by
  induction m using Nat.strong_induction_on generalizing pos r s s' res with
  | _ m ih =>
  rw [readChunks] at hrun
  by_cases hm : m = 0
  · subst hm
    rw [dif_pos rfl] at hrun
    cases hrun
    rw [chunkIndices_zero] at hc
    exact ⟨_, [], (alone_refl hc).access .finish rfl, h.setCalls _⟩
  rw [dif_neg hm] at hrun
  rw [chunkIndices_pos size pos hm] at hc
  obtain ⟨opened, s1, hseg⟩ : ∃ opened s1, segmentForRead (pos / size.val) s = (opened, s1) :=
    ⟨_, _, rfl⟩
  obtain ⟨r1, hopen, h1⟩ := segmentForRead_alone h hc hseg
  rcases opened with fault | found
  · rw [Act.bind_error hseg] at hrun
    cases hrun
    exact ⟨r1, _, hopen, h1⟩
  rw [Act.bind_ok hseg] at hrun
  rcases found with _ | _
  · cases hrun
    exact ⟨r1, _, hopen, h1⟩
  dsimp only at hrun
  rcases h1.os "reading from the log" with ⟨fault, s2, hcall, hos⟩ | ⟨s2, hcall, hos⟩
  · rw [Act.bind_error hcall] at hrun
    cases hrun
    exact ⟨_, _, hopen.access .transferFails rfl, hos.setCalls _⟩
  rw [Act.bind_ok hcall, Act.get_bind] at hrun
  have hle : (((s2.dir.segments.lookup (pos / size.val)).getD File.empty).preadFill (pos % size.val)
      (min m (room size.val pos))).length ≤ min m (room size.val pos) := List.length_take_le _ _
  generalize ((s2.dir.segments.lookup (pos / size.val)).getD File.empty).preadFill (pos % size.val)
    (min m (room size.val pos)) = got at hrun hle
  rw [addChecked] at hrun
  by_cases hend : pos + got.length < 2 ^ 64
  swap
  · rw [if_neg hend] at hrun
    cases hrun
    exact ⟨_, _, hopen.access .transferFails rfl, hos.setCalls _⟩
  rw [if_pos hend, Act.pure_bind] at hrun
  by_cases hshort : got.length < min m (room size.val pos)
  · rw [if_pos hshort] at hrun
    cases hrun
    exact ⟨_, _, hopen.access .shortRead rfl, hos.setCalls _⟩
  rw [if_neg hshort, Nat.le_antisymm hle (Nat.not_lt.mp hshort)] at hrun
  have hmoved := hopen.access .transfer rfl
  have hlt : m - min m (room size.val pos) < m := by
    have := room_pos size.property pos
    omega
  obtain ⟨rest, s3, hnext⟩ : ∃ rest s3, readChunks size (pos + min m (room size.val pos))
      (m - min m (room size.val pos)) s2 = (rest, s3) := ⟨_, _, rfl⟩
  obtain ⟨r2, todo, hrest, h2⟩ := ih _ hlt _ (hos.setCalls _) hmoved.call_eq hnext
  rcases rest with fault | bytes
  · rw [Act.bind_error hnext] at hrun
    cases hrun
    exact ⟨r2, todo, hmoved.trans hrest, h2⟩
  · rw [Act.bind_ok hnext] at hrun
    cases hrun
    exact ⟨r2, todo, hmoved.trans hrest, h2⟩

/-- The calls after `kind` has begun, and the call. -/
theorem start_call (r : Names) (kind : Kind) (offset n : Nat) :
    ∃ r1, r.step (.start kind offset n) = some r1 ∧
      r1.calls[r.calls.length]? =
        some ⟨kind, offset, n, chunkIndices r.segmentSize offset n, .next⟩ ∧
      ∀ s, Shows r s → Shows r1 s :=
  ⟨_, rfl, List.getElem?_concat_length, fun _ h => h.setCalls _⟩

theorem writeAt_alone {offset : Nat} {bytes : List UInt8} {res : Except Fault Unit}
    (h : Shows r s) (hrun : writeAt offset bytes s = (res, s')) :
    ∃ (acts : List Access) (r' : Names) (call : StoreCall), run step r
        (.start .write offset bytes.length :: acts.map (.access r.calls.length)) = some r' ∧
      r'.calls[r.calls.length]? = some call ∧ call.stage = stageAfter res (fun _ => .returned) ∧
      Shows r' s' := by
  obtain ⟨r1, hstart, hc, hshows⟩ := start_call r .write offset bytes.length
  rw [writeAt, Act.get_bind] at hrun
  have hsize : r.segmentSize = ⟨s.segmentSize, s.segmentSize_pos⟩ := Subtype.ext h.segmentSize_eq
  rw [hsize] at hc
  obtain ⟨written, s1, hchunks⟩ : ∃ written s1,
      writeChunks ⟨s.segmentSize, s.segmentSize_pos⟩ offset bytes s = (written, s1) := ⟨_, _, rfl⟩
  obtain ⟨r2, todo, ⟨acts, hacts, hc2⟩, h2⟩ :=
    writeChunks_alone _ offset bytes (hshows s h) hc hchunks
  have hall := (run_cons hstart _).trans hacts
  rcases written with fault | u
  · rw [Act.bind_error hchunks] at hrun
    cases hrun
    exact ⟨acts, r2, _, hall, hc2, rfl, h2⟩
  · rw [Act.bind_ok hchunks] at hrun
    cases hrun
    exact ⟨acts, r2, _, hall, hc2, rfl,
      h2.segmentSize_eq, h2.handles_eq, h2.present_iff, h2.dirty_eq, h2.free⟩

theorem readAt_alone {offset n : Nat} {res : Except Fault (List UInt8)}
    (h : Shows r s) (hrun : readAt offset n s = (res, s')) :
    ∃ (acts : List Access) (r' : Names) (call : StoreCall), run step r
        (.start .read offset n :: acts.map (.access r.calls.length)) = some r' ∧
      r'.calls[r.calls.length]? = some call ∧ call.stage = stageAfter res (fun _ => .returned) ∧
      Shows r' s' := by
  obtain ⟨r1, hstart, hc, hshows⟩ := start_call r .read offset n
  rw [readAt, Act.get_bind] at hrun
  have hsize : r.segmentSize = ⟨s.segmentSize, s.segmentSize_pos⟩ := Subtype.ext h.segmentSize_eq
  rw [hsize] at hc
  obtain ⟨r2, todo, ⟨acts, hacts, hc2⟩, h2⟩ := readChunks_alone _ offset n (hshows s h) hc hrun
  exact ⟨acts, r2, _, (run_cons hstart _).trans hacts, hc2, rfl, h2⟩

/-- The flush of the log directory in `sync`, from its load of the flag on. -/
theorem flushDir_alone {res : Except Fault Unit} (h : Shows r s) (hsync : r.sync = .flushing)
    (hbegun : r.dir.flusher = .begun)
    (hrun : flushDirIfDirty SegmentedStore.dirDirty (fun s dirty => { s with dirDirty := dirty })
      (SegmentedStore.os "flushing the log directory") s = (res, s')) :
    ∃ (acts : List (DirtyFlag.Action Nat)) (r' : Names), run step r (acts.map .flushStep) = some r' ∧
      r'.sync = (if res.toBool then .rest else .failed) ∧ Shows r' s' := by
  rw [flushDirIfDirty, Act.get_bind] at hrun
  have hdirty := h.dirty_eq
  cases hflag : s.dirDirty with
  | false =>
      rw [hflag] at hrun hdirty
      cases hrun
      refine ⟨[.load], { r with dir := { r.dir with flusher := .clean }, sync := .rest }, ?_, rfl,
        h.segmentSize_eq, h.handles_eq, h.present_iff, h.dirty_eq, h.free⟩
      simp [run, step, hsync, ofFlusher, DirtyFlag.step, hbegun, hdirty, syncAt]
  | true =>
      rw [hflag] at hrun hdirty
      rw [if_pos rfl, Act.modify_bind, Act.attempt_bind] at hrun
      have hcleared : Shows { r with dir := { r.dir with dirty := false } }
          { s with dirDirty := false } :=
        ⟨h.segmentSize_eq, h.handles_eq, h.present_iff, rfl, h.free⟩
      rcases hcleared.os "flushing the log directory" with ⟨fault, s1, hcall, hos⟩ | ⟨s1, hcall, hos⟩
      · rw [hcall] at hrun
        cases hrun
        refine ⟨[.load, .swap, .start, .fail, .restore], { r with
          dir := { r.dir with dirty := true, flusher := .idle, owed := true }
          sync := .failed }, ?_, rfl, hos.segmentSize_eq, hos.handles_eq, hos.present_iff, rfl,
          h.free⟩
        simp [run, step, hsync, ofFlusher, DirtyFlag.step, hbegun, hdirty, syncAt]
      · rw [hcall] at hrun
        cases hrun
        refine ⟨[.load, .swap, .start, .finish], { r with
          dir := { r.dir with
            durable := r.dir.present ++ r.dir.durable, dirty := false, flusher := .clean,
            owed := false }
          sync := .rest }, ?_, rfl, hos.segmentSize_eq, hos.handles_eq, hos.present_iff,
          hos.dirty_eq, h.free⟩
        simp [run, step, hsync, ofFlusher, DirtyFlag.step, hbegun, hdirty, syncAt]

end Alone

end Names
end WalDb
