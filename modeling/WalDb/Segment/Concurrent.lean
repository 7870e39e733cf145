/-
Concurrent writers and a flush over a segmented store.

A call of `write_at` is a series of steps: open the segment of the next chunk, write
the chunk, and at the end raise `maxWritten`.  A call of `sync` is one as well: flush the
directory, load `maxWritten`, load `syncedFrom`, flush the segments of the window one by
one, store `syncedFrom`.  Any number of writes are under way at a time, and one flush.

`sync` takes the segments below the one of the last byte to be full.  A write that ends
early in a low segment, while a higher one has already been flushed, is then out of the
window of every later `sync`.  Where no write enters a segment that a flush has left
behind, an Ok from `sync` means what it should.
-/
import WalDb.Segment.Durable

namespace WalDb

open Lib SegmentedStore

/-- Where a call of `write_at` stands: about to open the segment of `pos`, about to write
into it, or done. -/
inductive Phase where
  | writing (pos : Nat) (remaining : List UInt8)
  | opened (pos : Nat) (remaining : List UInt8)
  | returned
  | failed
  deriving DecidableEq

/-- A call of `write_at`. -/
structure Write where
  offset : Nat
  bytes : List UInt8
  phase : Phase
  deriving DecidableEq

/-- Where the call of `sync` stands.  `acked` is the state after it has returned Ok. -/
inductive Syncer where
  | idle
  | begun
  | dirsFlushed
  | loaded (written : Nat)
  | flushing (next active : Nat)
  | acked
  deriving DecidableEq

structure Race where
  store : SegmentedStore
  /-- Every call of `write_at` so far. -/
  writes : List Write
  syncer : Syncer
  /-- The calls that had returned when the last `sync` began. -/
  before : List Nat

namespace Race

def ofStore (store : SegmentedStore) : Race := ⟨store, [], .idle, []⟩

inductive Action where
  | start (offset : Nat) (bytes : List UInt8)
  | openSegment (w : Nat)
  | pwrite (w : Nat)
  | raiseMax (w : Nat)
  | openFails (w : Nat)
  /-- The write of a chunk fails after `done` bytes. -/
  | pwriteFails (w done : Nat)
  | syncBegin
  | flushDirs
  | loadWritten
  | loadFrom
  | flushNext
  | storeFrom
  | syncFails

/-- Two writes have no offset in common. -/
def Apart (v w : Write) : Prop :=
  v.offset + v.bytes.length ≤ w.offset ∨ w.offset + w.bytes.length ≤ v.offset

instance (v w : Write) : Decidable (Apart v w) := inferInstanceAs (Decidable (_ ∨ _))

/-- The bytes that go into the segment of `pos`. -/
def chunk (size pos : Nat) (remaining : List UInt8) : List UInt8 :=
  remaining.take (min remaining.length (room size pos))

/-- Write into the open segment of `pos`. -/
def pwriteAt (pos : Nat) (bytes : List UInt8) (s : SegmentedStore) : SegmentedStore :=
  if bytes = [] then s
  else { s with
    dir := s.dir.modifySegment (pos / s.segmentSize) (·.pwriteAll (pos % s.segmentSize) bytes) }

def setPhase (r : Race) (w : Nat) (write : Write) (phase : Phase) : Race :=
  { r with writes := r.writes.set w { write with phase := phase } }

/-- One step of a call.  Writes are to disjoint ranges, and there is one `sync` at a
time. -/
def step (r : Race) : Action → Option Race
  | .start offset bytes =>
      if ∀ v ∈ r.writes, Apart v ⟨offset, bytes, .writing offset bytes⟩ then
        some { r with writes := r.writes ++ [⟨offset, bytes, .writing offset bytes⟩] }
      else none
  | .openSegment w =>
      match r.writes[w]? with
      | some ⟨offset, bytes, .writing pos (b :: bs)⟩ =>
          (Act.final (segmentForWrite (pos / r.store.segmentSize)) r.store).map fun store =>
            { r with store := store }.setPhase w ⟨offset, bytes, .writing pos (b :: bs)⟩
              (.opened pos (b :: bs))
      | _ => none
  | .pwrite w =>
      match r.writes[w]? with
      | some ⟨offset, bytes, .opened pos remaining⟩ =>
          let here := chunk r.store.segmentSize pos remaining
          -- The position panics where it would leave the offsets.
          some ({ r with store := pwriteAt pos here r.store }.setPhase w
            ⟨offset, bytes, .opened pos remaining⟩
            (if pos + here.length < 2 ^ 64 then
              .writing (pos + here.length) (remaining.drop here.length)
            else .failed))
      | _ => none
  | .raiseMax w =>
      match r.writes[w]? with
      | some ⟨offset, bytes, .writing pos []⟩ =>
          some ({ r with store := { r.store with
            maxWritten := max r.store.maxWritten (saturatingAdd offset bytes.length) } }.setPhase w
              ⟨offset, bytes, .writing pos []⟩ .returned)
      | _ => none
  | .openFails w =>
      match r.writes[w]? with
      | some ⟨offset, bytes, .writing pos (b :: bs)⟩ =>
          some (r.setPhase w ⟨offset, bytes, .writing pos (b :: bs)⟩ .failed)
      | _ => none
  | .pwriteFails w done =>
      match r.writes[w]? with
      | some ⟨offset, bytes, .opened pos remaining⟩ =>
          let here := (chunk r.store.segmentSize pos remaining).take done
          some ({ r with store := pwriteAt pos here r.store }.setPhase w
            ⟨offset, bytes, .opened pos remaining⟩ .failed)
      | _ => none
  | .syncBegin =>
      if r.syncer = .idle ∨ r.syncer = .acked then
        some { r with
          syncer := .begun
          before := (List.range r.writes.length).filter fun w =>
            (r.writes[w]?).any fun write => decide (write.phase = .returned) }
      else none
  | .flushDirs =>
      if r.syncer = .begun then
        (Act.final flushDirs r.store).map fun store =>
          { r with store := store, syncer := .dirsFlushed }
      else none
  | .loadWritten =>
      if r.syncer = .dirsFlushed then
        if r.store.maxWritten = 0 then some { r with syncer := .acked }
        else some { r with syncer := .loaded r.store.maxWritten }
      else none
  | .loadFrom =>
      match r.syncer with
      | .loaded written =>
          some { r with
            syncer := .flushing r.store.syncedFrom ((written - 1) / r.store.segmentSize) }
      | _ => none
  | .flushNext =>
      match r.syncer with
      | .flushing next active =>
          if next ≤ active then
            (Act.final (flushSegments [next]) r.store).map fun store =>
              { r with store := store, syncer := .flushing (next + 1) active }
          else none
      | _ => none
  | .storeFrom =>
      match r.syncer with
      | .flushing next active =>
          if active < next then
            some { r with
              store := { r.store with syncedFrom := active }
              syncer := .acked }
          else none
      | _ => none
  | .syncFails =>
      if r.syncer = .idle ∨ r.syncer = .acked then none else some { r with syncer := .idle }

/-! ## A call on its own

With nothing else under way the steps of a call add up to the call. -/

section Alone

variable {r : Race} {w : Nat}

theorem writes_setPhase {write : Write} {phase : Phase} (h : r.writes[w]? = some write) (j : Nat) :
    (r.setPhase w write phase).writes[j]? =
      if j = w then some { write with phase := phase } else r.writes[j]? := by
  obtain ⟨hlt, -⟩ := List.getElem?_eq_some_iff.mp h
  show (r.writes.set w _)[j]? = _
  rw [List.getElem?_set]
  by_cases hj : w = j
  · rw [if_pos hj, if_pos hj.symm, if_pos (hj ▸ hlt)]
  · rw [if_neg hj, if_neg (Ne.symm hj)]

theorem pwriteAt_eq {s : SegmentedStore} {size pos : Nat} {bytes : List UInt8}
    (hs : s.segmentSize = size) (hne : bytes ≠ []) :
    pwriteAt pos bytes s =
      { s with dir := s.dir.modifySegment (pos / size) (·.pwriteAll (pos % size) bytes) } := by
  subst hs
  exact if_neg hne

theorem open_alone {offset pos size : Nat} {bytes : List UInt8} {b : UInt8} {bs : List UInt8}
    {s1 : SegmentedStore} (hr : r.store.segmentSize = size)
    (hopen : segmentForWrite (pos / size) r.store = (.ok (), s1))
    (hw : r.writes[w]? = some ⟨offset, bytes, .writing pos (b :: bs)⟩) :
    ∃ r1, r.step (.openSegment w) = some r1 ∧ r1.store = s1 ∧
      r1.writes[w]? = some ⟨offset, bytes, .opened pos (b :: bs)⟩ := by
  refine ⟨_, ?_, rfl, (writes_setPhase (r := { r with store := s1 }) hw w).trans (if_pos rfl)⟩
  rw [step, hw]
  dsimp only
  rw [hr, Act.final_ok hopen]
  rfl

theorem pwrite_alone {offset pos size : Nat} {bytes remaining : List UInt8}
    (hr : r.store.segmentSize = size)
    (hw : r.writes[w]? = some ⟨offset, bytes, .opened pos remaining⟩)
    (hfit : pos + (chunk size pos remaining).length < 2 ^ 64) :
    ∃ r1, r.step (.pwrite w) = some r1 ∧
      r1.store = pwriteAt pos (chunk size pos remaining) r.store ∧
      r1.writes[w]? = some ⟨offset, bytes, .writing (pos + (chunk size pos remaining).length)
        (remaining.drop (chunk size pos remaining).length)⟩ := by
  refine ⟨_, ?_, rfl, (writes_setPhase (r := { r with
    store := pwriteAt pos (chunk size pos remaining) r.store }) hw w).trans (if_pos rfl)⟩
  rw [step, hw]
  dsimp only
  rw [hr, if_pos hfit]

theorem flushSegments_cons {s s1 : SegmentedStore} {index : Nat}
    (h : flushSegments [index] s = (.ok (), s1)) (rest : List Nat) :
    flushSegments (index :: rest) s = flushSegments rest s1 := by
  rw [flushSegments, Act.get_bind] at h ⊢
  split at h
  · rename_i hmem
    rw [if_pos hmem]
    obtain ⟨u, s2, h1, h⟩ := Act.bind_eq_ok h
    obtain ⟨v, s3, h2, h⟩ := Act.bind_eq_ok h
    cases h
    rw [Act.bind_ok h1, Act.bind_ok h2]
  · rename_i hmem
    rw [if_neg hmem]
    cases h
    rfl

theorem chunks_alone {offset pos size : Nat} {bytes remaining : List UInt8} (hsize : 0 < size)
    (hr : r.store.segmentSize = size) (h : Ready r.store) (hfit : pos + remaining.length < 2 ^ 64)
    (hw : r.writes[w]? = some ⟨offset, bytes, .writing pos remaining⟩) :
    ∃ acts r' pos', run step r acts = some r' ∧
      writeChunks ⟨size, hsize⟩ pos remaining r.store = (.ok (), r'.store) ∧
      r'.writes[w]? = some ⟨offset, bytes, .writing pos' []⟩ := by
  induction hn : remaining.length using Nat.strongRecOn generalizing r pos remaining with
  | ind n ih =>
      cases remaining with
      | nil => exact ⟨[], r, pos, rfl, by rw [writeChunks, dif_pos rfl]; rfl, hw⟩
      | cons b bs =>
          obtain ⟨s1, hopen, hs1, hf1, -⟩ := segmentForWrite_ok h (pos / size)
          obtain ⟨r1, hstep1, hr1, hw1⟩ := open_alone hr hopen hw
          have hsize1 : r1.store.segmentSize = size := by rw [hr1, hf1.segmentSize_eq, hr]
          have hpos := room_pos hsize pos
          have hlen : (chunk size pos (b :: bs)).length =
              min (b :: bs).length (room size pos) := by
            rw [chunk, List.length_take, Nat.min_eq_left (Nat.min_le_left _ _)]
          obtain ⟨r2, hstep2, hr2, hw2⟩ := pwrite_alone hsize1 hw1 (by omega)
          have hne : chunk size pos (b :: bs) ≠ [] := by
            refine List.ne_nil_of_length_pos ?_
            rw [hlen, List.length_cons]
            omega
          rw [hr1, pwriteAt_eq (hf1.segmentSize_eq.trans hr) hne] at hr2
          obtain ⟨hready2, hf2, -⟩ := modifySegment_ok hs1 (pos / size)
            (·.pwriteAll (pos % size) (chunk size pos (b :: bs)))
          obtain ⟨acts, r', pos', hrun, hwrite, hw'⟩ := ih
            ((b :: bs).drop (chunk size pos (b :: bs)).length).length
            (by rw [List.length_drop, hlen, ← hn, List.length_cons]; omega)
            (by rw [hr2]; exact hf2.segmentSize_eq.trans (hf1.segmentSize_eq.trans hr))
            (by rw [hr2]; exact hready2) (by rw [List.length_drop]; omega) hw2 rfl
          refine ⟨.openSegment w :: .pwrite w :: acts, r', pos',
            by rw [run_cons hstep1, run_cons hstep2, hrun], ?_, hw'⟩
          rw [writeChunks, dif_neg (List.cons_ne_nil b bs)]
          simp only
          rw [Act.bind_ok hopen, Act.bind_ok (os_ok hs1.faults_eq _),
            Act.bind_ok (onDir_modify _ s1), Act.bind_ok (addChecked_ok (by omega) _), ← hwrite, hr2,
            hlen]
          rfl

theorem write_alone {offset : Nat} {bytes : List UInt8} (h : Ready r.store)
    (hfit : offset + bytes.length < 2 ^ 64)
    (hapart : ∀ v ∈ r.writes, Apart v ⟨offset, bytes, .writing offset bytes⟩) :
    ∃ acts r', run step r (.start offset bytes :: acts) = some r' ∧
      WalStore.writeAt offset bytes r.store = (.ok (), r'.store) ∧
      r'.writes[r.writes.length]? = some ⟨offset, bytes, .returned⟩ := by
  have hstart : r.step (.start offset bytes) = some { r with
      writes := r.writes ++ [⟨offset, bytes, .writing offset bytes⟩] } := by
    rw [step, if_pos hapart]
  obtain ⟨acts, r1, pos, hrun, hwrite, hw⟩ := chunks_alone (w := r.writes.length)
    (r := { r with writes := r.writes ++ [⟨offset, bytes, .writing offset bytes⟩] })
    r.store.segmentSize_pos rfl h hfit List.getElem?_concat_length
  refine ⟨acts ++ [.raiseMax r.writes.length], _, ?_, ?_,
    (writes_setPhase (r := { r1 with store := { r1.store with
      maxWritten := max r1.store.maxWritten (saturatingAdd offset bytes.length) } }) hw _).trans
      (if_pos rfl)⟩
  · rw [run_cons hstart, run_append hrun, run, step, hw]
    rfl
  · show writeAt offset bytes r.store = _
    rw [writeAt, Act.get_bind, Act.bind_ok hwrite]
    rfl

theorem flushes_alone {next active n : Nat} (h : Ready r.store)
    (hsync : r.syncer = .flushing next active) (hn : next + n = active + 1) :
    ∃ r', run step r (List.replicate n .flushNext) = some r' ∧
      flushSegments (List.range' next n) r.store = (.ok (), r'.store) ∧
      r'.syncer = .flushing (active + 1) active := by
  induction n generalizing r next with
  | zero => exact ⟨r, rfl, rfl, by rw [hsync, ← hn]; rfl⟩
  | succ n ih =>
      obtain ⟨s1, hflush, hs1, -⟩ := flushSegments_ok (List.nodup_singleton next) h
      have hstep : r.step .flushNext = some { r with
          store := s1, syncer := .flushing (next + 1) active } := by
        rw [step, hsync]
        dsimp only
        rw [if_pos (by omega), Act.final_ok hflush]
        rfl
      obtain ⟨r', hrun, hrest, hsync'⟩ := ih
        (r := { r with store := s1, syncer := .flushing (next + 1) active }) hs1 rfl (by omega)
      refine ⟨r', by rw [List.replicate_succ, run_cons hstep, hrun], ?_, hsync'⟩
      rw [List.range'_succ, flushSegments_cons hflush]
      exact hrest

theorem sync_alone (h : Ready r.store) (hsync : r.syncer = .idle ∨ r.syncer = .acked) :
    ∃ acts r', run step r (.syncBegin :: acts) = some r' ∧
      WalStore.sync r.store = (.ok (), r'.store) ∧ r'.syncer = .acked := by
  obtain ⟨r1, hbegin, hr1, hsync1⟩ : ∃ r1, r.step .syncBegin = some r1 ∧ r1.store = r.store ∧
      r1.syncer = .begun := by
    rw [step, if_pos hsync]
    exact ⟨_, rfl, rfl, rfl⟩
  have hdirs : r1.step .flushDirs = some { r1 with
      store := { r.store with dirDirty := false, parentDirty := false }
      syncer := .dirsFlushed } := by
    rw [step, if_pos hsync1, hr1, Act.final_ok (flushDirs_ok h)]
    rfl
  show ∃ acts r', _ ∧ sync r.store = _ ∧ _
  rw [sync, Act.bind_ok (flushDirs_ok h), Act.get_bind]
  have hready : Ready { r.store with dirDirty := false, parentDirty := false } :=
    ⟨h.faults_eq, h.handles_ok⟩
  generalize { r.store with dirDirty := false, parentDirty := false } = s at hdirs hready ⊢
  by_cases hzero : s.maxWritten = 0
  · refine ⟨[.flushDirs, .loadWritten], { r1 with store := s, syncer := .acked }, ?_, ?_, rfl⟩
    · rw [run_cons hbegin, run_cons hdirs, run, step, if_pos rfl, if_pos hzero]
      rfl
    · dsimp only
      rw [if_pos hzero]
      rfl
  · have hload : step { r1 with store := s, syncer := .dirsFlushed } .loadWritten =
        some { r1 with store := s, syncer := .loaded s.maxWritten } := by
      rw [step, if_pos rfl, if_neg hzero]
    have hfrom : step { r1 with store := s, syncer := .loaded s.maxWritten } .loadFrom =
        some { r1 with
          store := s
          syncer := .flushing s.syncedFrom ((s.maxWritten - 1) / s.segmentSize) } := rfl
    dsimp only
    rw [if_neg hzero]
    generalize (s.maxWritten - 1) / s.segmentSize = active at hfrom
    -- The window is empty, or the flushes go through it one by one.
    obtain ⟨r2, next, hrun, hflush, hsync2, hlt⟩ : ∃ r2 next,
        run step { r1 with store := s, syncer := .flushing s.syncedFrom active }
          (List.replicate (active + 1 - s.syncedFrom) .flushNext) = some r2 ∧
        flushSegments (List.range' s.syncedFrom (active + 1 - s.syncedFrom)) s =
          (.ok (), r2.store) ∧ r2.syncer = .flushing next active ∧ active < next := by
      by_cases hle : s.syncedFrom ≤ active + 1
      · obtain ⟨r2, hrun, hflush, hsync2⟩ := flushes_alone
          (r := { r1 with store := s, syncer := .flushing s.syncedFrom active }) hready rfl
          (Nat.add_sub_cancel' hle)
        exact ⟨r2, _, hrun, hflush, hsync2, Nat.lt_succ_self active⟩
      · rw [show active + 1 - s.syncedFrom = 0 by omega]
        exact ⟨_, s.syncedFrom, rfl, rfl, rfl, by omega⟩
    refine ⟨.flushDirs :: .loadWritten :: .loadFrom ::
      (List.replicate (active + 1 - s.syncedFrom) .flushNext ++ [.storeFrom]),
      { r2 with store := { r2.store with syncedFrom := active }, syncer := .acked }, ?_, ?_, rfl⟩
    · rw [run_cons hbegin, run_cons hdirs, run_cons hload, run_cons hfrom, run_append hrun, run, step,
        hsync2]
      dsimp only
      rw [if_pos hlt]
      rfl
    · rw [Act.bind_ok hflush]
      rfl

end Alone

/-! ## The condition -/

/-- The flush under way, if there is one, has still to come to segment `i`, or will keep
it in the window. -/
def Reaches (i : Nat) : Syncer → Prop
  | .flushing next active => next ≤ i ∨ active ≤ i
  | _ => True

instance (i : Nat) : ∀ syncer, Decidable (Reaches i syncer)
  | .flushing _ _ => inferInstanceAs (Decidable (_ ∨ _))
  | .idle | .begun | .dirsFlushed | .loaded _ | .acked => inferInstanceAs (Decidable True)

/-- No flush has left segment `i` behind. -/
def Ahead (r : Race) (i : Nat) : Prop := r.store.syncedFrom ≤ i ∧ Reaches i r.syncer

instance (r : Race) (i : Nat) : Decidable (r.Ahead i) := inferInstanceAs (Decidable (_ ∧ _))

/-- The segment that call `w` is about to write into. -/
def target (r : Race) (w : Nat) : Option Nat :=
  match r.writes[w]? with
  | some ⟨_, _, .opened pos _⟩ => some (pos / r.store.segmentSize)
  | _ => none

/-- The condition on a step: a write ends at an offset, and no chunk goes into a segment
that a flush has left behind. -/
def Follows (r : Race) : Action → Prop
  | .start offset bytes => offset + bytes.length < 2 ^ 64
  | .pwrite w | .pwriteFails w _ => ∀ i ∈ r.target w, r.Ahead i
  | _ => True

instance (r : Race) : ∀ a, Decidable (r.Follows a)
  | .start _ _ => inferInstanceAs (Decidable (_ < _))
  | .pwrite w | .pwriteFails w _ => inferInstanceAs (Decidable (∀ i ∈ r.target w, _))
  | .openSegment _ | .raiseMax _ | .openFails _ | .syncBegin | .flushDirs | .loadWritten
  | .loadFrom | .flushNext | .storeFrom | .syncFails => inferInstanceAs (Decidable True)

/-! ## The store under one step of a write -/

section Store

variable {s s' : SegmentedStore}

/-- The files after segment `index` has been opened for writing. -/
theorem segmentForWrite_files (index : Nat) (h : Ready s)
    (hopened : ∀ i, (s.seg i).isSome = true → i ∈ s.handles) :
    ∃ s', segmentForWrite index s = (.ok (), s') ∧ Ready s' ∧ Frame s s' ∧
      (∀ i, (s'.seg i).isSome = true → i ∈ s'.handles) ∧
      (∀ i, (s.seg i).isSome = true → (s'.seg i).isSome = true) ∧
      (s'.seg index).isSome = true ∧ s'.image = s.image ∧ s'.durableImage = s.durableImage ∧
      ∀ i, s.CleanSeg i → s'.CleanSeg i := by
  obtain ⟨s', hrun, hs', hf, hseg, hh⟩ := segmentForWrite_ok h index
  -- A segment that was not there is there now, and empty.
  have hcases : ∀ i, s'.seg i = s.seg i ∨ s.seg i = none ∧ s'.seg i = some File.empty := by
    intro i
    rw [hseg]
    split
    · cases s.seg i with
      | none => exact Or.inr ⟨rfl, rfl⟩
      | some file => exact Or.inl rfl
    · exact Or.inl rfl
  refine ⟨s', hrun, hs', hf, fun i hi => ?_, fun i hi => ?_, ?_, ?_, ?_, fun i hc file hfile => ?_⟩
  · rw [hh]
    by_cases heq : i = index
    · exact Or.inr heq
    · rw [hseg, if_neg heq] at hi
      exact Or.inl (hopened i hi)
  · rcases hcases i with heq | ⟨-, heq⟩
    · rwa [heq]
    · rw [heq]
      rfl
  · rw [hseg, if_pos rfl]
    rfl
  · refine image_eq_of_written hf.segmentSize_eq fun i => ?_
    rcases hcases i with heq | ⟨hnone, heq⟩
    · rw [heq]
    · rw [heq, hnone]
      rfl
  · funext o
    rw [durableImage, durableImage, hf.segmentSize_eq]
    rcases hcases (o / s.segmentSize) with heq | ⟨hnone, heq⟩
    · rw [heq]
    · rw [heq, hnone]
      rfl
  · rw [Option.mem_def] at hfile
    rcases hcases i with heq | ⟨-, heq⟩
    · exact hc file (heq ▸ hfile)
    · rw [heq] at hfile
      cases hfile
      exact List.prefix_rfl

/-- The files after a chunk has been written into its open segment. -/
theorem pwriteAt_patched {pos : Nat} (bytes : List UInt8) (h : Ready s)
    (hseg : (s.seg (pos / s.segmentSize)).isSome = true)
    (hroom : bytes.length ≤ room s.segmentSize pos) :
    Ready (pwriteAt pos bytes s) ∧ Frame s (pwriteAt pos bytes s) ∧
      (pwriteAt pos bytes s).handles = s.handles ∧ Patched pos bytes s (pwriteAt pos bytes s) := by
  unfold pwriteAt
  by_cases hnil : bytes = []
  · rw [if_pos hnil, hnil]
    exact ⟨h, Frame.refl s, rfl, rfl, fun i => (patched_nil _ _ _ _).symm⟩
  · rw [if_neg hnil]
    obtain ⟨hs', hf, hmod⟩ := modifySegment_ok h (pos / s.segmentSize)
      (·.pwriteAll (pos % s.segmentSize) bytes)
    refine ⟨hs', hf, rfl, rfl, fun i => (hmod i).trans ?_⟩
    have htake : min bytes.length (room s.segmentSize pos) = bytes.length := Nat.min_eq_left hroom
    split
    · rename_i hi
      obtain ⟨file, hfile⟩ := Option.isSome_iff_exists.mp hseg
      rw [hi, patched_first s.segmentSize_pos hnil, htake, List.take_length, hfile]
      rfl
    · rename_i hi
      rw [patched_rest s.segmentSize_pos hi, htake, List.drop_length, patched_nil]

end Store

/-! ## The invariant -/

/-- The first `n` bytes of the write are in the store. -/
def Landed (s : SegmentedStore) (w : Write) (n : Nat) : Prop :=
  ∀ k < n, s.image (w.offset + k) = w.bytes[k]?

/-- The write has come to `pos`, with `remaining` still to go. -/
def Reached (s : SegmentedStore) (w : Write) (pos : Nat) (remaining : List UInt8) : Prop :=
  ∃ written, w.bytes = written ++ remaining ∧ pos = w.offset + written.length ∧
    Landed s w written.length

/-- What holds of a write at each point of the call. -/
def Progress (s : SegmentedStore) (w : Write) : Prop :=
  match w.phase with
  | .writing pos remaining => Reached s w pos remaining
  | .opened pos remaining =>
      Reached s w pos remaining ∧ (s.seg (pos / s.segmentSize)).isSome = true
  | .returned => Landed s w w.bytes.length ∧ w.offset + w.bytes.length ≤ s.maxWritten
  | .failed => True

/-- Every byte of the write would survive a power loss. -/
def Stable (s : SegmentedStore) (w : Write) : Prop :=
  ∀ k < w.bytes.length, s.durableImage (w.offset + k) = w.bytes[k]?

/-- `P` holds of every call that had returned when the last `sync` began. -/
def EachBefore (r : Race) (P : Write → Prop) : Prop :=
  ∀ j ∈ r.before, ∀ w, r.writes[j]? = some w → P w

/-- What holds at each point of a flush: the segments it has left behind are clean, and
the bytes it has come past are stable. -/
def Flushes (r : Race) : Prop :=
  match r.syncer with
  | .idle | .begun | .dirsFlushed => True
  | .loaded written => r.EachBefore fun w => w.offset + w.bytes.length ≤ written
  | .flushing next active =>
      (∀ i < next, i < active → r.store.CleanSeg i) ∧
        r.EachBefore fun w => ∀ k < w.bytes.length,
          (w.offset + k) / r.store.segmentSize ≤ active ∧
            ((w.offset + k) / r.store.segmentSize < next →
              r.store.durableImage (w.offset + k) = w.bytes[k]?)
  | .acked => r.EachBefore (Stable r.store)

structure Inv (r : Race) : Prop extends Ready r.store where
  opened : ∀ i, (r.store.seg i).isSome = true → i ∈ r.store.handles
  fits : ∀ (j : Nat) (w : Write), r.writes[j]? = some w → w.offset + w.bytes.length < 2 ^ 64
  apart : ∀ (i j : Nat) (v w : Write), i ≠ j → r.writes[i]? = some v → r.writes[j]? = some w →
    Apart v w
  progress : ∀ (j : Nat) (w : Write), r.writes[j]? = some w → Progress r.store w
  clean : ∀ i < r.store.syncedFrom, r.store.CleanSeg i
  before_returned : r.EachBefore fun w => w.phase = .returned
  before_lt : ∀ j ∈ r.before, j < r.writes.length
  flushes : r.Flushes

section Steps

variable {r r' : Race} {s s' : SegmentedStore} {w : Nat} {write : Write} {phase : Phase}

theorem Landed.mono {n : Nat} (h : Landed s write n) (hn : n ≤ write.bytes.length)
    (hkeep : ∀ o b, write.offset ≤ o → o < write.offset + write.bytes.length →
      s.image o = some b → s'.image o = some b) : Landed s' write n := by
  intro k hk
  have hget := List.getElem?_eq_getElem (show k < write.bytes.length by omega)
  rw [hget]
  exact hkeep _ _ (Nat.le_add_right _ _) (by omega) ((h k hk).trans hget)

theorem Reached.mono {pos : Nat} {remaining : List UInt8} (h : Reached s write pos remaining)
    (hkeep : ∀ o b, write.offset ≤ o → o < write.offset + write.bytes.length →
      s.image o = some b → s'.image o = some b) : Reached s' write pos remaining := by
  obtain ⟨written, hbytes, hpos, hland⟩ := h
  refine ⟨written, hbytes, hpos, hland.mono ?_ hkeep⟩
  rw [hbytes, List.length_append]
  exact Nat.le_add_right _ _

/-- A write keeps its progress while the store grows around it. -/
theorem Progress.mono (h : Progress s write) (hsize : s'.segmentSize = s.segmentSize)
    (hmax : s.maxWritten ≤ s'.maxWritten)
    (hseg : ∀ i, (s.seg i).isSome = true → (s'.seg i).isSome = true)
    (hkeep : ∀ o b, write.offset ≤ o → o < write.offset + write.bytes.length →
      s.image o = some b → s'.image o = some b) : Progress s' write := by
  unfold Progress at h ⊢
  split at h
  · exact h.mono hkeep
  · rw [hsize]
    exact ⟨h.1.mono hkeep, hseg _ h.2⟩
  · exact ⟨h.1.mono (Nat.le_refl _) hkeep, Nat.le_trans h.2 hmax⟩
  · trivial

/-- A step of a write keeps what holds of the flush under way. -/
theorem Flushes.mono (h : r.Flushes) (hsync : r'.syncer = r.syncer)
    (hsize : r'.store.segmentSize = r.store.segmentSize)
    (hdurable : r'.store.durableImage = r.store.durableImage)
    (hbefore : ∀ P, r.EachBefore P → r'.EachBefore P)
    (hclean : ∀ i, ¬ r.Ahead i → r.store.CleanSeg i → r'.store.CleanSeg i) : r'.Flushes := by
  unfold Flushes at h ⊢
  rw [hsync]
  split at h
  · trivial
  · trivial
  · trivial
  · exact hbefore _ h
  · rename_i next active hflush
    rw [hsize, hdurable]
    refine ⟨fun i hi hlt => hclean i (fun hahead => ?_) (h.1 i hi hlt), hbefore _ h.2⟩
    have := hahead.2
    rw [hflush, Reaches] at this
    omega
  · unfold Stable at h ⊢
    rw [hdurable]
    exact hbefore _ h

/-- One step of a call that has not returned keeps the invariant, if it leaves alone the
other writes, the stable bytes, and the segments that a flush has left behind. -/
theorem Inv.writer (h : Inv r) (hw : r.writes[w]? = some write) (hphase : write.phase ≠ .returned)
    (hready : Ready s') (hopened : ∀ i, (s'.seg i).isSome = true → i ∈ s'.handles)
    (hsize : s'.segmentSize = r.store.segmentSize) (hfrom : s'.syncedFrom = r.store.syncedFrom)
    (hmax : r.store.maxWritten ≤ s'.maxWritten)
    (hseg : ∀ i, (r.store.seg i).isSome = true → (s'.seg i).isSome = true)
    (hdurable : s'.durableImage = r.store.durableImage)
    (hclean : ∀ i, ¬ r.Ahead i → r.store.CleanSeg i → s'.CleanSeg i)
    (hother : ∀ o b, o < write.offset ∨ write.offset + write.bytes.length ≤ o →
      r.store.image o = some b → s'.image o = some b)
    (hown : Progress s' { write with phase := phase }) :
    Inv ({ r with store := s' }.setPhase w write phase) := by
  have hget : ∀ j, ({ r with store := s' }.setPhase w write phase).writes[j]? =
      if j = w then some { write with phase := phase } else r.writes[j]? :=
    writes_setPhase (r := { r with store := s' }) hw
  -- The calls that had returned are the same.
  have hbefore : ∀ P, r.EachBefore P → ({ r with store := s' }.setPhase w write phase).EachBefore P := by
    intro P hP j hj v hv
    rw [hget] at hv
    split at hv
    · rename_i heq
      exact absurd (h.before_returned j hj write (heq ▸ hw)) hphase
    · exact hP j hj v hv
  -- Every write has the range it had.
  have hrange : ∀ (j : Nat) (v : Write), ({ r with store := s' }.setPhase w write phase).writes[j]? = some v →
      ∃ v', r.writes[j]? = some v' ∧ v'.offset = v.offset ∧ v'.bytes = v.bytes := by
    intro j v hv
    rw [hget] at hv
    split at hv
    · rename_i heq
      cases hv
      exact ⟨write, heq ▸ hw, rfl, rfl⟩
    · exact ⟨v, hv, rfl, rfl⟩
  refine ⟨hready, hopened, fun j v hv => ?_, fun i j u v hij hu hv => ?_, fun j v hv => ?_,
    fun i hi => ?_, hbefore _ h.before_returned, fun j hj => ?_, ?_⟩
  · obtain ⟨v', hv', ho, hb⟩ := hrange j v hv
    rw [← ho, ← hb]
    exact h.fits j v' hv'
  · obtain ⟨u', hu', huo, hub⟩ := hrange i u hu
    obtain ⟨v', hv', hvo, hvb⟩ := hrange j v hv
    have := h.apart i j u' v' hij hu' hv'
    rwa [Apart, huo, hub, hvo, hvb] at this
  · rw [hget] at hv
    split at hv
    · cases hv
      exact hown
    · rename_i hne
      refine (h.progress j v hv).mono hsize hmax hseg fun o b hlo hhi => hother o b ?_
      have := h.apart j w v write hne hv hw
      rw [Apart] at this
      omega
  · have hi : i < s'.syncedFrom := hi
    rw [hfrom] at hi
    exact hclean i (fun hahead => absurd hahead.1 (Nat.not_le.mpr hi)) (h.clean i hi)
  · show j < (r.writes.set w _).length
    rw [List.length_set]
    exact h.before_lt j hj
  · exact h.flushes.mono rfl hsize hdurable hbefore hclean

/-! ### The steps of a write -/

theorem Inv.start (h : Inv r) {offset : Nat} {bytes : List UInt8}
    (hfit : offset + bytes.length < 2 ^ 64)
    (hstep : r.step (.start offset bytes) = some r') : Inv r' := by
  rw [step] at hstep
  split at hstep
  · rename_i hapart
    cases hstep
    have hget : ∀ (j : Nat) (v : Write),
        (r.writes ++ [⟨offset, bytes, .writing offset bytes⟩])[j]? = some v →
        r.writes[j]? = some v ∨
          j = r.writes.length ∧ v = ⟨offset, bytes, .writing offset bytes⟩ := by
      intro j v hv
      rcases Nat.lt_trichotomy j r.writes.length with hlt | heq | hgt
      · rw [List.getElem?_append_left hlt] at hv
        exact Or.inl hv
      · rw [heq, List.getElem?_concat_length] at hv
        exact Or.inr ⟨heq, (Option.some.inj hv).symm⟩
      · rw [List.getElem?_eq_none (by rw [List.length_append, List.length_singleton]; omega)] at hv
        cases hv
    have hbefore : ∀ P, r.EachBefore P → EachBefore { r with
        writes := r.writes ++ [⟨offset, bytes, .writing offset bytes⟩] } P := by
      intro P hP j hj v hv
      rw [List.getElem?_append_left (h.before_lt j hj)] at hv
      exact hP j hj v hv
    refine ⟨h.toReady, h.opened, fun j v hv => ?_, fun i j u v hij hu hv => ?_, fun j v hv => ?_,
      h.clean, hbefore _ h.before_returned, fun j hj => ?_, ?_⟩
    · rcases hget j v hv with hv | ⟨-, rfl⟩
      · exact h.fits j v hv
      · exact hfit
    · rcases hget i u hu with hu | ⟨hi, rfl⟩ <;> rcases hget j v hv with hv | ⟨hj, rfl⟩
      · exact h.apart i j u v hij hu hv
      · exact hapart u (List.mem_of_getElem? hu)
      · exact (hapart v (List.mem_of_getElem? hv)).symm
      · exact absurd (hi.trans hj.symm) hij
    · rcases hget j v hv with hv | ⟨-, rfl⟩
      · exact h.progress j v hv
      · exact ⟨[], rfl, rfl, fun k hk => absurd hk (Nat.not_lt_zero k)⟩
    · show j < (r.writes ++ _).length
      rw [List.length_append]
      have := h.before_lt j hj
      omega
    · exact h.flushes.mono rfl rfl rfl hbefore fun _ _ hc => hc
  · cases hstep

theorem Inv.openSegment (h : Inv r) (hstep : r.step (.openSegment w) = some r') : Inv r' := by
  rw [step] at hstep
  split at hstep
  · rename_i offset bytes pos b bs hw
    obtain ⟨s', hrun, hs', hf, hopened, hseg, hthere, himage, hdurable, hclean⟩ :=
      segmentForWrite_files (pos / r.store.segmentSize) h.toReady h.opened
    rw [Act.final_ok hrun] at hstep
    cases hstep
    refine h.writer hw nofun hs' hopened hf.segmentSize_eq hf.syncedFrom_eq
      (Nat.le_of_eq hf.maxWritten_eq.symm) hseg hdurable (fun i _ => hclean i)
      (fun o b _ hb => himage ▸ hb) ⟨?_, ?_⟩
    · exact Reached.mono (h.progress w _ hw) fun o b _ _ hb => himage ▸ hb
    · rw [hf.segmentSize_eq]
      exact hthere
  · cases hstep

theorem chunk_length_le (size pos : Nat) (remaining : List UInt8) :
    (chunk size pos remaining).length ≤ min remaining.length (room size pos) := by
  rw [chunk, List.length_take]
  exact Nat.min_le_left _ _

/-- A chunk stays within its segment. -/
theorem not_touches_of_room {size pos n i : Nat} (hsize : 0 < size) (hn : n ≤ room size pos)
    (hi : i ≠ pos / size) : ¬ Touches size pos n i := by
  rw [touches_rest hsize hi, Nat.min_eq_left hn, Nat.sub_self]
  exact fun ht => absurd ht.2.2 (Nat.lt_irrefl 0)

/-- A part of a chunk, whole or not, written by a call that is about to write it. -/
theorem Inv.pwriteAt (h : Inv r) {offset pos : Nat} {bytes remaining here : List UInt8}
    (hw : r.writes[w]? = some ⟨offset, bytes, .opened pos remaining⟩)
    (hahead : r.Ahead (pos / r.store.segmentSize))
    (hlen : here.length ≤ min remaining.length (room r.store.segmentSize pos))
    (hown : Patched pos here r.store (pwriteAt pos here r.store) →
      Progress (pwriteAt pos here r.store) ⟨offset, bytes, phase⟩) :
    Inv ({ r with store := pwriteAt pos here r.store }.setPhase w
      ⟨offset, bytes, .opened pos remaining⟩ phase) := by
  obtain ⟨⟨written, hbytes, hpos, -⟩, hthere⟩ := h.progress w _ hw
  obtain ⟨hs', hf, hh, hp⟩ := pwriteAt_patched here h.toReady hthere (by omega)
  have hsome : ∀ i, ((Race.pwriteAt pos here r.store).seg i).isSome = true ↔
      (r.store.seg i).isSome = true := by
    intro i
    rw [hp.seg_eq, patched]
    split
    · rename_i ht
      by_cases hi : i = pos / r.store.segmentSize
      · rw [hi]
        exact ⟨fun _ => hthere, fun _ => rfl⟩
      · exact absurd ht (not_touches_of_room r.store.segmentSize_pos (by omega) hi)
    · exact Iff.rfl
  have hbytes : bytes.length = written.length + remaining.length := by
    rw [show bytes = written ++ remaining from hbytes, List.length_append]
  have hpos : pos = offset + written.length := hpos
  have hphase : Phase.opened pos remaining ≠ .returned := by simp
  refine h.writer hw hphase hs' (fun i hi => ?_) hf.segmentSize_eq hf.syncedFrom_eq
    (Nat.le_of_eq hf.maxWritten_eq.symm) (fun i hi => (hsome i).mpr hi) hp.durable_eq
    (fun i hnot hc => ?_) (fun o b ho hb => ?_) (hown hp)
  · rw [hh]
    exact h.opened i ((hsome i).mp hi)
  · refine hp.cleanSeg (not_touches_of_room r.store.segmentSize_pos (by omega) ?_) hc
    exact fun hi => hnot (hi ▸ hahead)
  · refine hp.image_out ?_ hb
    have ho : o < offset ∨ offset + bytes.length ≤ o := ho
    omega

theorem target_opened {offset pos : Nat} {bytes remaining : List UInt8}
    (hw : r.writes[w]? = some ⟨offset, bytes, .opened pos remaining⟩) :
    r.target w = some (pos / r.store.segmentSize) := by
  rw [target, hw]

theorem Inv.pwrite (h : Inv r) (hok : r.Follows (.pwrite w))
    (hstep : r.step (.pwrite w) = some r') : Inv r' := by
  rw [step] at hstep
  split at hstep
  · rename_i offset bytes pos remaining hw
    cases hstep
    have hlen := chunk_length_le r.store.segmentSize pos remaining
    refine h.pwriteAt hw (hok _ (target_opened hw)) hlen fun hp => ?_
    obtain ⟨⟨written, hbytes, hpos, hland⟩, -⟩ := h.progress w _ hw
    have hfit : offset + bytes.length < 2 ^ 64 := h.fits w _ hw
    have hbytes : bytes = written ++ remaining := hbytes
    have hpos : pos = offset + written.length := hpos
    have hlens : bytes.length = written.length + remaining.length := by
      rw [hbytes, List.length_append]
    -- The chunk is what the call had remaining, up to where the segment ends.
    have hsplit : remaining = chunk r.store.segmentSize pos remaining ++
        remaining.drop (chunk r.store.segmentSize pos remaining).length := by
      have htake : chunk r.store.segmentSize pos remaining =
          remaining.take (chunk r.store.segmentSize pos remaining).length := by
        conv_lhs => rw [chunk]
        rw [chunk, List.length_take, Nat.min_eq_left (Nat.min_le_left _ _)]
      conv_lhs => rw [← List.take_append_drop
        (chunk r.store.segmentSize pos remaining).length remaining]
      rw [← htake]
    generalize chunk r.store.segmentSize pos remaining = here at hlen hp hsplit ⊢
    rw [if_pos (by omega)]
    refine ⟨written ++ here, ?_, ?_, fun k hk => ?_⟩
    · show bytes = _
      rw [List.append_assoc, ← hsplit, hbytes]
    · show pos + here.length = offset + (written ++ here).length
      rw [List.length_append, hpos, Nat.add_assoc]
    · rw [List.length_append] at hk
      show (Race.pwriteAt pos here r.store).image (offset + k) = bytes[k]?
      by_cases hlt : k < written.length
      · have hk' := (hland k hlt).trans (List.getElem?_eq_getElem (show k < bytes.length by omega))
        rw [hp.image_out (Or.inl (by omega)) hk']
        exact (List.getElem?_eq_getElem _).symm
      · rw [hp.image_in (by omega) (by omega) (by omega), hbytes, hsplit, ← List.append_assoc,
          List.getElem?_append_left (by rw [List.length_append]; omega),
          List.getElem?_append_right (by omega)]
        congr 1
        omega
  · cases hstep

theorem Inv.pwriteFails (h : Inv r) {done : Nat} (hok : r.Follows (.pwriteFails w done))
    (hstep : r.step (.pwriteFails w done) = some r') : Inv r' := by
  rw [step] at hstep
  split at hstep
  · rename_i offset bytes pos remaining hw
    cases hstep
    have hlen := chunk_length_le r.store.segmentSize pos remaining
    refine h.pwriteAt hw (hok _ (target_opened hw)) ?_ fun _ => trivial
    rw [List.length_take]
    omega
  · cases hstep

theorem Inv.raiseMax (h : Inv r) (hstep : r.step (.raiseMax w) = some r') : Inv r' := by
  rw [step] at hstep
  split at hstep
  · rename_i offset bytes pos hw
    cases hstep
    obtain ⟨written, hbytes, -, hland⟩ := h.progress w _ hw
    have hfit : offset + bytes.length < 2 ^ 64 := h.fits w _ hw
    have hbytes : bytes = written := by
      rw [← List.append_nil written]
      exact hbytes
    have hready : Ready { r.store with
        maxWritten := max r.store.maxWritten (saturatingAdd offset bytes.length) } :=
      ⟨h.faults_eq, h.handles_ok⟩
    refine h.writer hw nofun hready h.opened rfl rfl (Nat.le_max_left _ _) (fun _ hi => hi) rfl
      (fun _ _ hc => hc) (fun _ _ _ hb => hb) ⟨?_, ?_⟩
    · rw [← hbytes] at hland
      exact hland
    · show offset + bytes.length ≤ max _ (min (offset + bytes.length) (2 ^ 64 - 1))
      omega
  · cases hstep

theorem Inv.openFails (h : Inv r) (hstep : r.step (.openFails w) = some r') : Inv r' := by
  rw [step] at hstep
  split at hstep
  · rename_i offset bytes pos b bs hw
    cases hstep
    exact h.writer hw nofun h.toReady h.opened rfl rfl (Nat.le_refl _) (fun _ hi => hi) rfl
      (fun _ _ hc => hc) (fun _ _ _ hb => hb) trivial
  · cases hstep

/-! ### The steps of a flush -/

/-- The files after one segment of the window has been flushed. -/
theorem flushSegments_one (h : Ready s) (hopened : ∀ i, (s.seg i).isSome = true → i ∈ s.handles)
    (index : Nat) :
    ∃ s', flushSegments [index] s = (.ok (), s') ∧ Ready s' ∧ Frame s s' ∧
      s'.handles = s.handles ∧ (∀ i, (s'.seg i).isSome = (s.seg i).isSome) ∧
      s'.image = s.image ∧ s'.CleanSeg index ∧ (∀ i, s.CleanSeg i → s'.CleanSeg i) ∧
      ∀ o, o / s.segmentSize ≠ index → s'.durableImage o = s.durableImage o := by
  obtain ⟨s', hrun, hs', hf, hh, hseg⟩ := flushSegments_ok (List.nodup_singleton index) h
  have hcases : ∀ i, s'.seg i = s.seg i ∨ i = index ∧ s'.seg i = (s.seg i).map File.durableSync := by
    intro i
    rw [hseg]
    split
    · rename_i hmem
      exact Or.inr ⟨List.mem_singleton.mp hmem.1, rfl⟩
    · exact Or.inl rfl
  have hclean : ∀ i, s.CleanSeg i → s'.CleanSeg i := by
    intro i hc file hfile
    rw [Option.mem_def] at hfile
    rcases hcases i with heq | ⟨-, heq⟩
    · exact hc file (heq ▸ hfile)
    · rw [heq] at hfile
      obtain ⟨f, -, rfl⟩ := Option.map_eq_some_iff.mp hfile
      exact f.clean_durableSync
  refine ⟨s', hrun, hs', hf, hh, fun i => ?_, ?_, fun file hfile => ?_, hclean, fun o ho => ?_⟩
  · rcases hcases i with heq | ⟨-, heq⟩
    · rw [heq]
    · rw [heq, Option.isSome_map]
  · refine image_eq_of_written hf.segmentSize_eq fun i => ?_
    rcases hcases i with heq | ⟨-, heq⟩
    · rw [heq]
    · rw [heq]
      cases s.seg i <;> rfl
  · rw [Option.mem_def, hseg] at hfile
    split at hfile
    · obtain ⟨f, -, rfl⟩ := Option.map_eq_some_iff.mp hfile
      exact f.clean_durableSync
    · rename_i hnot
      exact absurd ⟨List.mem_singleton_self _, hopened index (by rw [hfile]; rfl)⟩ hnot
  · rw [durableImage, durableImage, hf.segmentSize_eq]
    rcases hcases (o / s.segmentSize) with heq | ⟨heq, -⟩
    · rw [heq]
    · exact absurd heq ho

/-- In a clean segment a byte that has landed is stable. -/
theorem Landed.stable_of_clean {n k : Nat} (h : Landed s write n) (hk : k < n)
    (hn : n ≤ write.bytes.length) (hc : s.CleanSeg ((write.offset + k) / s.segmentSize)) :
    s.durableImage (write.offset + k) = write.bytes[k]? := by
  have hthere : (s.image (write.offset + k)).isSome = true := by
    rw [h k hk, List.getElem?_eq_getElem (by omega)]
    rfl
  rw [(hc.durableAt hthere).2, h k hk]

/-- A call that had returned when the flush began has landed. -/
theorem Inv.landed_before (h : Inv r) : r.EachBefore fun w =>
    Landed r.store w w.bytes.length ∧ w.offset + w.bytes.length ≤ r.store.maxWritten := by
  intro j hj v hv
  have := h.progress j v hv
  rwa [Progress, h.before_returned j hj v hv] at this

theorem Inv.syncBegin (h : Inv r) (hstep : r.step .syncBegin = some r') : Inv r' := by
  rw [step] at hstep
  split at hstep
  · cases hstep
    refine ⟨h.toReady, h.opened, h.fits, h.apart, h.progress, h.clean, fun j hj v hv => ?_,
      fun j hj => ?_, trivial⟩
    · have hany := (List.mem_filter.mp hj).2
      have hv : r.writes[j]? = some v := hv
      rw [hv, Option.any_some] at hany
      exact of_decide_eq_true hany
    · exact List.mem_range.mp (List.mem_filter.mp hj).1
  · cases hstep

theorem Inv.flushDirs (h : Inv r) (hstep : r.step .flushDirs = some r') : Inv r' := by
  rw [step] at hstep
  split at hstep
  · rw [Act.final_ok (flushDirs_ok h.toReady)] at hstep
    cases hstep
    exact ⟨⟨h.faults_eq, h.handles_ok⟩, h.opened, h.fits, h.apart, h.progress, h.clean,
      h.before_returned, h.before_lt, trivial⟩
  · cases hstep

theorem Inv.loadWritten (h : Inv r) (hstep : r.step .loadWritten = some r') : Inv r' := by
  rw [step] at hstep
  split at hstep
  · split at hstep
    · rename_i hzero
      cases hstep
      refine ⟨h.toReady, h.opened, h.fits, h.apart, h.progress, h.clean, h.before_returned,
        h.before_lt, fun j hj v hv k hk => ?_⟩
      have := (h.landed_before j hj v hv).2
      omega
    · cases hstep
      exact ⟨h.toReady, h.opened, h.fits, h.apart, h.progress, h.clean, h.before_returned,
        h.before_lt, fun j hj v hv => (h.landed_before j hj v hv).2⟩
  · cases hstep

theorem Inv.loadFrom (h : Inv r) (hstep : r.step .loadFrom = some r') : Inv r' := by
  rw [step] at hstep
  split at hstep
  · rename_i written hsync
    cases hstep
    have hf := h.flushes
    rw [Flushes, hsync] at hf
    refine ⟨h.toReady, h.opened, h.fits, h.apart, h.progress, h.clean, h.before_returned,
      h.before_lt, fun i hi _ => h.clean i hi, fun j hj v hv k hk => ⟨?_, fun hlt => ?_⟩⟩
    · have := hf j hj v hv
      exact Nat.div_le_div_right (by omega)
    · exact (h.landed_before j hj v hv).1.stable_of_clean hk (Nat.le_refl _) (h.clean _ hlt)
  · cases hstep

theorem Inv.flushNext (h : Inv r) (hstep : r.step .flushNext = some r') : Inv r' := by
  rw [step] at hstep
  split at hstep
  · rename_i next active hsync
    split at hstep
    · rename_i hle
      obtain ⟨s', hrun, hs', hfr, hh, hseg, himage, hnext, hclean, hdurable⟩ :=
        flushSegments_one h.toReady h.opened next
      rw [Act.final_ok hrun] at hstep
      cases hstep
      have hf := h.flushes
      rw [Flushes, hsync] at hf
      refine ⟨hs', fun i hi => ?_, h.fits, h.apart, fun j v hv => ?_, fun i hi => ?_,
        h.before_returned, h.before_lt, fun i hi hlt => ?_, fun j hj v hv k hk => ?_⟩
      · rw [hh]
        exact h.opened i (hseg i ▸ hi)
      · exact (h.progress j v hv).mono hfr.segmentSize_eq (Nat.le_of_eq hfr.maxWritten_eq.symm)
          (fun i hi => (hseg i).trans hi) fun o b _ _ hb => himage ▸ hb
      · have hi : i < s'.syncedFrom := hi
        rw [hfr.syncedFrom_eq] at hi
        exact hclean i (h.clean i hi)
      · rcases Nat.lt_succ_iff_lt_or_eq.mp hi with hlt' | rfl
        · exact hclean i (hf.1 i hlt' hlt)
        · exact hnext
      · obtain ⟨hactive, hstable⟩ := hf.2 j hj v hv k hk
        show (v.offset + k) / s'.segmentSize ≤ active ∧
          ((v.offset + k) / s'.segmentSize < next + 1 → s'.durableImage (v.offset + k) = v.bytes[k]?)
        rw [hfr.segmentSize_eq]
        refine ⟨hactive, fun hlt => ?_⟩
        by_cases heq : (v.offset + k) / r.store.segmentSize = next
        · have hland : Landed s' v v.bytes.length :=
            (h.landed_before j hj v hv).1.mono (Nat.le_refl _) fun o b _ _ hb => himage ▸ hb
          exact hland.stable_of_clean hk (Nat.le_refl _) (by rw [hfr.segmentSize_eq, heq]; exact hnext)
        · rw [hdurable _ heq]
          exact hstable (by omega)
    · cases hstep
  · cases hstep

theorem Inv.storeFrom (h : Inv r) (hstep : r.step .storeFrom = some r') : Inv r' := by
  rw [step] at hstep
  split at hstep
  · rename_i next active hsync
    split at hstep
    · rename_i hlt
      cases hstep
      have hf := h.flushes
      rw [Flushes, hsync] at hf
      refine ⟨⟨h.faults_eq, h.handles_ok⟩, h.opened, h.fits, h.apart, h.progress,
        fun i hi => hf.1 i (Nat.lt_trans hi hlt) hi, h.before_returned, h.before_lt,
        fun j hj v hv k hk => ?_⟩
      obtain ⟨hactive, hstable⟩ := hf.2 j hj v hv k hk
      exact hstable (Nat.lt_of_le_of_lt hactive hlt)
    · cases hstep
  · cases hstep

theorem Inv.syncFails (h : Inv r) (hstep : r.step .syncFails = some r') : Inv r' := by
  rw [step] at hstep
  split at hstep
  · cases hstep
  · cases hstep
    exact ⟨h.toReady, h.opened, h.fits, h.apart, h.progress, h.clean, h.before_returned,
      h.before_lt, trivial⟩

/-- Every step that meets the condition keeps the invariant. -/
theorem Inv.step {a : Action} (h : Inv r) (hok : r.Follows a) (hstep : r.step a = some r') :
    Inv r' := by
  cases a with
  | start offset bytes => exact h.start hok hstep
  | openSegment w => exact h.openSegment hstep
  | pwrite w => exact h.pwrite hok hstep
  | raiseMax w => exact h.raiseMax hstep
  | openFails w => exact h.openFails hstep
  | pwriteFails w done => exact h.pwriteFails hok hstep
  | syncBegin => exact h.syncBegin hstep
  | flushDirs => exact h.flushDirs hstep
  | loadWritten => exact h.loadWritten hstep
  | loadFrom => exact h.loadFrom hstep
  | flushNext => exact h.flushNext hstep
  | storeFrom => exact h.storeFrom hstep
  | syncFails => exact h.syncFails hstep

theorem inv_ofStore (h : Flushable s) : Inv (ofStore s) :=
  ⟨h.toReady, h.opened, nofun, nofun, nofun, h.clean, nofun, nofun, trivial⟩

end Steps

/-- Where no write goes into a segment that a flush has left behind, an Ok from `sync`
means that every byte of every write that had returned when it began is durable.  This
holds in any interleaving of any number of writes, those that fail included, with one
flush at a time. -/
theorem sync_covers_returned_writes {size : Nat} {created : Bool} {start : SegmentedStore}
    {d : Dir} {acts : List Action} {r : Race}
    (hopen : openDir size created Dir.empty = (.ok start, d))
    (hfollows : Along step Follows (ofStore start) acts)
    (hrun : run step (ofStore start) acts = some r) (hack : r.syncer = .acked) :
    ∀ j ∈ r.before, ∀ w : Write, r.writes[j]? = some w →
      w.phase = .returned ∧
      ∀ k < w.bytes.length, r.store.durableImage (w.offset + k) = w.bytes[k]? := by
  have hstart : Inv (ofStore start) := by
    obtain ⟨t, hrun, ht⟩ := openDir_ok (openDir_size_pos hopen) created (d := Dir.empty) rfl
    rw [hopen] at hrun
    cases hrun
    exact inv_ofStore ht.flushable
  have hkeep : ∀ v a v', Inv v → v.Follows a → v.step a = some v' → Inv v' :=
    fun v a v' hv hok hstep => hv.step hok hstep
  have h := run_along hkeep hstart hfollows hrun
  have hf := h.flushes
  rw [Flushes, hack] at hf
  exact fun j hj w hw => ⟨h.before_returned j hj w hw, hf j hj w hw⟩

/-- Two writes fill segments 0 and 1, the higher one first, and a third one goes into
segment 2 while `sync` flushes. -/
def inOrder : List Action :=
  [.start 0 (List.replicate 8 1), .start 8 (List.replicate 8 2), .openSegment 1, .pwrite 1,
    .openSegment 0, .pwrite 0, .raiseMax 1, .raiseMax 0,
    .syncBegin, .flushDirs, .loadWritten, .loadFrom, .flushNext,
    .start 16 (List.replicate 8 3), .openSegment 2, .pwrite 2, .flushNext, .raiseMax 2, .storeFrom]

theorem sync_covers_returned_writes_in_order :
    ∃ r, run step (ofStore freshEight) inOrder = some r ∧ r.before = [0, 1] ∧
      ∀ j ∈ r.before, ∀ w : Write, r.writes[j]? = some w →
        w.phase = .returned ∧
        ∀ k < w.bytes.length, r.store.durableImage (w.offset + k) = w.bytes[k]? := by
  have hobs : (run step (ofStore freshEight) inOrder).map (fun r => (r.syncer, r.before)) =
      some (.acked, [0, 1]) := by decide +kernel
  have hfollows : Along step Follows (ofStore freshEight) inOrder := by decide +kernel
  obtain ⟨r, hrun, hobs⟩ := Option.map_eq_some_iff.mp hobs
  simp only [Prod.mk.injEq] at hobs
  exact ⟨r, hrun, hobs.2, sync_covers_returned_writes openDir_eight hfollows hrun hobs.1⟩

/-- The lower of two writes lands after a `sync` that has seen the end of the higher one. -/
def overtaken : List Action :=
  [.start 0 (List.replicate 8 1), .start 8 (List.replicate 8 2),
    .openSegment 1, .pwrite 1, .raiseMax 1,
    .syncBegin, .flushDirs, .loadWritten, .loadFrom, .flushNext, .flushNext, .storeFrom,
    .openSegment 0, .pwrite 0, .raiseMax 0,
    .syncBegin, .flushDirs, .loadWritten, .loadFrom, .flushNext, .storeFrom]

/-- The second `sync` flushes segment 1 only.  It returns Ok, and the write to segment 0,
which had returned before it began, is nowhere on stable storage. -/
theorem sync_misses_overtaken_write :
    ∃ r, run step (ofStore freshEight) overtaken = some r ∧ r.syncer = .acked ∧
      0 ∈ r.before ∧ r.writes[0]? = some ⟨0, List.replicate 8 1, .returned⟩ ∧
      r.store.durableImage 0 = none := by
  have hobs : (run step (ofStore freshEight) overtaken).map (fun r =>
      (r.syncer, r.before, r.writes[0]?, r.store.durableImage 0)) =
        some (.acked, [0, 1], some ⟨0, List.replicate 8 1, .returned⟩, none) := by decide +kernel
  obtain ⟨r, hrun, hobs⟩ := Option.map_eq_some_iff.mp hobs
  simp only [Prod.mk.injEq] at hobs
  obtain ⟨hsync, hbefore, hwrite, hdurable⟩ := hobs
  exact ⟨r, hrun, hsync, by rw [hbefore]; decide, hwrite, hdurable⟩

end Race
end WalDb
