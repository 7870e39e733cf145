/-
What the calls of the segmented store do to it, step by step.

Any system call may fail, and what a call has done by then stays.  A call is a series of
changes with system calls between them: it opens a file, writes a chunk, closes a handle, sets
a flag.  Each loop of the store is followed once, for the changes it makes and what it has made
sure of before each.  What must hold of the store after a call that may have failed is then a
statement about one change.

The fields that a call stores only at its end, when nothing can fail any more, are not part of
a change: the length, the flush window and the head.
-/
import WalDb.Lib.Walk
import WalDb.Segment.Image

namespace WalDb

open Lib Lib.Act Relation

/-- The steps of `flush_dir_if_dirty`: of the flag, and of the flush. -/
theorem flushDirIfDirty_walks {S : Type} {dirty : S → Bool} {put : S → Bool → S}
    {syncDir : Act S Fault Unit} {R : S → S → Prop} {E : Fault → Prop}
    (hput : ∀ s flag, R s (put s flag)) (hsync : ∀ s, syncDir.Walks R s (fun _ _ => True) E) (s : S) :
    (flushDirIfDirty dirty put syncDir).Walks R s (fun _ _ => True) E := by
  refine walks_get_bind ?_
  by_cases hdirty : dirty s = true
  · rw [if_pos hdirty]
    refine Walks.bind (Q := fun _ _ => True) (walks_step rfl (hput s false) trivial)
      fun _ s1 _ _ => (hsync s1).attempt.bind fun result s2 _ hresult => ?_
    cases result with
    | ok u => exact walks_pure trivial
    | error e =>
        exact Walks.bind (Q := fun _ _ => True) (walks_step rfl (hput s2 true) trivial)
          fun _ _ _ _ => walks_fail (hresult e rfl)
  · rw [if_neg hdirty]
    exact walks_pure trivial

namespace SegmentedStore

/-! ## Changes -/

inductive Change where
  /-- A system call has its outcome. -/
  | call
  | create (index : Nat)
  | openFile (index : Nat)
  | write (pos : Nat) (chunk : List UInt8)
  | setLen (index len : Nat)
  | flush (index : Nat)
  /-- Remove a file behind the end, and close it. -/
  | cutOff (index : Nat)
  | close (index : Nat)
  /-- Remove a file below the head. -/
  | unlink (index : Nat)
  | marker (headFile headTmpFile : Option (List UInt8))
  | flagDir (dirty : Bool)
  | flagParent (dirty : Bool)

namespace Change

def apply (s : SegmentedStore) : Change → SegmentedStore
  | .call => { s with dir := { s.dir with faults := s.dir.faults.tail } }
  | .create index =>
      { s with
        dir := s.dir.createSegment index
        dirDirty := true
        handles := index :: s.handles }
  | .openFile index => { s with handles := index :: s.handles }
  | .write pos chunk =>
      { s with
        dir := s.dir.modifySegment (pos / s.segmentSize) (·.pwriteAll (pos % s.segmentSize) chunk) }
  | .setLen index len => { s with dir := s.dir.modifySegment index (·.setLen len) }
  | .flush index => { s with dir := s.dir.modifySegment index File.durableSync }
  | .cutOff index =>
      { s with
        dir := { s.dir with segments := s.dir.segments.erase index }
        handles := s.handles.filter (· ≠ index)
        dirDirty := true }
  | .close index => { s with handles := s.handles.filter (· ≠ index) }
  | .unlink index => { s with dir := { s.dir with segments := s.dir.segments.erase index } }
  | .marker headFile headTmpFile =>
      { s with dir := { s.dir with headFile := headFile, headTmpFile := headTmpFile } }
  | .flagDir dirty => { s with dirDirty := dirty }
  | .flagParent dirty => { s with parentDirty := dirty }

/-- What a call has made sure of before it makes a change. -/
def Legal (s : SegmentedStore) : Change → Prop
  | .openFile index => (s.seg index).isSome = true
  | .write pos chunk =>
      pos / s.segmentSize ∈ s.handles ∧ chunk ≠ [] ∧ chunk.length ≤ room s.segmentSize pos
  | .setLen index _ | .flush index => index ∈ s.handles
  | .unlink index => index ∉ s.handles
  | _ => True

variable (s : SegmentedStore) (c : Change)

@[simp] theorem apply_segmentSize : (c.apply s).segmentSize = s.segmentSize := by cases c <;> rfl

@[simp] theorem apply_maxWritten : (c.apply s).maxWritten = s.maxWritten := by cases c <;> rfl

@[simp] theorem apply_syncedFrom : (c.apply s).syncedFrom = s.syncedFrom := by cases c <;> rfl

@[simp] theorem apply_head : (c.apply s).head = s.head := by cases c <;> rfl

/-- What a change makes of the file of a segment. -/
def onFile (size i : Nat) (file : Option File) : Change → Option File
  | .create index => if i = index then some (file.getD File.empty) else file
  | .write pos chunk => if i = pos / size then file.map (·.pwriteAll (pos % size) chunk) else file
  | .setLen index len => if i = index then file.map (·.setLen len) else file
  | .flush index => if i = index then file.map File.durableSync else file
  | .cutOff index | .unlink index => if i = index then none else file
  | _ => file

theorem apply_seg (i : Nat) : (c.apply s).seg i = c.onFile s.segmentSize i (s.seg i) := by
  cases c with
  | create index => exact Dir.lookup_createSegment s.dir index i
  | write pos chunk => exact Dir.lookup_modifySegment s.dir _ i _
  | setLen index len => exact Dir.lookup_modifySegment s.dir index i _
  | flush index => exact Dir.lookup_modifySegment s.dir index i _
  | cutOff index => exact seg_erase s index i
  | unlink index => exact seg_erase s index i
  | _ => rfl

/-- Only the marker changes what the marker file holds. -/
theorem apply_headFile {c : Change} (hc : ∀ headFile tmp, c ≠ .marker headFile tmp) :
    (c.apply s).dir.headFile = s.dir.headFile := by
  cases c with
  | create index => exact Dir.createSegment_headFile s.dir index
  | write pos chunk => exact Dir.modifySegment_headFile s.dir _ _
  | setLen index len => exact Dir.modifySegment_headFile s.dir index _
  | flush index => exact Dir.modifySegment_headFile s.dir index _
  | marker headFile tmp => exact absurd rfl (hc headFile tmp)
  | _ => rfl

end Change

/-- Every handle has its file. -/
def HandlesOk (s : SegmentedStore) : Prop := ∀ i ∈ s.handles, (s.seg i).isSome = true

theorem HandlesOk.change {s : SegmentedStore} (h : s.HandlesOk) {c : Change} (hlegal : c.Legal s) :
    (c.apply s).HandlesOk := by
  intro i hi
  rw [c.apply_seg]
  cases c with
  | create index =>
      by_cases heq : i = index
      · simp [Change.onFile, heq]
      · simpa [Change.onFile, heq] using h i ((List.mem_cons.mp hi).resolve_left heq)
  | openFile index =>
      rcases List.mem_cons.mp hi with rfl | hi
      · exact hlegal
      · exact h i hi
  | write pos chunk | setLen index len | flush index =>
      have := h i hi
      simp only [Change.onFile]
      split
      · rwa [Option.isSome_map]
      · exact this
  | cutOff index =>
      obtain ⟨hi, hne⟩ := List.mem_filter.mp hi
      simpa [Change.onFile, of_decide_eq_true hne] using h i hi
  | close index => exact h i (List.mem_of_mem_filter hi)
  | unlink index =>
      have hne : i ≠ index := fun heq => hlegal (heq ▸ hi)
      simpa [Change.onFile, hne] using h i hi
  | _ => exact h i hi

/-! ## Calls -/

/-- One of the changes that a call may make. -/
def Step (may : Change → Prop) (s s' : SegmentedStore) : Prop :=
  ∃ c : Change, may c ∧ c.Legal s ∧ s' = c.apply s

/-- What none of the changes touches holds wherever they lead. -/
theorem walk_invariant {may : Change → Prop} {I : SegmentedStore → Prop}
    (h : ∀ s c, may c → c.Legal s → I s → I (c.apply s)) {s s' : SegmentedStore}
    (hwalk : ReflTransGen (Step may) s s') (hI : I s) : I s' :=
  walk_keeps (fun _ _ ⟨c, hc, hlegal, heq⟩ hI => heq ▸ h _ c hc hlegal hI) hwalk hI

theorem Step.mono {may may' : Change → Prop} (h : ∀ c, may c → may' c) (s s' : SegmentedStore)
    (hstep : Step may s s') : Step may' s s' :=
  let ⟨c, hc, hs⟩ := hstep
  ⟨c, h c hc, hs⟩

section Walks

variable {may : Change → Prop} {s s' : SegmentedStore}

theorem walk_segmentSize (h : ReflTransGen (Step may) s s') : s'.segmentSize = s.segmentSize :=
  walk_invariant (I := fun t => t.segmentSize = s.segmentSize)
    (fun t c _ _ ht => (c.apply_segmentSize t).trans ht) h rfl

theorem walk_maxWritten (h : ReflTransGen (Step may) s s') : s'.maxWritten = s.maxWritten :=
  walk_invariant (I := fun t => t.maxWritten = s.maxWritten)
    (fun t c _ _ ht => (c.apply_maxWritten t).trans ht) h rfl

theorem walk_handlesOk (h : ReflTransGen (Step may) s s') (hs : s.HandlesOk) : s'.HandlesOk :=
  walk_invariant (fun _ _ _ hlegal ht => ht.change hlegal) h hs

theorem walks_change {x : Act SegmentedStore Fault Unit} {c : Change} {E : Fault → Prop}
    (hrun : x s = (.ok (), c.apply s)) (hmay : may c) (hlegal : c.Legal s) :
    x.Walks (Step may) s (fun _ s' => s' = c.apply s) E :=
  walks_step hrun ⟨c, hmay, hlegal, rfl⟩ rfl

theorem onDir_write {size : Nat} (hs : s.segmentSize = size) (pos : Nat) (chunk : List UInt8) :
    onDir (Act.modify fun d => d.modifySegment (pos / size) (·.pwriteAll (pos % size) chunk)) s =
      (.ok (), (Change.write pos chunk).apply s) := by
  subst hs
  rfl

theorem os_walks (hcall : may .call) (context : String) :
    (os context).Walks (Step may) s (fun _ s' => s' = Change.call.apply s) Fault.Returned := by
  have hstep : ReflTransGen (Step may) s (Change.call.apply s) := .single ⟨.call, hcall, trivial, rfl⟩
  obtain ⟨⟨segments, headFile, headTmpFile, faults⟩, _, _, _, _, _, _, _, _⟩ := s
  cases faults with
  | nil => exact ends_of_ok rfl ⟨hstep, rfl⟩
  | cons fails faults =>
      cases fails with
      | false => exact ends_of_ok rfl ⟨hstep, rfl⟩
      | true => exact ends_of_error rfl ⟨hstep, _, rfl⟩

/-- The segment is open, and nothing has been written to it. -/
theorem segmentForWrite_walks (hcall : may .call) {index : Nat} (hcreate : may (.create index)) :
    (segmentForWrite index).Walks (Step may) s (fun _ s' => index ∈ s'.handles) Fault.Returned := by
  refine walks_get_bind ?_
  by_cases hmem : index ∈ s.handles
  · rw [if_pos hmem]
    exact walks_pure hmem
  · rw [if_neg hmem]
    refine (os_walks hcall _).bind fun _ s1 _ _ => ?_
    exact walks_step rfl ⟨.create index, hcreate, trivial, rfl⟩ List.mem_cons_self

end Walks

/-! ### Reading -/

/-- The changes of a read. -/
def ByRead : Change → Prop
  | .call | .openFile _ => True
  | _ => False

section Reading

variable {s s' : SegmentedStore}

theorem walk_segments (h : ReflTransGen (Step ByRead) s s') :
    s'.dir.segments = s.dir.segments := by
  refine walk_invariant (I := fun t => t.dir.segments = s.dir.segments) (fun t c hc _ ht => ?_) h rfl
  cases c with
  | call | openFile index => exact ht
  | _ => exact hc.elim

/-- Reading changes nothing about where a read may go. -/
theorem walk_inRange (h : ReflTransGen (Step ByRead) s s') {off n : Nat} (hin : s.InRange off n) :
    s'.InRange off n := by
  have hseg : ∀ i, s'.seg i = s.seg i := fun i => by
    rw [seg, walk_segments h]
    rfl
  refine hin.imp_right (Or.imp_right fun hfits => ⟨hfits.1, fun i file hfile => ?_⟩)
  rw [walk_segmentSize h]
  exact hfits.2 i file ((hseg i).symm.trans hfile)

theorem segmentForRead_walks (index : Nat) :
    (segmentForRead index).Walks (Step ByRead) s (fun _ _ => True) Fault.Returned := by
  refine walks_get_bind ?_
  by_cases hmem : index ∈ s.handles
  · rw [if_pos hmem]
    exact walks_pure trivial
  · rw [if_neg hmem]
    refine (os_walks trivial _).bind fun _ s1 _ hs1 => ?_
    subst hs1
    cases hfile : s.dir.segments.lookup index with
    | none => exact walks_pure trivial
    | some file =>
        have hsome : (s.seg index).isSome = true := by
          rw [seg, hfile]
          rfl
        exact Walks.bind (Q := fun _ _ => True)
          (walks_step rfl ⟨.openFile index, trivial, hsome, rfl⟩ trivial)
          fun _ _ _ _ => walks_pure trivial

/-- Only a position that leaves the offsets makes a read panic. -/
theorem readChunks_walks {size : Nat} (hsize : 0 < size) (off n : Nat) (hs : s.segmentSize = size) :
    (readChunks ⟨size, hsize⟩ off n).Walks (Step ByRead) s (fun bs _ => bs.length ≤ n)
      fun fault => fault.Returned ∨ ¬ s.InRange off n := by
  induction n using Nat.strongRecOn generalizing off s with
  | ind n ih =>
      rw [readChunks]
      by_cases hzero : n = 0
      · rw [dif_pos hzero]
        exact walks_pure (Nat.zero_le n)
      rw [dif_neg hzero]
      have hroom := room_pos hsize off
      refine ((segmentForRead_walks _).mono (fun _ _ h => h) (fun _ _ h => h)
        fun _ => Or.inl).bind fun there s1 hwalk _ => ?_
      cases there with
      | false => exact walks_pure (Nat.zero_le _)
      | true =>
          refine ((os_walks trivial _).mono (fun _ _ h => h) (fun _ _ h => h)
            fun _ => Or.inl).bind fun _ s2 hwalk2 _ => walks_get_bind ?_
          have hwalk := hwalk.trans hwalk2
          have hfits : s.InRange off n → off + (((s2.dir.segments.lookup (off / size)).getD
              File.empty).preadFill (off % size) (min n (room size off))).length < 2 ^ 64 := by
            intro hin
            subst hs
            rw [walk_segments hwalk]
            cases hfile : s.dir.segments.lookup (off / s.segmentSize) with
            | none =>
                rw [Option.getD_none, File.preadFill, File.empty, List.drop_nil, List.take_nil]
                rcases hin with hn | hlt | hlt
                · exact absurd hn hzero
                · exact Nat.lt_of_le_of_lt (Nat.le_add_right off n) hlt
                · exact hlt.1
            | some file => exact (hin.chunk hfile).resolve_left hzero
          have hle : (((s2.dir.segments.lookup (off / size)).getD File.empty).preadFill (off % size)
              (min n (room size off))).length ≤ min n (room size off) := List.length_take_le _ _
          dsimp only
          generalize ((s2.dir.segments.lookup (off / size)).getD File.empty).preadFill (off % size)
            (min n (room size off)) = got at hfits hle ⊢
          by_cases hend : off + got.length < 2 ^ 64
          · rw [addChecked, if_pos hend, Act.pure_bind]
            by_cases hshort : got.length < min n (room size off)
            · rw [if_pos hshort]
              exact walks_pure (by omega)
            · rw [if_neg hshort, Nat.le_antisymm hle (Nat.not_lt.mp hshort)]
              refine ((ih _ (by omega) _ ((walk_segmentSize hwalk).trans hs)).mono (fun _ _ h => h)
                (fun _ _ h => h) fun fault => Or.imp_right fun hout hin => hout ?_).bind
                  fun rest s3 _ hrest => walks_pure ?_
              · exact (walk_inRange hwalk hin).rest (Nat.min_le_left _ _) (by omega)
              · rw [List.length_append]
                omega
          · rw [addChecked, if_neg hend]
            exact ends_fail ⟨.refl, Or.inr fun hin => hend (hfits hin)⟩

theorem readAt_walks (off n : Nat) :
    (WalStore.readAt off n).Walks (Step ByRead) s (fun bs _ => bs.length ≤ n)
      fun fault => fault.Returned ∨ ¬ s.InRange off n :=
  walks_get_bind (readChunks_walks s.segmentSize_pos off n rfl)

end Reading

/-! ### Truncating -/

/-- The changes of a truncation to `here` bytes of segment `last`. -/
def ByTruncate (last here : Nat) : Change → Prop
  | .call => True
  | .create index => index = last
  | .setLen index len => index = last ∧ len = here
  | .cutOff index => last < index
  | _ => False

section Truncating

variable {s : SegmentedStore} (last here : Nat)

theorem truncateEntry_walks (index : Nat) :
    (truncateEntry last here index).Walks (Step (ByTruncate last here)) s (fun _ _ => True)
      Fault.Returned := by
  unfold truncateEntry
  split
  · rename_i hlt
    refine (os_walks trivial _).bind fun _ s1 _ _ => ?_
    exact walks_step rfl ⟨.cutOff index, hlt, trivial, rfl⟩ trivial
  · split
    · rename_i heq
      refine (segmentForWrite_walks trivial heq).bind fun _ s1 _ hopen => ?_
      refine (os_walks trivial _).bind fun _ s2 _ hs2 => ?_
      subst hs2
      exact walks_step (onDir_modify _ _) ⟨.setLen index here, ⟨heq, rfl⟩, hopen, rfl⟩ trivial
    · exact walks_pure trivial

theorem truncateEntries_walks (entries : List Nat) :
    (truncateEntries last here entries).Walks (Step (ByTruncate last here)) s (fun _ _ => True)
      Fault.Returned := by
  induction entries generalizing s with
  | nil => exact walks_pure trivial
  | cons index rest ih =>
      exact (os_walks trivial _).bind fun _ s1 _ _ =>
        (truncateEntry_walks last here index).bind fun _ s2 _ _ => ih

/-- A truncation that has returned has stored the new length and the flush window. -/
theorem truncate_ends (len : Nat) :
    (WalStore.truncate len).Ends s
      (fun _ s' => ∃ s1,
        ReflTransGen (Step (ByTruncate (len / s.segmentSize) (len % s.segmentSize))) s s1 ∧
          s' = { s1 with maxWritten := len, syncedFrom := len / s.segmentSize })
      fun fault s' =>
        ReflTransGen (Step (ByTruncate (len / s.segmentSize) (len % s.segmentSize))) s s' ∧
          fault.Returned := by
  show (truncate len).Ends s _ _
  unfold SegmentedStore.truncate
  refine ends_get_bind ?_
  dsimp only
  refine (os_walks trivial _).bind_ends (fun _ _ h he => ⟨h, he⟩) fun _ s1 h1 _ => ?_
  refine (truncateEntries_walks _ _ _).bind_ends (fun _ _ h he => ⟨h1.trans h, he⟩)
    fun _ s2 h2 _ => ?_
  exact ends_of_ok rfl ⟨s2, h1.trans h2, rfl⟩

end Truncating

/-! ### Flushing -/

/-- The changes of the flush of some files. -/
def ByFlush : Change → Prop
  | .call | .flush _ => True
  | _ => False

/-- Those of a `sync`, which flushes the directories as well. -/
def BySync : Change → Prop
  | .call | .flush _ | .flagDir _ | .flagParent _ => True
  | _ => False

section Flushing

variable {s s' : SegmentedStore}

theorem ByFlush.sync (c : Change) (h : ByFlush c) : BySync c := by
  cases c <;> first | exact trivial | exact h.elim

/-- A file that has been flushed stays so. -/
theorem walk_flushed (h : ReflTransGen (Step ByFlush) s s') {i : Nat} {file : Option File}
    (hs : s.seg i = file.map File.durableSync) : s'.seg i = file.map File.durableSync := by
  refine walk_invariant (I := fun t => t.seg i = file.map File.durableSync)
    (fun t c hc _ ht => ?_) h hs
  cases c with
  | call => exact ht
  | flush index =>
      rw [Change.apply_seg, Change.onFile, ht]
      split
      · rw [Option.map_map]
        rfl
      · rfl
  | _ => exact hc.elim

/-- Of the segments that are listed the open ones are flushed. -/
theorem flushSegments_walks (entries : List Nat) :
    (flushSegments entries).Walks (Step ByFlush) s
      (fun _ s' => ∀ i ∈ entries, i ∈ s.handles → s'.seg i = (s.seg i).map File.durableSync)
      Fault.Returned := by
  induction entries generalizing s with
  | nil => exact walks_pure fun i hi => absurd hi List.not_mem_nil
  | cons index rest ih =>
      refine walks_get_bind ?_
      by_cases hmem : index ∈ s.handles
      · rw [if_pos hmem]
        refine (os_walks trivial _).bind fun _ s1 _ hs1 => ?_
        refine (walks_change (c := .flush index) (onDir_modify _ s1) trivial (hs1 ▸ hmem)).bind
          fun _ s2 _ hs2 => ?_
        subst hs1 hs2
        have hseg : ∀ i, ((Change.flush index).apply (Change.call.apply s)).seg i =
            if i = index then (s.seg i).map File.durableSync else s.seg i :=
          fun i => Change.apply_seg _ _ i
        refine Ends.mono ih (fun _ s3 h3 => ⟨h3.1, fun i hi hopen => ?_⟩) fun _ _ h => h
        by_cases heq : i = index
        · subst heq
          exact walk_flushed h3.1 ((hseg i).trans (if_pos rfl))
        · rw [h3.2 i ((List.mem_cons.mp hi).resolve_left heq) hopen, hseg, if_neg heq]
      · rw [if_neg hmem]
        refine ih.mono (fun _ _ h => h) (fun _ s1 h1 i hi hopen => ?_) fun _ h => h
        rcases List.mem_cons.mp hi with rfl | hi
        · exact absurd hopen hmem
        · exact h1 i hi hopen

theorem flushDirs_walks : flushDirs.Walks (Step BySync) s (fun _ _ => True) Fault.Returned := by
  have hos : ∀ s, (os "flushing the log directory").Walks (Step BySync) s (fun _ _ => True)
      Fault.Returned := fun s =>
    (os_walks trivial _).mono (fun _ _ h => h) (fun _ _ _ => trivial) fun _ h => h
  exact (flushDirIfDirty_walks (fun s flag => ⟨.flagDir flag, trivial, trivial, rfl⟩) hos s).bind
    fun _ s1 _ _ =>
      flushDirIfDirty_walks (fun s flag => ⟨.flagParent flag, trivial, trivial, rfl⟩) hos s1

/-- A `sync` that has returned has stored the start of the flush window. -/
theorem sync_ends :
    (WalStore.sync : Act SegmentedStore Fault Unit).Ends s
      (fun _ s' => ∃ s1 first, ReflTransGen (Step BySync) s s1 ∧ s' = { s1 with syncedFrom := first })
      fun fault s' => ReflTransGen (Step BySync) s s' ∧ fault.Returned := by
  refine flushDirs_walks.bind_ends (fun _ _ h he => ⟨h, he⟩) fun _ s1 h1 _ => ends_get_bind ?_
  dsimp only
  by_cases hzero : s1.maxWritten = 0
  · rw [if_pos hzero]
    exact ends_pure ⟨s1, s1.syncedFrom, h1, rfl⟩
  · rw [if_neg hzero]
    have hsync : ∀ {s2}, ReflTransGen (Step ByFlush) s1 s2 → ReflTransGen (Step BySync) s s2 :=
      fun h2 => h1.trans (ReflTransGen.mono (Step.mono ByFlush.sync) _ _ h2)
    exact (flushSegments_walks _).bind_ends (fun _ _ h he => ⟨hsync h, he⟩)
      fun _ s2 h2 _ => ends_of_ok rfl ⟨s2, _, hsync h2, rfl⟩

end Flushing

/-! ### Dropping -/

/-- The changes of a `truncate_before` that removes segments below `keep`. -/
def ByDrop (keep : Nat) : Change → Prop
  | .call | .marker _ _ | .close _ => True
  | .unlink index => index < keep
  | _ => False

section Dropping

variable {s : SegmentedStore} {keep : Nat}

theorem onDir_marker_walks {f : Dir → Dir} {headFile tmp : Option (List UInt8)}
    (hf : f s.dir = { s.dir with headFile := headFile, headTmpFile := tmp }) :
    (onDir (Act.modify f)).Walks (Step (ByDrop keep)) s (fun _ _ => True) Fault.Returned :=
  walks_step (onDir_modify f s)
    ⟨.marker headFile tmp, trivial, trivial, congrArg (fun d => { s with dir := d }) hf⟩ trivial

theorem writeHeadFile_walks (head : Nat) :
    (writeHeadFile head).Walks (Step (ByDrop keep)) s (fun _ _ => True) Fault.Returned := by
  have hos : ∀ (context : String) (s : SegmentedStore), (os context).Walks (Step (ByDrop keep)) s
      (fun _ _ => True) Fault.Returned := fun _ s =>
    (os_walks trivial _).mono (fun _ _ h => h) (fun _ _ _ => trivial) fun _ h => h
  refine (hos _ s).bind fun _ s1 _ _ => (onDir_marker_walks rfl).bind fun _ s2 _ _ => ?_
  refine (hos _ s2).bind fun _ s3 _ _ => (onDir_marker_walks rfl).bind fun _ s4 _ _ => ?_
  refine (hos _ s4).bind fun _ s5 _ _ => (hos _ s5).bind fun _ s6 _ _ => ?_
  exact (onDir_marker_walks rfl).bind fun _ s7 _ _ => hos _ s7

theorem dropEntries_walks (entries : List Nat) :
    (dropEntries keep entries).Walks (Step (ByDrop keep)) s (fun _ _ => True) Fault.Returned := by
  induction entries generalizing s with
  | nil => exact walks_pure trivial
  | cons index rest ih =>
      refine (os_walks trivial _).bind fun _ s1 _ _ => ?_
      by_cases hlt : index < keep
      · rw [if_pos hlt]
        -- The handle is closed first, so a removal that fails leaves no handle either.
        have hclosed : index ∉ s1.handles.filter (· ≠ index) := by simp
        refine (walks_change (c := .close index) rfl trivial trivial).bind fun _ s2 _ hs2 => ?_
        refine (os_walks trivial _).bind fun _ s3 _ hs3 => ?_
        subst hs2 hs3
        refine Walks.bind (walks_change (c := .unlink index) (onDir_modify _ _) hlt ?_)
          fun _ s4 _ _ => ih
        exact hclosed
      · rw [if_neg hlt]
        exact ih

/-- A `truncate_before` that has returned has stored the new head. -/
theorem truncateBefore_ends (off : Nat) :
    (WalStore.truncateBefore off).Ends s
      (fun newHead s' => newHead = s.clampedHead off ∧ s.head ≤ s.maxWritten ∧
        ∃ s1, ReflTransGen (Step (ByDrop (s.keepFrom newHead))) s s1 ∧ s' = { s1 with head := newHead })
      fun fault s' => ReflTransGen (Step (ByDrop (s.keepFrom (s.clampedHead off)))) s s' ∧
        (s.head ≤ s.maxWritten → fault.Returned) := by
  show (truncateBefore off).Ends s _ _
  refine ends_get_bind ?_
  dsimp only
  by_cases hlt : s.maxWritten < s.head
  · rw [if_pos hlt]
    exact ends_fail ⟨.refl, fun hle => absurd hlt (Nat.not_lt.mpr hle)⟩
  rw [if_neg hlt]
  refine (writeHeadFile_walks _).bind_ends (fun _ _ h he => ⟨h, fun _ => he⟩) fun _ s1 h1 _ => ?_
  refine (os_walks trivial _).bind_ends (fun _ _ h he => ⟨h1.trans h, fun _ => he⟩)
    fun _ s2 h2 _ => ?_
  refine (dropEntries_walks _).bind_ends
    (fun _ _ h he => ⟨(h1.trans h2).trans h, fun _ => he⟩) fun _ s3 h3 _ => ?_
  exact ends_of_ok rfl ⟨rfl, Nat.not_lt.mp hlt, s3, (h1.trans h2).trans h3, rfl⟩

end Dropping

end SegmentedStore

end WalDb
