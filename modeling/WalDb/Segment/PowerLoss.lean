/-
A crash while `truncate_before` runs.

`truncate_before` writes the new head to a temporary file, flushes it, renames it over
the marker and flushes the directory before it removes the first segment.  `Volume` has
the directory as the process sees it and those that a power loss may leave of it: a
change of the directory may be lost until the directory is flushed, and bytes of the
temporary file until that is.  Whatever is left has the old marker and all segments, or
the new marker and all segments from the one of the new head on.

That is enough if the segments hold the log and nothing behind it.  A `truncate_after` that
ends the log at the end of a segment shrinks the next file to nothing, and the flush window
ends before that file.  A power loss brings its bytes back, and with them records that were
dropped.
-/
import WalDb.Lib.Trace
import WalDb.Segment.Durable
import WalDb.Segment.Sound

namespace WalDb

open Lib Record SegmentedStore

/-- What a power loss leaves of a file. -/
def File.lose (file : File) : File := ⟨file.durable, file.durable⟩

/-- What `truncate_before` does to the directory. -/
inductive DirStep where
  | writeTmp (bytes : List UInt8)
  | flushTmp
  | rename
  | flushDir
  | remove (index : Nat)

namespace Dir

def putTmp (d : Dir) (bytes : List UInt8) : Dir := { d with headTmpFile := some bytes }

def putHead (d : Dir) (bytes : Option (List UInt8)) : Dir :=
  { d with headFile := bytes, headTmpFile := none }

def removeSegment (d : Dir) (index : Nat) : Dir := { d with segments := d.segments.erase index }

def step (d : Dir) : DirStep → Dir
  | .writeTmp bytes => d.putTmp bytes
  | .rename => d.putHead d.headTmpFile
  | .remove index => d.removeSegment index
  | .flushTmp | .flushDir => d

/-- The files alone. -/
def files (d : Dir) : Dir := { d with faults := [] }

/-- What a power loss leaves of the files: of each segment the bytes that have been flushed. -/
def lose (d : Dir) : Dir :=
  { d with
    segments := ⟨d.segments.entries.map (Sigma.map id fun _ => File.lose), by
      rw [List.NodupKeys, List.keys, List.map_map]
      exact d.segments.nodupKeys⟩
    faults := [] }

theorem lookup_lose (d : Dir) (i : Nat) :
    d.lose.segments.lookup i = (d.segments.lookup i).map File.lose :=
  List.dlookup_map₂ i

/-- What a crash leaves of the files in a directory: the end of the process all of them, and
that of the machine the bytes that have been flushed. -/
def Crashed (d d' : Dir) : Prop := d' = d.files ∨ d' = d.lose

theorem Crashed.lookup {d d' : Dir} (h : d.Crashed d') :
    ∃ f : File → File, (f = id ∨ f = File.lose) ∧
      ∀ i, d'.segments.lookup i = (d.segments.lookup i).map f := by
  rcases h with rfl | rfl
  · refine ⟨id, Or.inl rfl, fun i => ?_⟩
    rw [Option.map_id]
    rfl
  · exact ⟨File.lose, Or.inr rfl, d.lookup_lose⟩

theorem Crashed.headFile_eq {d d' : Dir} (h : d.Crashed d') : d'.headFile = d.headFile := by
  rcases h with rfl | rfl <;> rfl

theorem Crashed.faults_eq {d d' : Dir} (h : d.Crashed d') : d'.faults = [] := by
  rcases h with rfl | rfl <;> rfl

/-- Every byte of the segments has been flushed. -/
def Flushed (d : Dir) : Prop := ∀ e ∈ d.segments.entries, e.2.durable = e.2.written

instance (d : Dir) : Decidable d.Flushed := inferInstanceAs (Decidable (∀ e ∈ _, _))

theorem Flushed.lookup {d : Dir} (h : d.Flushed) {i : Nat} {file : File}
    (hfile : d.segments.lookup i = some file) : file.lose = file := by
  have := h _ (AList.mem_lookup_iff.mp hfile)
  simp only at this
  rw [File.lose, this]
  cases file
  simp_all

end Dir

/-- The directory as it is seen, those that a power loss may leave, and what it may leave of
the bytes written to the temporary file. -/
structure Volume where
  seen : Dir
  stable : Dir → Prop
  content : List UInt8 → Prop

namespace Volume

/-- A directory whose entries have all been flushed. -/
def ofDir (d : Dir) : Volume := ⟨d.files, (· = d.files), fun _ => False⟩

/-- A rename is not torn, and a flush of the directory makes all earlier changes of it
stable. -/
def step (v : Volume) (c : DirStep) : Volume where
  seen := v.seen.step c
  stable d := match c with
    | .writeTmp bytes => v.stable d ∨ ∃ d0 got, v.stable d0 ∧ got <+: bytes ∧ d = d0.putTmp got
    | .rename => v.stable d ∨ ∃ d0 got, v.stable d0 ∧ v.content got ∧ d = d0.putHead (some got)
    | .remove index => v.stable d ∨ ∃ d0, v.stable d0 ∧ d = d0.removeSegment index
    | .flushTmp => v.stable d
    | .flushDir => d = v.seen
  content got := match c with
    | .writeTmp bytes => got <+: bytes
    | .flushTmp => v.seen.headTmpFile = some got
    | .rename | .remove _ | .flushDir => v.content got

def after (d : Dir) (steps : List DirStep) : Volume := steps.foldl step (ofDir d)

/-- What a crash may leave: one of the process what is seen, one of the machine what is
stable. -/
def Leaves (v : Volume) (d : Dir) : Prop := d = v.seen ∨ v.stable d

/-- A property of all directories that a crash may leave. -/
def Always (v : Volume) (p : Dir → Prop) : Prop := ∀ d, v.Leaves d → p d

section Always

variable {v : Volume} {p q : Dir → Prop}

theorem Always.writeTmp (h : v.Always p) (hp : ∀ d bytes, p d → p (d.putTmp bytes))
    (bytes : List UInt8) : (v.step (.writeTmp bytes)).Always p := by
  rintro d (rfl | hd | ⟨d0, got, hd0, -, rfl⟩)
  · exact hp _ _ (h _ (Or.inl rfl))
  · exact h d (Or.inr hd)
  · exact hp _ _ (h d0 (Or.inr hd0))

theorem Always.rename (h : v.Always p) {bytes : List UInt8}
    (hseen : v.seen.headTmpFile = some bytes) (hcontent : ∀ got, v.content got → got = bytes)
    (hp : ∀ d, p d → q (d.putHead (some bytes))) :
    (v.step .rename).Always fun d => p d ∨ q d := by
  rintro d (rfl | hd | ⟨d0, got, hd0, hgot, rfl⟩)
  · show p (v.seen.putHead v.seen.headTmpFile) ∨ q (v.seen.putHead v.seen.headTmpFile)
    rw [hseen]
    exact Or.inr (hp _ (h _ (Or.inl rfl)))
  · exact Or.inl (h d (Or.inr hd))
  · rw [hcontent got hgot]
    exact Or.inr (hp _ (h d0 (Or.inr hd0)))

theorem Always.flushDir (h : p v.seen) : (v.step .flushDir).Always p := by
  rintro d (rfl | hd)
  · exact h
  · have hd : d = v.seen := hd
    rw [hd]
    exact h

theorem Always.remove (h : v.Always p) {index : Nat} (hp : ∀ d, p d → p (d.removeSegment index)) :
    (v.step (.remove index)).Always p := by
  rintro d (rfl | hd | ⟨d0, hd0, rfl⟩)
  · exact hp _ (h _ (Or.inl rfl))
  · exact h d (Or.inr hd)
  · exact hp _ (h d0 (Or.inr hd0))

end Always

end Volume

namespace SegmentedStore

def writeHeadSteps (head : Nat) : List DirStep :=
  [.writeTmp [], .writeTmp (headMarker head), .flushTmp, .rename, .flushDir]

def dropSteps (keepFrom : Nat) (listed : List Nat) : List DirStep :=
  (listed.filter (· < keepFrom)).map .remove

/-- The steps of `truncate_before`, for a listing of the directory. -/
def truncateBeforeSteps (s : SegmentedStore) (offset : Nat) (listed : List Nat) : List DirStep :=
  writeHeadSteps (s.clampedHead offset) ++ dropSteps (s.keepFrom (s.clampedHead offset)) listed

/-! ## The steps are those of the code -/

/-- The files of the store's directory. -/
def dirFiles (s : SegmentedStore) : Dir := s.dir.files

theorem os_dirFiles (context : String) (s : SegmentedStore) :
    (os context s).2.dirFiles = s.dirFiles := rfl

section Steps

variable {s : SegmentedStore}

theorem os_performs (context : String) : Performs dirFiles Dir.step (os context) s [] :=
  performs_nil rfl

/-- A call that succeeds or fails and changes nothing that is seen. -/
theorem os_flushes (context : String) {c : DirStep} (hc : ∀ d : Dir, d.step c = d) :
    Performs dirFiles Dir.step (os context) s [c] := by
  cases hrun : os context s with
  | mk r s' =>
      have hobs : s'.dirFiles = s.dirFiles := by rw [← os_dirFiles context s, hrun]
      cases r with
      | ok u => exact performs_one hrun (by rw [hc, hobs])
      | error e => exact performs_error hrun hobs _

theorem onDir_performs {f : Dir → Dir} {c : DirStep} (h : (f s.dir).files = s.dir.files.step c) :
    Performs dirFiles Dir.step (onDir (Act.modify f)) s [c] :=
  performs_one (onDir_modify f s) h

theorem writeHeadFile_performs (head : Nat) (s : SegmentedStore) :
    Performs dirFiles Dir.step (writeHeadFile head) s (writeHeadSteps head) := by
  refine (os_performs _).bind fun _ _ _ => (onDir_performs rfl).bind fun _ _ _ =>
    (os_performs _).bind fun _ _ _ => (onDir_performs rfl).bind fun _ _ _ =>
    (os_flushes _ fun _ => rfl).bind fun _ _ _ =>
    (os_performs _).bind fun _ _ _ => (onDir_performs rfl).bind fun _ _ _ =>
    os_flushes _ fun _ => rfl

theorem dropEntries_performs (keepFrom : Nat) (listed : List Nat) (s : SegmentedStore) :
    Performs dirFiles Dir.step (dropEntries keepFrom listed) s (dropSteps keepFrom listed) := by
  induction listed generalizing s with
  | nil => exact performs_nil rfl
  | cons index rest ih =>
      by_cases hlt : index < keepFrom
      · rw [dropSteps, List.filter_cons_of_pos (by simpa using hlt)]
        refine (os_performs _).bind fun _ _ _ => ?_
        rw [if_pos hlt]
        exact (performs_nil rfl).bind fun _ _ _ =>
          (os_performs _).bind fun _ _ _ => (onDir_performs rfl).bind fun _ _ _ => ih _
      · rw [dropSteps, List.filter_cons_of_neg (by simpa using hlt)]
        refine (os_performs _).bind fun _ s1 _ => ?_
        rw [if_neg hlt]
        exact ih s1

/-- `truncate_before` makes these steps in the order in which the directory is listed, and
stops after some of them where a call fails. -/
theorem truncateBefore_performs (offset : Nat) (s : SegmentedStore) :
    Performs dirFiles Dir.step (WalStore.truncateBefore offset) s
      (truncateBeforeSteps s offset s.dir.segments.keys) := by
  show Performs dirFiles Dir.step (truncateBefore offset) s _
  refine performs_get_bind ?_
  simp only
  by_cases hlt : s.maxWritten < s.head
  · rw [if_pos hlt]
    exact performs_error rfl rfl _
  · rw [if_neg hlt, truncateBeforeSteps]
    exact (writeHeadFile_performs _ s).bind fun _ _ _ => (os_performs _).bind fun _ _ _ =>
      (dropEntries_performs _ _ _).bind_nil fun _ _ _ => performs_nil rfl

end Steps

/-! ## What is left -/

/-- The old marker, and all segments. -/
structure Unmarked (s : SegmentedStore) (d : Dir) : Prop where
  headFile : d.headFile = s.dir.headFile
  segments : ∀ i, d.segments.lookup i = s.seg i

/-- The marker of the new head, and all segments from the one of the new head on. -/
structure Marked (s : SegmentedStore) (head : Nat) (d : Dir) : Prop where
  headFile : d.headFile = some (headMarker head)
  gone : ∀ i, d.segments.lookup i = s.seg i ∨ d.segments.lookup i = none
  kept : ∀ i, s.keepFrom head ≤ i → d.segments.lookup i = s.seg i

section Left

variable {s : SegmentedStore} {head : Nat} {d : Dir}

theorem Unmarked.putHead (h : Unmarked s d) (head : Nat) :
    Marked s head (d.putHead (some (headMarker head))) :=
  ⟨rfl, fun i => Or.inl (h.segments i), fun i _ => h.segments i⟩

theorem Marked.removeSegment (h : Marked s head d) {index : Nat} (hlt : index < s.keepFrom head) :
    Marked s head (d.removeSegment index) := by
  refine ⟨h.headFile, fun i => ?_, fun i hi => ?_⟩
  · by_cases heq : i = index
    · rw [heq]
      exact Or.inr (AList.lookup_erase _ _)
    · exact (AList.lookup_erase_ne heq).symm ▸ h.gone i
  · exact (AList.lookup_erase_ne (by omega)).trans (h.kept i hi)

end Left

end SegmentedStore

/-! ## What is found -/

namespace SegmentedStore

/-- The flushed bytes of the highest segment file end at `total`. -/
def DurableEnd (s : SegmentedStore) (total : Nat) : Prop :=
  ∀ e ∈ s.dir.segments.entries, (∀ e' ∈ s.dir.segments.entries, e'.1 ≤ e.1) →
    e.1 * s.segmentSize + e.2.durable.length = total

instance (s : SegmentedStore) (total : Nat) : Decidable (s.DurableEnd total) :=
  inferInstanceAs (Decidable (∀ e ∈ _, (∀ e' ∈ _, _) → _))

theorem DurableEnd.eq {s : SegmentedStore} {i total : Nat} {file : File} (h : s.DurableEnd total)
    (hfile : s.seg i = some file) (hmax : ∀ j, (s.seg j).isSome = true → j ≤ i) :
    i * s.segmentSize + file.durable.length = total := by
  refine h ⟨i, file⟩ (AList.mem_lookup_iff.mp hfile) fun e he => hmax e.1 ?_
  rw [seg, AList.mem_lookup_iff.mpr he]
  rfl

end SegmentedStore

section Reopen

variable {config : WalConfig} {wal : Wal SegmentedStore} {ps1 ps2 : List (List UInt8)}

/-- If the power fails before the first step of `truncate_before`, and a lenient open of what is
left finds the records and cuts nothing, then the flushed bytes end where the log does.  At the
last offset the length that an open computes saturates. -/
theorem durableEnd_of_crash_keeps (h : wal.Sound config (ps1 ++ ps2))
    (hpol : config.openPolicy = .truncateTail) (hlt : wal.tail < 2 ^ 64 - 1) {lsn : Nat}
    (hlsn : lsn = wal.head + (frames ps1).length) {wal' : Wal SegmentedStore}
    (hopen : openSegmentedWith config wal.store.segmentSize false wal.store.dir.files.lose = .ok wal')
    (hcut : wal'.truncatedOnOpen = 0)
    (hkept : wal'.head = wal.head ∧
          (wal'.iter.collect wal').1 = .ok ((Wal.recordsFrom wal.head (ps1 ++ ps2)).map .ok) ∨
        wal'.head = lsn ∧ (wal'.iter.collect wal').1 = .ok ((Wal.recordsFrom lsn ps2).map .ok)) :
    wal.store.DurableEnd wal.tail := by
  obtain ⟨s, hopened, hfound⟩ := openSegmentedWith_found hpol rfl hopen
  -- the length of the store is where the records that are found end
  have hmax : s.maxWritten = wal.tail := by
    have hend := h.end_eq
    rw [frames_append, List.length_append] at hend
    have hend' := hfound.steady.end_eq
    have hcut_eq := hfound.cut_eq
    have hle : wal'.tail ≤ s.maxWritten := hfound.files.elim (fun h => h.1.le) fun h => h.1.le
    rcases hkept with ⟨hhead, hitems⟩ | ⟨hhead, hitems⟩
    · rw [← hhead] at hitems
      rw [hfound.steady.eq_of_collect hitems, frames_append, List.length_append] at hend'
      omega
    · rw [← hhead] at hitems
      rw [hfound.steady.eq_of_collect hitems] at hend'
      omega
  intro e he hhigh
  have hspans : wal.store.dir.files.lose.Spans wal.store.segmentSize
      (saturatingAdd (saturatingMul e.1 wal.store.segmentSize) e.2.durable.length) := by
    refine Or.inr ⟨e.1, e.2.lose, ?_, fun j hj => ?_, rfl⟩
    · rw [Dir.lookup_lose]
      exact congrArg (Option.map File.lose) (AList.mem_lookup_iff.mpr he)
    · rw [Dir.lookup_lose, Option.isSome_map] at hj
      obtain ⟨file, hfile⟩ := Option.isSome_iff_exists.mp hj
      exact hhigh ⟨j, file⟩ (AList.mem_lookup_iff.mp hfile)
  have heq := hspans.unique hopened.spans
  rw [hmax, saturatingAdd, saturatingMul] at heq
  omega

end Reopen

end WalDb
