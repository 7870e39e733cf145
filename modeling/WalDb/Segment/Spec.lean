/-
What each operation of the segmented store does, segment by segment.

Where no system call fails an operation succeeds, and its effect is a function of
the segment index: a write patches the segments its range meets, a truncation keeps,
shrinks or removes each one, a flush covers the open ones of the window.  Everything
proved about the store below uses these descriptions and never the loops.
-/
import WalDb.Segment.Store

namespace WalDb

open Lib

namespace Dir

theorem lookup_createSegment (d : Dir) (index i : Nat) :
    (d.createSegment index).segments.lookup i =
      if i = index then some ((d.segments.lookup i).getD File.empty) else d.segments.lookup i := by
  unfold createSegment
  split
  · rename_i file hfile
    split
    · rename_i hi
      rw [hi, hfile]
      rfl
    · rfl
  · rename_i hnone
    split
    · rename_i hi
      rw [hi, AList.lookup_insert, hnone]
      rfl
    · rename_i hi
      exact AList.lookup_insert_ne hi

theorem lookup_modifySegment (d : Dir) (index i : Nat) (f : File → File) :
    (d.modifySegment index f).segments.lookup i =
      if i = index then (d.segments.lookup i).map f else d.segments.lookup i := by
  unfold modifySegment
  split
  · rename_i file hfile
    split
    · rename_i hi
      rw [hi, AList.lookup_insert, hfile]
      rfl
    · rename_i hi
      exact AList.lookup_insert_ne hi
  · rename_i hnone
    split
    · rename_i hi
      rw [hi, hnone]
      rfl
    · rfl

@[simp] theorem createSegment_faults (d : Dir) (index : Nat) :
    (d.createSegment index).faults = d.faults := by
  unfold createSegment
  split <;> rfl

@[simp] theorem createSegment_headFile (d : Dir) (index : Nat) :
    (d.createSegment index).headFile = d.headFile := by
  unfold createSegment
  split <;> rfl

@[simp] theorem modifySegment_faults (d : Dir) (index : Nat) (f : File → File) :
    (d.modifySegment index f).faults = d.faults := by
  unfold modifySegment
  split <;> rfl

@[simp] theorem modifySegment_headFile (d : Dir) (index : Nat) (f : File → File) :
    (d.modifySegment index f).headFile = d.headFile := by
  unfold modifySegment
  split <;> rfl

/-! ## Reading the directory -/

theorem os_ok {d : Dir} (h : d.faults = []) (context : String) : os context d = (.ok (), d) := by
  obtain ⟨segments, headFile, headTmpFile, faults⟩ := d
  cases h
  rfl

/-- The head that the marker records, if it is whole. -/
def marker (d : Dir) : Option Nat :=
  d.headFile.bind fun bytes =>
    if headFileLen ≤ bytes.length ∧
        crc32c (bytes.take 8) = BitVec.ofNat 32 (ofLe ((bytes.drop 8).take 4)) then
      some (ofLe (bytes.take 8))
    else none

theorem marker_congr {d d' : Dir} (h : d'.headFile = d.headFile) : d'.marker = d.marker := by
  rw [marker, marker, h]

theorem readHeadFile_ok {d : Dir} (h : d.faults = []) : readHeadFile d = (.ok d.marker, d) := by
  rw [readHeadFile, Act.bind_ok (os_ok h _), Act.get_bind, marker]
  cases d.headFile with
  | none => rfl
  | some bytes =>
      rw [Option.bind_some]
      by_cases hlen : headFileLen ≤ bytes.length
      · by_cases hcrc : crc32c (bytes.take 8) = BitVec.ofNat 32 (ofLe ((bytes.drop 8).take 4))
        · rw [if_pos ⟨hlen, hcrc⟩]
          simp only [if_pos hlen, if_pos hcrc]
          rfl
        · rw [if_neg fun hc => hcrc hc.2]
          simp only [if_pos hlen, if_neg hcrc]
          rfl
      · rw [if_neg fun hc => hlen hc.1]
        simp only [if_neg hlen]
        rfl

/-- The listing ends with the highest index in it, and the length of that file. -/
theorem findHighest_ok {d : Dir} (h : d.faults = []) (highest : Option (Nat × Nat))
    (entries : List (Sigma fun _ : Nat => File)) :
    ∃ found, findHighest highest entries d = (.ok found, d) ∧
      (found = none → highest = none ∧ entries = []) ∧
      ∀ i n, found = some (i, n) →
        (highest = some (i, n) ∨ ∃ file, ⟨i, file⟩ ∈ entries ∧ n = file.written.length) ∧
        (∀ e ∈ entries, e.1 ≤ i) ∧ ∀ p, highest = some p → p.1 ≤ i := by
  induction entries generalizing highest with
  | nil =>
      refine ⟨highest, rfl, fun hn => ⟨hn, rfl⟩, fun i n hf => ⟨Or.inl hf, nofun, fun p hp => ?_⟩⟩
      rw [hf] at hp
      cases hp
      exact Nat.le_refl i
  | cons e rest ih =>
      obtain ⟨index, file⟩ := e
      obtain ⟨found, hrun, hnone, hsome⟩ := ih (if highest.elim true fun h => decide (h.1 < index)
        then some (index, file.written.length) else highest)
      refine ⟨found, ?_, fun hn => ?_, fun i n hf => ?_⟩
      · rw [findHighest, Act.bind_ok (os_ok h _), Act.bind_ok (os_ok h _), hrun]
      · have := (hnone hn).1
        cases highest with
        | none => cases this
        | some p =>
            split at this <;> cases this
      · obtain ⟨hfrom, hrest, hmax⟩ := hsome i n hf
        by_cases hlt : highest.elim true (fun h => decide (h.1 < index)) = true
        · rw [if_pos hlt] at hfrom hmax
          have hle : index ≤ i := hmax _ rfl
          refine ⟨?_, List.forall_mem_cons.mpr ⟨hle, hrest⟩, fun p hp => ?_⟩
          · rcases hfrom with heq | ⟨f, hf, hn⟩
            · cases heq
              exact Or.inr ⟨file, List.mem_cons_self, rfl⟩
            · exact Or.inr ⟨f, List.mem_cons_of_mem _ hf, hn⟩
          · rw [hp] at hlt
            exact Nat.le_trans (Nat.le_of_lt (of_decide_eq_true hlt)) hle
        · rw [if_neg hlt] at hfrom hmax
          refine ⟨?_, List.forall_mem_cons.mpr ⟨?_, hrest⟩, hmax⟩
          · exact hfrom.imp_right fun ⟨f, hf, hn⟩ => ⟨f, List.mem_cons_of_mem _ hf, hn⟩
          · cases highest with
            | none => exact absurd rfl hlt
            | some p =>
                have hge : ¬ p.1 < index := fun hc => hlt (decide_eq_true hc)
                exact Nat.le_trans (Nat.not_lt.mp hge) (hmax p rfl)

/-- The length that `open` derives from the files: where the highest segment ends. -/
def Spans (d : Dir) (size total : Nat) : Prop :=
  (∀ i, d.segments.lookup i = none) ∧ total = 0 ∨
    ∃ i file, d.segments.lookup i = some file ∧
      (∀ j, (d.segments.lookup j).isSome = true → j ≤ i) ∧
      total = saturatingAdd (saturatingMul i size) file.written.length

end Dir

namespace SegmentedStore

/-- The file of segment `i`. -/
def seg (s : SegmentedStore) (i : Nat) : Option File := s.dir.segments.lookup i

/-- No system call fails, and every handle has its file. -/
structure Ready (s : SegmentedStore) : Prop where
  faults_eq : s.dir.faults = []
  handles_ok : ∀ i ∈ s.handles, (s.seg i).isSome = true

theorem os_ok {s : SegmentedStore} (h : s.dir.faults = []) (context : String) :
    os context s = (.ok (), s) := by
  obtain ⟨⟨segments, headFile, headTmpFile, faults⟩, _, _, _, _, _, _, _, _⟩ := s
  cases h
  rfl

theorem onDir_modify (f : Dir → Dir) (s : SegmentedStore) :
    onDir (Act.modify f) s = (.ok (), { s with dir := f s.dir }) := rfl

/-- A store as `open` returns it. -/
structure Opened (size : Nat) (created : Bool) (d : Dir) (s : SegmentedStore) : Prop where
  dir_eq : s.dir = d
  segmentSize_eq : s.segmentSize = size
  handles_eq : s.handles = []
  spans : d.Spans size s.maxWritten
  syncedFrom_eq : s.syncedFrom = s.maxWritten / size
  head_eq : s.head = min (d.marker.getD 0) s.maxWritten
  parentDirty_eq : s.parentDirty = created

theorem openDir_ok {size : Nat} (hsize : 0 < size) (created : Bool) {d : Dir} (h : d.faults = []) :
    ∃ s, openDir size created d = (.ok s, d) ∧ Opened size created d s := by
  obtain ⟨found, hrun, hnone, hsome⟩ := Dir.findHighest_ok h none d.segments.entries
  rw [openDir, dif_neg (Nat.ne_of_gt hsize), Act.bind_ok (Dir.os_ok h _),
    Act.bind_ok (Dir.os_ok h _), Act.get_bind, Act.bind_ok hrun,
    Act.bind_ok (Dir.readHeadFile_ok h), Act.get_bind]
  refine ⟨_, rfl, rfl, rfl, rfl, ?_, rfl, rfl, rfl⟩
  cases found with
  | none =>
      refine Or.inl ⟨fun i => ?_, rfl⟩
      rw [AList.lookup_eq_none]
      show i ∉ d.segments.keys
      rw [AList.keys, (hnone rfl).2]
      exact List.not_mem_nil
  | some p =>
      obtain ⟨i, n⟩ := p
      obtain ⟨hfrom, hmax, -⟩ := hsome i n rfl
      obtain ⟨file, hmem, rfl⟩ := hfrom.resolve_left (by simp)
      refine Or.inr ⟨i, file, AList.mem_lookup_iff.mpr hmem, fun j hj => ?_, rfl⟩
      obtain ⟨f, hf⟩ := Option.isSome_iff_exists.mp hj
      exact hmax _ (AList.mem_lookup_iff.mp hf)

theorem Opened.ready {size : Nat} {created : Bool} {d : Dir} {s : SegmentedStore}
    (h : Opened size created d s) (hd : d.faults = []) : Ready s := by
  refine ⟨by rw [h.dir_eq]; exact hd, fun i hi => ?_⟩
  rw [h.handles_eq] at hi
  cases hi

/-! ## Writing -/

/-- The range of `n` bytes at `off` meets segment `i`. -/
def Touches (size off n i : Nat) : Prop := off < (i + 1) * size ∧ i * size < off + n ∧ 0 < n

instance (size off n i : Nat) : Decidable (Touches size off n i) :=
  inferInstanceAs (Decidable (_ ∧ _ ∧ _))

/-- Segment `i` after `bytes` have been written at `off`. -/
def patched (size off : Nat) (bytes : List UInt8) (i : Nat) (file : Option File) : Option File :=
  if Touches size off bytes.length i then
    some ((file.getD File.empty).pwriteAll (off - i * size)
      ((bytes.drop (i * size - off)).take ((i + 1) * size - max off (i * size))))
  else file

/-- What opening, reading and writing segments leave alone. -/
structure Frame (s s' : SegmentedStore) : Prop where
  segmentSize_eq : s'.segmentSize = s.segmentSize
  maxWritten_eq : s'.maxWritten = s.maxWritten
  syncedFrom_eq : s'.syncedFrom = s.syncedFrom
  head_eq : s'.head = s.head
  headFile_eq : s'.dir.headFile = s.dir.headFile

theorem Frame.refl (s : SegmentedStore) : Frame s s := ⟨rfl, rfl, rfl, rfl, rfl⟩

theorem Frame.trans {s s' s'' : SegmentedStore} (h : Frame s s') (h' : Frame s' s'') :
    Frame s s'' :=
  ⟨h'.1.trans h.1, h'.2.trans h.2, h'.3.trans h.3, h'.4.trans h.4, h'.5.trans h.5⟩

theorem segmentForWrite_ok {s : SegmentedStore} (h : Ready s) (index : Nat) :
    ∃ s', segmentForWrite index s = (.ok (), s') ∧ Ready s' ∧ Frame s s' ∧
      (∀ i, s'.seg i = if i = index then some ((s.seg i).getD File.empty) else s.seg i) ∧
      ∀ i, i ∈ s'.handles ↔ i ∈ s.handles ∨ i = index := by
  unfold segmentForWrite
  rw [Act.get_bind]
  by_cases hmem : index ∈ s.handles
  · refine ⟨s, by rw [if_pos hmem]; rfl, h, Frame.refl s, fun i => ?_, fun i => ?_⟩
    · split
      · rename_i hi
        obtain ⟨file, hfile⟩ := Option.isSome_iff_exists.mp (h.handles_ok index hmem)
        rw [hi, hfile]
        rfl
      · rfl
    · constructor
      · exact Or.inl
      · rintro (hi | rfl)
        · exact hi
        · exact hmem
  · rw [if_neg hmem, Act.bind_ok (os_ok h.faults_eq _)]
    have hseg : ∀ i, ({ s with
        dir := s.dir.createSegment index, dirDirty := true,
        handles := index :: s.handles } : SegmentedStore).seg i =
          if i = index then some ((s.seg i).getD File.empty) else s.seg i :=
      Dir.lookup_createSegment s.dir index
    refine ⟨_, rfl, ⟨?_, fun i hi => ?_⟩, ⟨rfl, rfl, rfl, rfl, ?_⟩, hseg, fun i => ?_⟩
    · exact (Dir.createSegment_faults s.dir index).trans h.faults_eq
    · rw [hseg]
      split
      · rfl
      · rename_i hne
        exact h.handles_ok i ((List.mem_cons.mp hi).resolve_left hne)
    · exact Dir.createSegment_headFile s.dir index
    · rw [List.mem_cons, or_comm]

/-- Writing into a segment that has been opened. -/
theorem modifySegment_ok {s : SegmentedStore} (h : Ready s) (index : Nat) (f : File → File) :
    Ready { s with dir := s.dir.modifySegment index f } ∧
      Frame s { s with dir := s.dir.modifySegment index f } ∧
      ∀ i, ({ s with dir := s.dir.modifySegment index f } : SegmentedStore).seg i =
        if i = index then (s.seg i).map f else s.seg i := by
  have hseg := Dir.lookup_modifySegment s.dir index (f := f)
  refine ⟨⟨(Dir.modifySegment_faults s.dir index f).trans h.faults_eq, fun i hi => ?_⟩,
    ⟨rfl, rfl, rfl, rfl, Dir.modifySegment_headFile s.dir index f⟩, hseg⟩
  have := h.handles_ok i hi
  show ((s.dir.modifySegment index f).segments.lookup i).isSome = true
  rw [hseg]
  split
  · rw [Option.isSome_map]
    exact this
  · exact this

/-! ### The first chunk of a write and the rest -/

/-- A segment below another ends where that one starts, or before. -/
theorem succ_mul_le (size : Nat) {i k : Nat} (h : i < k) : i * size + size ≤ k * size := by
  rw [← Nat.succ_mul]
  exact Nat.mul_le_mul_right _ h

/-- Where `off` lies in its segment. -/
theorem div_bounds {size : Nat} (hsize : 0 < size) (off : Nat) :
    off / size * size ≤ off ∧ off < off / size * size + size ∧
      off % size = off - off / size * size ∧
      room size off = off / size * size + size - off := by
  have h1 := Nat.div_add_mod off size
  have h2 := Nat.mod_lt off hsize
  rw [Nat.mul_comm] at h1
  unfold room
  omega

theorem touches_first {size off n : Nat} (hsize : 0 < size) (hn : 0 < n) :
    Touches size off n (off / size) := by
  have := div_bounds hsize off
  rw [Touches, Nat.succ_mul]
  omega

/-- Past its first chunk a write does not touch the chunk's segment any more. -/
theorem not_touches_rest {size off n : Nat} (hsize : 0 < size) :
    ¬ Touches size (off + min n (room size off)) (n - min n (room size off)) (off / size) := by
  have := div_bounds hsize off
  rw [Touches, Nat.succ_mul]
  omega

theorem touches_rest {size off n i : Nat} (hsize : 0 < size) (hi : i ≠ off / size) :
    Touches size off n i ↔
      Touches size (off + min n (room size off)) (n - min n (room size off)) i := by
  have := div_bounds hsize off
  rw [Touches, Touches, Nat.succ_mul]
  rcases Nat.lt_or_gt_of_ne hi with hlt | hgt
  · have := succ_mul_le size hlt
    omega
  · have := succ_mul_le size hgt
    omega

theorem patched_first {size off : Nat} {bytes : List UInt8} (hsize : 0 < size) (hne : bytes ≠ [])
    (file : Option File) :
    patched size off bytes (off / size) file =
      some ((file.getD File.empty).pwriteAll (off % size)
        (bytes.take (min bytes.length (room size off)))) := by
  have hb := div_bounds hsize off
  rw [patched, if_pos (touches_first hsize (List.length_pos_of_ne_nil hne)), Nat.succ_mul,
    show off / size * size - off = 0 by omega, List.drop_zero, ← hb.2.2.1,
    Nat.max_eq_left hb.1, ← hb.2.2.2, Nat.min_comm bytes.length, ← List.take_eq_take_min]

theorem patched_rest {size off i : Nat} {bytes : List UInt8} (hsize : 0 < size)
    (hi : i ≠ off / size) (file : Option File) :
    patched size off bytes i file =
      patched size (off + min bytes.length (room size off))
        (bytes.drop (min bytes.length (room size off))) i file := by
  have hb := div_bounds hsize off
  unfold patched
  rw [List.length_drop]
  by_cases ht : Touches size off bytes.length i
  · rw [if_pos ht, if_pos ((touches_rest hsize hi).mp ht)]
    -- The segment lies past the first chunk, so both writes fill it from its start.
    have hgt : off / size < i := by
      rcases Nat.lt_or_gt_of_ne hi with hlt | hgt
      · have := succ_mul_le size hlt
        rw [Touches, Nat.succ_mul] at ht
        omega
      · exact hgt
    have := succ_mul_le size hgt
    rw [List.drop_drop, Nat.max_eq_right (show off ≤ i * size by omega),
      Nat.max_eq_right (show off + min bytes.length (room size off) ≤ i * size by omega),
      show off - i * size = 0 by omega,
      show off + min bytes.length (room size off) - i * size = 0 by omega,
      show min bytes.length (room size off) + (i * size - (off + min bytes.length (room size off))) =
        i * size - off by omega]
  · rw [if_neg ht, if_neg fun h => ht ((touches_rest hsize hi).mpr h)]

theorem patched_nil (size off i : Nat) (file : Option File) : patched size off [] i file = file :=
  if_neg fun h => absurd h.2.2 (Nat.lt_irrefl 0)

/-- `write_at` patches every segment its range meets, and opens it. -/
theorem writeChunks_ok {size : Nat} (hsize : 0 < size) {off : Nat} {bytes : List UInt8}
    (hfit : off + bytes.length < 2 ^ 64) {s : SegmentedStore} (h : Ready s) :
    ∃ s', writeChunks ⟨size, hsize⟩ off bytes s = (.ok (), s') ∧ Ready s' ∧ Frame s s' ∧
      (∀ i, s'.seg i = patched size off bytes i (s.seg i)) ∧
      ∀ i, i ∈ s'.handles ↔ i ∈ s.handles ∨ Touches size off bytes.length i := by
  induction hn : bytes.length using Nat.strongRecOn generalizing off bytes s with
  | ind n ih =>
      by_cases hne : bytes = []
      · subst hne
        refine ⟨s, by rw [writeChunks, dif_pos rfl]; rfl, h, Frame.refl s, fun i => ?_, fun i => ?_⟩
        · exact (patched_nil size off i _).symm
        · rw [← hn]
          exact ⟨Or.inl, fun hi => hi.resolve_right fun ht => absurd ht.2.2 (by decide)⟩
      · obtain ⟨s1, hopen, hs1, hf1, hseg1, hh1⟩ := segmentForWrite_ok h (off / size)
        obtain ⟨hs2, hf2, hseg2⟩ := modifySegment_ok hs1 (off / size)
          (·.pwriteAll (off % size) (bytes.take (min bytes.length (room size off))))
        have hpos := List.length_pos_of_ne_nil hne
        have hroom := room_pos hsize off
        obtain ⟨s3, hrun, hs3, hf3, hseg3, hh3⟩ := @ih
          (bytes.drop (min bytes.length (room size off))).length
          (by rw [List.length_drop]; omega) (off + min bytes.length (room size off))
          (bytes.drop (min bytes.length (room size off)))
          (by rw [List.length_drop]; omega) _ hs2 rfl
        refine ⟨s3, ?_, hs3, (hf1.trans hf2).trans hf3, fun i => ?_, fun i => ?_⟩
        · rw [writeChunks, dif_neg hne]
          simp only
          rw [Act.bind_ok hopen, Act.bind_ok (os_ok hs1.faults_eq _),
            Act.bind_ok (onDir_modify _ s1), Act.bind_ok (addChecked_ok (by omega) _), hrun]
        · rw [hseg3, hseg2, hseg1]
          by_cases hi : i = off / size
          · subst hi
            rw [if_pos rfl, if_pos rfl, patched_first hsize hne, patched,
              if_neg (by rw [List.length_drop]; exact not_touches_rest hsize)]
            rfl
          · rw [if_neg hi, if_neg hi, ← patched_rest hsize hi]
        · rw [hh3, hh1, ← hn, List.length_drop, or_assoc]
          refine or_congr_right ?_
          by_cases hi : i = off / size
          · subst hi
            exact ⟨fun _ => touches_first hsize hpos, fun _ => Or.inl rfl⟩
          · rw [touches_rest hsize hi]
            exact ⟨fun h => h.resolve_left hi, Or.inr⟩

/-- The files after `bytes` have been written at `off`. -/
structure Patched (off : Nat) (bytes : List UInt8) (s s' : SegmentedStore) : Prop where
  segmentSize_eq : s'.segmentSize = s.segmentSize
  seg_eq : ∀ i, s'.seg i = patched s.segmentSize off bytes i (s.seg i)

/-- The state after a `write_at` of `bytes` at `off`. -/
structure Written (off : Nat) (bytes : List UInt8) (s s' : SegmentedStore) : Prop extends
    Ready s', Patched off bytes s s' where
  syncedFrom_eq : s'.syncedFrom = s.syncedFrom
  head_eq : s'.head = s.head
  headFile_eq : s'.dir.headFile = s.dir.headFile
  maxWritten_eq : s'.maxWritten = max s.maxWritten (off + bytes.length)
  mem_handles : ∀ i, i ∈ s'.handles ↔ i ∈ s.handles ∨ Touches s.segmentSize off bytes.length i

theorem writeAt_ok {s : SegmentedStore} (h : Ready s) {off : Nat} {bytes : List UInt8}
    (hfit : off + bytes.length < 2 ^ 64) :
    ∃ s', WalStore.writeAt off bytes s = (.ok (), s') ∧ Written off bytes s s' := by
  obtain ⟨s1, hrun, hs1, hf, hseg, hh⟩ := writeChunks_ok s.segmentSize_pos hfit h
  refine ⟨{ s1 with maxWritten := max s1.maxWritten (saturatingAdd off bytes.length) }, ?_,
    ⟨hs1.faults_eq, hs1.handles_ok⟩, ⟨hf.segmentSize_eq, hseg⟩, hf.syncedFrom_eq, hf.head_eq,
    hf.headFile_eq, ?_, hh⟩
  · show writeAt off bytes s = _
    rw [writeAt, Act.get_bind, Act.bind_ok hrun]
    rfl
  · show max s1.maxWritten (saturatingAdd off bytes.length) = _
    rw [hf.maxWritten_eq, saturatingAdd, Nat.min_eq_left (by omega)]

/-! ## Truncating -/

/-- Segment `i` after the store has been cut in segment `last` at `here`. -/
def cut (last here i : Nat) (file : Option File) : Option File :=
  if last < i then none else if i = last then file.map (·.setLen here) else file

theorem cut_none (last here i : Nat) : cut last here i none = none := by
  rw [cut]
  split
  · rfl
  · split <;> rfl

theorem seg_erase (s : SegmentedStore) (index i : Nat) :
    (s.dir.segments.erase index).lookup i = if i = index then none else s.seg i := by
  split
  · rename_i hi
    rw [hi, AList.lookup_erase]
  · rename_i hi
    exact AList.lookup_erase_ne hi

/-- A segment's file is removed and its handle is closed. -/
theorem Ready.remove {s s' : SegmentedStore} (h : Ready s) {index : Nat}
    (hdir : s'.dir = { s.dir with segments := s.dir.segments.erase index })
    (hhandles : s'.handles = s.handles.filter (· ≠ index)) : Ready s' := by
  refine ⟨by rw [hdir]; exact h.faults_eq, fun i hi => ?_⟩
  rw [hhandles] at hi
  obtain ⟨hi, hne⟩ := List.mem_filter.mp hi
  rw [seg, hdir]
  show ((s.dir.segments.erase index).lookup i).isSome = true
  rw [seg_erase, if_neg (of_decide_eq_true hne)]
  exact h.handles_ok i hi

theorem truncateEntry_ok (last here : Nat) {s : SegmentedStore} (h : Ready s) {index : Nat}
    (hmem : (s.seg index).isSome = true) :
    ∃ s', truncateEntry last here index s = (.ok (), s') ∧ Ready s' ∧ Frame s s' ∧
      (∀ i, s'.seg i = if i = index then cut last here i (s.seg i) else s.seg i) ∧
      ∀ i, i ∈ s'.handles ↔
        i ∈ s.handles ∧ ¬ (last < i ∧ i = index) ∨ i = last ∧ i = index := by
  unfold truncateEntry
  by_cases hgt : last < index
  · rw [if_pos hgt, Act.bind_ok (os_ok h.faults_eq _)]
    refine ⟨_, rfl, h.remove rfl rfl, ⟨rfl, rfl, rfl, rfl, rfl⟩, fun i => ?_, fun i => ?_⟩
    · refine (seg_erase s index i).trans ?_
      split
      · rename_i hi
        rw [hi, cut, if_pos hgt]
      · rfl
    · rw [List.mem_filter, decide_eq_true_eq]
      by_cases hi : i = index
      · subst hi
        simp only [ne_eq, not_true_eq_false, and_false, hgt, and_self, false_or]
        exact ⟨False.elim, fun h => absurd h.1 (by omega)⟩
      · simp [hi]
  · rw [if_neg hgt]
    by_cases hi : index = last
    · subst hi
      rw [if_pos rfl]
      obtain ⟨s1, hopen, hs1, hf1, hseg1, hh1⟩ := segmentForWrite_ok h index
      obtain ⟨hs2, hf2, hseg2⟩ := modifySegment_ok hs1 index (·.setLen here)
      refine ⟨_, ?_, hs2, hf1.trans hf2, fun i => ?_, fun i => ?_⟩
      · rw [Act.bind_ok hopen, Act.bind_ok (os_ok hs1.faults_eq _)]
        rfl
      · rw [hseg2, hseg1]
        split
        · rename_i hi
          obtain ⟨file, hfile⟩ := Option.isSome_iff_exists.mp hmem
          rw [hi, cut, if_neg (Nat.lt_irrefl _), if_pos rfl, hfile]
          rfl
        · rfl
      · refine (hh1 i).trans ?_
        by_cases hi : i = index
        · subst hi
          simp
        · simp [hi]
    · refine ⟨s, by rw [if_neg hi]; rfl, h, Frame.refl s, fun i => ?_, fun i => ?_⟩
      · split
        · rename_i heq
          rw [heq, cut, if_neg hgt, if_neg hi]
        · rfl
      · constructor
        · intro hmem
          exact Or.inl ⟨hmem, fun hc => hgt (hc.2 ▸ hc.1)⟩
        · rintro (⟨hmem, -⟩ | ⟨rfl, heq⟩)
          · exact hmem
          · exact absurd heq.symm hi

theorem truncateEntries_ok (last here : Nat) {entries : List Nat} (hnodup : entries.Nodup)
    {s : SegmentedStore} (h : Ready s) (hmem : ∀ i ∈ entries, (s.seg i).isSome = true) :
    ∃ s', truncateEntries last here entries s = (.ok (), s') ∧ Ready s' ∧ Frame s s' ∧
      (∀ i, s'.seg i = if i ∈ entries then cut last here i (s.seg i) else s.seg i) ∧
      ∀ i, i ∈ s'.handles ↔
        i ∈ s.handles ∧ ¬ (last < i ∧ i ∈ entries) ∨ i = last ∧ i ∈ entries := by
  induction entries generalizing s with
  | nil =>
      exact ⟨s, rfl, h, Frame.refl s, fun i => by simp, fun i => by simp⟩
  | cons index rest ih =>
      obtain ⟨hnew, hnodup⟩ := List.nodup_cons.mp hnodup
      obtain ⟨s1, hrun1, hs1, hf1, hseg1, hh1⟩ := truncateEntry_ok last here h
        (hmem index List.mem_cons_self)
      have hother : ∀ i ∈ rest, s1.seg i = s.seg i := fun i hi => by
        rw [hseg1, if_neg (fun heq : i = index => hnew (heq ▸ hi))]
      obtain ⟨s2, hrun2, hs2, hf2, hseg2, hh2⟩ := ih hnodup hs1 fun i hi => by
        rw [hother i hi]
        exact hmem i (List.mem_cons_of_mem _ hi)
      refine ⟨s2, ?_, hs2, hf1.trans hf2, fun i => ?_, fun i => ?_⟩
      · rw [truncateEntries, Act.bind_ok (os_ok h.faults_eq _), Act.bind_ok hrun1, hrun2]
      · rw [hseg2]
        by_cases hi : i ∈ rest
        · rw [if_pos hi, if_pos (List.mem_cons_of_mem _ hi), hother i hi]
        · rw [if_neg hi, hseg1]
          simp only [List.mem_cons, hi, or_false]
      · rw [hh2, hh1, List.mem_cons]
        by_cases hlast : i = last
        · subst hlast
          simp only [Nat.lt_irrefl, false_and, not_false_eq_true, and_true, true_and]
          rw [or_assoc]
        · simp only [hlast, false_and, or_false]
          rw [and_assoc, ← not_or, ← and_or_left]

/-- The state after a truncation to `len` bytes. -/
structure Truncated (len : Nat) (s s' : SegmentedStore) : Prop extends Ready s' where
  segmentSize_eq : s'.segmentSize = s.segmentSize
  head_eq : s'.head = s.head
  headFile_eq : s'.dir.headFile = s.dir.headFile
  maxWritten_eq : s'.maxWritten = len
  syncedFrom_eq : s'.syncedFrom = len / s.segmentSize
  seg_eq : ∀ i, s'.seg i = cut (len / s.segmentSize) (len % s.segmentSize) i (s.seg i)
  mem_handles : ∀ i, i ∈ s'.handles ↔ i ∈ s.handles ∧ i ≤ len / s.segmentSize ∨
    i = len / s.segmentSize ∧ (s.seg i).isSome = true

theorem truncate_ok {s : SegmentedStore} (h : Ready s) (len : Nat) :
    ∃ s', WalStore.truncate len s = (.ok (), s') ∧ Truncated len s s' := by
  have hkeys : ∀ i, i ∈ s.dir.segments.keys ↔ (s.seg i).isSome = true := fun i =>
    AList.mem_keys.symm.trans AList.lookup_isSome.symm
  obtain ⟨s1, hrun, hs1, hf, hseg, hh⟩ := truncateEntries_ok (len / s.segmentSize)
    (len % s.segmentSize) s.dir.segments.keys_nodup h fun i hi => (hkeys i).mp hi
  refine ⟨{ s1 with maxWritten := len, syncedFrom := len / s.segmentSize }, ?_,
    ⟨hs1.faults_eq, hs1.handles_ok⟩, hf.segmentSize_eq, hf.head_eq, hf.headFile_eq, rfl, rfl,
    fun i => ?_, fun i => ?_⟩
  · show truncate len s = _
    rw [truncate, Act.get_bind, Act.bind_ok (os_ok h.faults_eq _), Act.bind_ok hrun]
    rfl
  · refine (hseg i).trans ?_
    split
    · rfl
    · rename_i hi
      rw [hkeys, Bool.not_eq_true, Option.isSome_eq_false_iff, Option.isNone_iff_eq_none] at hi
      rw [hi, cut_none]
  · refine (hh i).trans ?_
    rw [hkeys]
    constructor
    · rintro (⟨hi, hnot⟩ | hi)
      · refine Or.inl ⟨hi, ?_⟩
        by_contra hgt
        exact hnot ⟨Nat.not_le.mp hgt, h.handles_ok i hi⟩
      · exact Or.inr hi
    · rintro (⟨hi, hle⟩ | hi)
      · exact Or.inl ⟨hi, fun hgt => absurd hgt.1 (Nat.not_lt.mpr hle)⟩
      · exact Or.inr hi

/-! ## Flushing -/

theorem flushSegments_ok {entries : List Nat} (hnodup : entries.Nodup) {s : SegmentedStore}
    (h : Ready s) :
    ∃ s', flushSegments entries s = (.ok (), s') ∧ Ready s' ∧ Frame s s' ∧
      s'.handles = s.handles ∧
      ∀ i, s'.seg i = if i ∈ entries ∧ i ∈ s.handles then (s.seg i).map File.durableSync
        else s.seg i := by
  induction entries generalizing s with
  | nil => exact ⟨s, rfl, h, Frame.refl s, rfl, fun i => by simp⟩
  | cons index rest ih =>
      obtain ⟨hnew, hnodup⟩ := List.nodup_cons.mp hnodup
      by_cases hmem : index ∈ s.handles
      · obtain ⟨hs1, hf1, hseg1⟩ := modifySegment_ok h index File.durableSync
        obtain ⟨s2, hrun2, hs2, hf2, hh2, hseg2⟩ := ih hnodup hs1
        refine ⟨s2, ?_, hs2, hf1.trans hf2, hh2, fun i => ?_⟩
        · rw [flushSegments, Act.get_bind, if_pos hmem, Act.bind_ok (os_ok h.faults_eq _),
            Act.bind_ok (onDir_modify _ s), hrun2]
        · rw [hseg2, hseg1]
          by_cases hi : i = index
          · subst hi
            rw [if_neg (fun hc => hnew hc.1), if_pos rfl, if_pos ⟨List.mem_cons_self, hmem⟩]
          · rw [if_neg hi]
            simp only [List.mem_cons, hi, false_or]
      · obtain ⟨s2, hrun2, hs2, hf2, hh2, hseg2⟩ := ih hnodup h
        refine ⟨s2, ?_, hs2, hf2, hh2, fun i => ?_⟩
        · rw [flushSegments, Act.get_bind, if_neg hmem, hrun2]
        · rw [hseg2]
          by_cases hi : i = index
          · subst hi
            rw [if_neg (fun hc => hnew hc.1), if_neg (fun hc => hmem hc.2)]
          · simp only [List.mem_cons, hi, false_or]

theorem flushDirs_ok {s : SegmentedStore} (h : Ready s) :
    flushDirs s = (.ok (), { s with dirDirty := false, parentDirty := false }) := by
  have hdir : flushDirIfDirty SegmentedStore.dirDirty (fun s dirty => { s with dirDirty := dirty })
      (os "flushing the log directory") s = (.ok (), { s with dirDirty := false }) :=
    flushDirIfDirty_ok rfl (os_ok (by exact h.faults_eq) _)
  have hparent : flushDirIfDirty SegmentedStore.parentDirty
      (fun s dirty => { s with parentDirty := dirty }) (os "flushing the log directory")
      { s with dirDirty := false } =
        (.ok (), { s with dirDirty := false, parentDirty := false }) :=
    flushDirIfDirty_ok rfl (os_ok (by exact h.faults_eq) _)
  rw [flushDirs, Act.bind_ok hdir, hparent]

/-- The state after `sync`: the open segments of the window are flushed, and the
window starts at the segment that holds the last byte. -/
structure Synced (s s' : SegmentedStore) : Prop extends Ready s' where
  segmentSize_eq : s'.segmentSize = s.segmentSize
  head_eq : s'.head = s.head
  headFile_eq : s'.dir.headFile = s.dir.headFile
  maxWritten_eq : s'.maxWritten = s.maxWritten
  handles_eq : s'.handles = s.handles
  syncedFrom_eq : s'.syncedFrom =
    if s.maxWritten = 0 then s.syncedFrom else (s.maxWritten - 1) / s.segmentSize
  seg_eq : ∀ i, s'.seg i =
    if s.maxWritten ≠ 0 ∧ s.syncedFrom ≤ i ∧ i ≤ (s.maxWritten - 1) / s.segmentSize ∧
      i ∈ s.handles then (s.seg i).map File.durableSync else s.seg i

theorem Synced.seg_none {s s' : SegmentedStore} (h : Synced s s') {i : Nat}
    (hnone : s.seg i = none) : s'.seg i = none := by
  rw [h.seg_eq, hnone]
  split <;> rfl

theorem sync_ok {s : SegmentedStore} (h : Ready s) :
    ∃ s', WalStore.sync s = (.ok (), s') ∧ Synced s s' := by
  have hclean : Ready { s with dirDirty := false, parentDirty := false } :=
    ⟨h.faults_eq, h.handles_ok⟩
  show ∃ s', sync s = (.ok (), s') ∧ _
  rw [sync, Act.bind_ok (flushDirs_ok h), Act.get_bind]
  by_cases hzero : s.maxWritten = 0
  · refine ⟨_, by dsimp only; rw [if_pos hzero]; rfl, hclean, rfl, rfl, rfl, rfl, rfl, ?_, fun i => ?_⟩
    · rw [if_pos hzero]
    · rw [if_neg fun hc => hc.1 hzero]
      rfl
  · obtain ⟨s1, hrun, hs1, hf, hh, hseg⟩ :=
      flushSegments_ok (show (List.range' s.syncedFrom
        ((s.maxWritten - 1) / s.segmentSize + 1 - s.syncedFrom)).Nodup from List.nodup_range') hclean
    refine ⟨{ s1 with syncedFrom := (s.maxWritten - 1) / s.segmentSize }, ?_,
      ⟨hs1.faults_eq, hs1.handles_ok⟩, hf.segmentSize_eq, hf.head_eq, hf.headFile_eq,
      hf.maxWritten_eq, hh, ?_, fun i => ?_⟩
    · rw [if_neg hzero, Act.bind_ok hrun]
      rfl
    · rw [if_neg hzero]
    · refine (hseg i).trans ?_
      have hiff : i ∈ List.range' s.syncedFrom
          ((s.maxWritten - 1) / s.segmentSize + 1 - s.syncedFrom) ↔
          s.syncedFrom ≤ i ∧ i ≤ (s.maxWritten - 1) / s.segmentSize := by
        rw [List.mem_range'_1]
        omega
      simp only [hiff, hzero, ne_eq, not_false_eq_true, true_and, and_assoc]
      rfl

/-! ## Dropping a prefix -/

/-- The marker that records `head`. -/
def headMarker (head : Nat) : List UInt8 := toLe 8 head ++ toLe 4 (crc32c (toLe 8 head)).toNat

/-- The marker is read back as it was written. -/
theorem marker_headMarker {d : Dir} {head : Nat} (hlt : head < 2 ^ 64)
    (h : d.headFile = some (headMarker head)) : d.marker = some head := by
  have hlen : (headMarker head).length = headFileLen := by
    rw [headMarker, List.length_append, toLe_length, toLe_length]
    rfl
  have htake : (headMarker head).take 8 = toLe 8 head := by
    rw [headMarker, List.take_append_of_le_length (by rw [toLe_length]),
      List.take_of_length_le (by rw [toLe_length])]
  have hdrop : ((headMarker head).drop 8).take 4 = toLe 4 (crc32c (toLe 8 head)).toNat := by
    have : (headMarker head).drop 8 = toLe 4 (crc32c (toLe 8 head)).toNat := by
      rw [headMarker, List.drop_append_of_le_length (by rw [toLe_length]),
        List.drop_eq_nil_of_le (by rw [toLe_length]), List.nil_append]
    rw [this, List.take_of_length_le (by rw [toLe_length])]
  have hcrc : BitVec.ofNat 32 (ofLe (toLe 4 (crc32c (toLe 8 head)).toNat)) =
      crc32c (toLe 8 head) := by
    rw [ofLe_toLe_of_lt (show (crc32c (toLe 8 head)).toNat < 256 ^ 4 from BitVec.isLt _),
      BitVec.ofNat_toNat, BitVec.setWidth_eq]
  rw [Dir.marker, h, Option.bind_some, htake, hdrop, hcrc,
    if_pos ⟨Nat.le_of_eq hlen.symm, rfl⟩, ofLe_toLe_of_lt (by omega)]

theorem writeHeadFile_ok {s : SegmentedStore} (h : Ready s) (head : Nat) :
    writeHeadFile head s = (.ok (), { s with dir :=
      { s.dir with headFile := some (headMarker head), headTmpFile := none } }) := by
  have hos : ∀ marker tmp context,
      os context { s with dir := { s.dir with headFile := marker, headTmpFile := tmp } } =
        (.ok (), { s with dir := { s.dir with headFile := marker, headTmpFile := tmp } }) :=
    fun marker tmp context => os_ok (by exact h.faults_eq) context
  rw [writeHeadFile, Act.bind_ok (os_ok h.faults_eq _), Act.bind_ok (onDir_modify _ _),
    Act.bind_ok (hos _ _ _), Act.bind_ok (onDir_modify _ _), Act.bind_ok (hos _ _ _),
    Act.bind_ok (hos _ _ _), Act.bind_ok (onDir_modify _ _), hos _ _ _]
  rfl

theorem dropEntries_ok (keepFrom : Nat) {entries : List Nat} (hnodup : entries.Nodup)
    {s : SegmentedStore} (h : Ready s) :
    ∃ s', dropEntries keepFrom entries s = (.ok (), s') ∧ Ready s' ∧ Frame s s' ∧
      ∀ i, s'.seg i = if i ∈ entries ∧ i < keepFrom then none else s.seg i := by
  induction entries generalizing s with
  | nil => exact ⟨s, rfl, h, Frame.refl s, fun i => by simp⟩
  | cons index rest ih =>
      obtain ⟨hnew, hnodup⟩ := List.nodup_cons.mp hnodup
      by_cases hlt : index < keepFrom
      · have hs1 : Ready { s with
            handles := s.handles.filter (· ≠ index)
            dir := { s.dir with segments := s.dir.segments.erase index } } := h.remove rfl rfl
        obtain ⟨s2, hrun2, hs2, hf2, hseg2⟩ := ih hnodup hs1
        refine ⟨s2, ?_, hs2, ⟨hf2.1, hf2.2, hf2.3, hf2.4, hf2.5⟩, fun i => ?_⟩
        · rw [dropEntries, Act.bind_ok (os_ok h.faults_eq _), if_pos hlt, Act.modify_bind,
            Act.bind_ok (os_ok (by exact h.faults_eq) _), Act.bind_ok (onDir_modify _ _), hrun2]
        · refine (hseg2 i).trans ?_
          show (if i ∈ rest ∧ i < keepFrom then none
            else (s.dir.segments.erase index).lookup i) = _
          rw [seg_erase]
          by_cases hi : i = index
          · subst hi
            rw [if_pos rfl, ite_self, if_pos ⟨List.mem_cons_self, hlt⟩]
          · simp only [hi, if_false, List.mem_cons, false_or]
      · obtain ⟨s2, hrun2, hs2, hf2, hseg2⟩ := ih hnodup h
        refine ⟨s2, ?_, hs2, hf2, fun i => ?_⟩
        · rw [dropEntries, Act.bind_ok (os_ok h.faults_eq _), if_neg hlt, hrun2]
        · rw [hseg2]
          by_cases hi : i = index
          · subst hi
            rw [if_neg fun hc => hlt hc.2, if_neg fun hc => hlt hc.2]
          · simp only [List.mem_cons, hi, false_or]

/-- The head that `truncate_before` moves to: the offset, clamped between the old head
and the length. -/
def clampedHead (s : SegmentedStore) (offset : Nat) : Nat := min (max offset s.head) s.maxWritten

theorem clampedHead_le (s : SegmentedStore) (offset : Nat) : s.clampedHead offset ≤ s.maxWritten :=
  Nat.min_le_right _ _

/-- The lowest segment that a log with head `head` keeps. -/
def keepFrom (s : SegmentedStore) (head : Nat) : Nat :=
  min (head / s.segmentSize) ((s.maxWritten - 1) / s.segmentSize)

/-- The state after `truncate_before`: the head is recorded, and the segments below it
are gone. -/
structure Dropped (offset : Nat) (s s' : SegmentedStore) : Prop extends Ready s' where
  segmentSize_eq : s'.segmentSize = s.segmentSize
  maxWritten_eq : s'.maxWritten = s.maxWritten
  syncedFrom_eq : s'.syncedFrom = s.syncedFrom
  head_eq : s'.head = s.clampedHead offset
  headFile_eq : s'.dir.headFile = some (headMarker (s.clampedHead offset))
  seg_eq : ∀ i, s'.seg i = if i < s.keepFrom (s.clampedHead offset) then none else s.seg i

theorem truncateBefore_ok {s : SegmentedStore} (h : Ready s) (hle : s.head ≤ s.maxWritten)
    (offset : Nat) :
    ∃ s', WalStore.truncateBefore offset s = (.ok (s.clampedHead offset), s') ∧
      Dropped offset s s' := by
  have hkeys : ∀ i, i ∈ s.dir.segments.keys ↔ (s.seg i).isSome = true := fun i =>
    AList.mem_keys.symm.trans AList.lookup_isSome.symm
  have hs1 : Ready { s with dir :=
      { s.dir with headFile := some (headMarker (s.clampedHead offset)), headTmpFile := none } } :=
    ⟨h.faults_eq, h.handles_ok⟩
  obtain ⟨s2, hrun, hs2, hf, hseg⟩ := dropEntries_ok (s.keepFrom (s.clampedHead offset))
    s.dir.segments.keys_nodup hs1
  refine ⟨{ s2 with head := s.clampedHead offset }, ?_, ⟨hs2.faults_eq, hs2.handles_ok⟩, hf.segmentSize_eq,
    hf.maxWritten_eq, hf.syncedFrom_eq, rfl, hf.headFile_eq, fun i => ?_⟩
  · show truncateBefore offset s = _
    rw [truncateBefore, Act.get_bind]
    simp only
    rw [if_neg (Nat.not_lt.mpr hle)]
    refine (Act.bind_ok (writeHeadFile_ok h (s.clampedHead offset)) _).trans ?_
    rw [Act.bind_ok (os_ok (by exact h.faults_eq) _)]
    exact Act.bind_ok hrun _
  · refine (hseg i).trans ?_
    show (if i ∈ s.dir.segments.keys ∧ i < s.keepFrom (s.clampedHead offset) then none
      else s.seg i) = _
    by_cases hi : i < s.keepFrom (s.clampedHead offset)
    · rw [if_pos hi]
      split
      · rfl
      · rename_i hnot
        rw [hkeys] at hnot
        cases hs : s.seg i with
        | none => rfl
        | some file => exact absurd ⟨by rw [hs]; rfl, hi⟩ hnot
    · rw [if_neg hi, if_neg fun hc => hi hc.2]

end SegmentedStore
end WalDb
