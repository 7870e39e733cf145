/-
The loops of the segmented store on machines of 32 and 64 bits.

`write_at` and `read_at` take the room that is left in a segment as a `u64` and cast it
to `usize` before they compare it with the buffer.  On 64 bits the cast changes nothing,
and the loops are `writeChunks` and `readChunks`.  On 32 bits it keeps the low half: a
room that is a multiple of `2 ^ 32` becomes none, the loop moves nothing, and goes round
for ever.  So the loops cannot be written as functions that end; they get a number of
rounds, and `none` says that it was not enough.

Where no position of the buffer has such a room, the buffer is cut into pieces that are
sometimes shorter than a segment would allow, and never longer.
-/
import WalDb.Lib.Tiling
import WalDb.Segment.Image

namespace WalDb

open Lib

/-- The widths of `usize`. -/
inductive WordSize where
  | w32
  | w64
  deriving DecidableEq, Repr

def WordSize.bits : WordSize → Nat
  | .w32 => 32
  | .w64 => 64

namespace SegmentedStore

/-- What one round of `write_at` hands to a segment file. -/
structure Chunk where
  index : Nat
  here : Nat
  bytes : List UInt8

/-- Where it lies in the flat space. -/
def Chunk.span (size : Nat) (c : Chunk) : Span :=
  ⟨c.index * size + c.here, c.index * size + c.here + c.bytes.length⟩

/-- `(segment_size - local) as usize`. -/
def roomUsize (w : WordSize) (size pos : Nat) : Nat := room size pos % 2 ^ w.bits

/-- `pwrite_all`, which makes no call for an empty buffer. -/
def writeChunk (index here : Nat) (bytes : List UInt8) : Act SegmentedStore Fault Unit :=
  if bytes = [] then pure ()
  else do
    os "writing a record"
    onDir (Act.modify fun d => d.modifySegment index (·.pwriteAll here bytes))

/-- `rounds` rounds of the loop of `write_at`, with the chunks they hand out. -/
def writeLoop (w : WordSize) (size : Nat) :
    Nat → Nat → List UInt8 → Act SegmentedStore Fault (Option (List Chunk))
  | 0, _, remaining => pure (if remaining = [] then some [] else none)
  | rounds + 1, pos, remaining =>
      if remaining = [] then pure (some [])
      else
        let index := pos / size
        let here := pos % size
        let take := min remaining.length (roomUsize w size pos)
        do
          segmentForWrite index
          writeChunk index here (remaining.take take)
          let next ← addChecked pos take
          let rest ← writeLoop w size rounds next (remaining.drop take)
          pure (rest.map (⟨index, here, remaining.take take⟩ :: ·))

/-- `pread_fill`, which makes no call for an empty buffer. -/
def readChunk (index here want : Nat) : Act SegmentedStore Fault (List UInt8) :=
  if want = 0 then pure []
  else do
    os "reading from the log"
    let s ← Act.get
    pure (((s.dir.segments.lookup index).getD File.empty).preadFill here want)

/-- `rounds` rounds of the loop of `read_at`. -/
def readLoop (w : WordSize) (size : Nat) :
    Nat → Nat → Nat → Act SegmentedStore Fault (Option (List UInt8))
  | 0, _, n => pure (if n = 0 then some [] else none)
  | rounds + 1, pos, n =>
      if n = 0 then pure (some [])
      else
        let index := pos / size
        let here := pos % size
        let want := min n (roomUsize w size pos)
        do
          match ← segmentForRead index with
          | false => pure (some [])
          | true => do
              let got ← readChunk index here want
              let next ← addChecked pos got.length
              if got.length < want then pure (some got)
              else do
                let rest ← readLoop w size rounds next (n - got.length)
                pure (rest.map (got ++ ·))

/-- No position of the range has a room that the cast makes none. -/
def Fits (w : WordSize) (size offset n : Nat) : Prop :=
  ∀ p, offset ≤ p → p < offset + n → ¬ 2 ^ w.bits ∣ room size p

section Rooms

variable {w : WordSize} {size offset n : Nat}

theorem roomUsize_le (w : WordSize) (size pos : Nat) : roomUsize w size pos ≤ room size pos :=
  Nat.mod_le _ _

theorem roomUsize_eq_zero {pos : Nat} : roomUsize w size pos = 0 ↔ 2 ^ w.bits ∣ room size pos :=
  (Nat.dvd_iff_mod_eq_zero).symm

/-- A segment below the largest `usize` is measured right. -/
theorem roomUsize_of_lt (hsize : 0 < size) (h : size < 2 ^ w.bits) (pos : Nat) :
    roomUsize w size pos = room size pos := by
  apply Nat.mod_eq_of_lt
  unfold room
  omega

theorem fits_of_lt (hsize : 0 < size) (h : size < 2 ^ w.bits) (offset n : Nat) :
    Fits w size offset n := by
  intro p _ _ hdvd
  rw [← roomUsize_eq_zero, roomUsize_of_lt hsize h] at hdvd
  exact Nat.ne_of_gt (room_pos hsize p) hdvd

/-- Further on in a segment there is less room, byte for byte. -/
theorem room_add {pos j : Nat} (hj : j < room size pos) :
    room size (pos + j) = room size pos - j := by
  have hmod : (pos + j) % size = pos % size + j := by
    unfold room at hj
    rw [Nat.add_mod, Nat.mod_eq_of_lt (show j < size by omega), Nat.mod_eq_of_lt (by omega)]
  rw [room, hmod, room]
  omega

/-- A piece that a round moves has no position without room in it. -/
theorem not_dvd_inside {pos j : Nat} (hj : j < roomUsize w size pos) :
    ¬ 2 ^ w.bits ∣ room size (pos + j) := by
  have hle := roomUsize_le w size pos
  have hlt : roomUsize w size pos < 2 ^ w.bits := Nat.mod_lt _ (Nat.two_pow_pos _)
  have hsplit : room size pos - j =
      2 ^ w.bits * (room size pos / 2 ^ w.bits) + (roomUsize w size pos - j) := by
    have := Nat.div_add_mod (room size pos) (2 ^ w.bits)
    unfold roomUsize at hj ⊢
    omega
  rw [room_add (by omega), hsplit]
  intro hdvd
  have hrest := (Nat.dvd_add_right (Nat.dvd_mul_right _ _)).mp hdvd
  have := Nat.le_of_dvd (by omega) hrest
  omega

theorem Fits.rest (h : Fits w size offset n) {k : Nat} (hk : k ≤ n) :
    Fits w size (offset + k) (n - k) := by
  intro p hlo hhi
  exact h p (by omega) (by omega)

/-- A position without room stays ahead of what a round moves. -/
theorem not_fits_rest (h : ¬ Fits w size offset n) :
    ¬ Fits w size (offset + min n (roomUsize w size offset)) (n - min n (roomUsize w size offset)) := by
  intro hrest
  apply h
  intro p hlo hhi
  by_cases hin : p < offset + min n (roomUsize w size offset)
  · have hinside := @not_dvd_inside w size offset (p - offset) (by omega)
    rwa [Nat.add_sub_cancel' hlo] at hinside
  · exact hrest p (by omega) (by omega)

theorem pos_of_not_fits (h : ¬ Fits w size offset n) : 0 < n := by
  apply Nat.pos_of_ne_zero
  rintro rfl
  exact h fun p hlo hhi => by omega

end Rooms

/-! ## Rounds -/

section Loops

variable {w : WordSize} {size : Nat}

/-- Some number of rounds is enough: the loop returns, or fails. -/
def Ends {α : Type} (loop : Nat → Act SegmentedStore Fault (Option α)) (s : SegmentedStore) : Prop :=
  ∃ rounds, (loop rounds s).1 ≠ .ok none

/-- The chunks lie one after the other, hold the buffer, and stay in their segments. -/
structure Partition (size offset : Nat) (bytes : List UInt8) (cs : List Chunk) : Prop where
  tiles : Tiles offset (cs.map (Chunk.span size)) (offset + bytes.length)
  bytes_eq : cs.flatMap Chunk.bytes = bytes
  within : ∀ c ∈ cs, c.here + c.bytes.length ≤ size

theorem Partition.nil (size offset : Nat) : Partition size offset [] [] :=
  ⟨rfl, rfl, fun c hc => by cases hc⟩

theorem Partition.cons {offset take : Nat} {bytes : List UInt8} {cs : List Chunk}
    (hpos : 0 < take) (htake : take ≤ bytes.length) (hroom : take ≤ room size offset)
    (h : Partition size (offset + take) (bytes.drop take) cs) :
    Partition size offset bytes (⟨offset / size, offset % size, bytes.take take⟩ :: cs) := by
  have hlen : (bytes.take take).length = take := List.length_take_of_le htake
  have hspan : Chunk.span size ⟨offset / size, offset % size, bytes.take take⟩ =
      ⟨offset, offset + take⟩ := by
    simp only [Chunk.span, hlen, Nat.div_add_mod' offset size]
  refine ⟨?_, ?_, ?_⟩
  · rw [List.map_cons, hspan]
    refine ⟨rfl, show offset < offset + take by omega, ?_⟩
    have htiles := h.tiles
    rw [List.length_drop] at htiles
    rwa [show offset + bytes.length = offset + take + (bytes.length - take) by omega]
  · rw [List.flatMap_cons, h.bytes_eq, List.take_append_drop]
  · intro c hc
    rcases List.mem_cons.mp hc with rfl | hc
    · unfold room at hroom
      show offset % size + (bytes.take take).length ≤ size
      omega
    · exact h.within c hc

/-- Where every position has room, a round for each byte is enough. -/
theorem writeLoop_ends {rounds pos : Nat} {remaining : List UInt8} (hle : remaining.length ≤ rounds)
    (hlt : pos + remaining.length < 2 ^ 64) (h : Fits w size pos remaining.length)
    (s : SegmentedStore) : (writeLoop w size rounds pos remaining s).1 ≠ .ok none := by
  induction rounds generalizing pos remaining s with
  | zero =>
      have hnil : remaining = [] := List.length_eq_zero_iff.mp (Nat.le_zero.mp hle)
      subst hnil
      exact fun hc => by cases hc
  | succ rounds ih =>
      by_cases hnil : remaining = []
      · rw [writeLoop, if_pos hnil]
        exact fun hc => by cases hc
      · have hpos := List.length_pos_of_ne_nil hnil
        have hroom : roomUsize w size pos ≠ 0 := by
          rw [ne_eq, roomUsize_eq_zero]
          exact h pos (Nat.le_refl _) (by omega)
        have hrest := h.rest (Nat.min_le_left remaining.length (roomUsize w size pos))
        rw [writeLoop, if_neg hnil]
        intro hc
        obtain ⟨_, s1, -, hc⟩ := Act.bind_eq_ok (Prod.ext hc rfl)
        obtain ⟨_, s2, -, hc⟩ := Act.bind_eq_ok hc
        rw [Act.bind_ok (addChecked_ok (by omega) s2)] at hc
        obtain ⟨rest, s3, hloop, hc⟩ := Act.bind_eq_ok hc
        have hnone : rest = none := by
          cases rest with
          | none => rfl
          | some cs => cases hc
        rw [← List.length_drop] at hrest
        refine ih ?_ ?_ hrest s2 (by rw [hloop, hnone])
        · rw [List.length_drop]
          omega
        · rw [List.length_drop]
          omega

/-- A loop that returns has cut the buffer into chunks. -/
theorem writeLoop_partition {rounds pos : Nat} {remaining : List UInt8} {cs : List Chunk}
    {s s' : SegmentedStore} (hlt : pos + remaining.length < 2 ^ 64)
    (hfits : Fits w size pos remaining.length)
    (h : writeLoop w size rounds pos remaining s = (.ok (some cs), s')) :
    Partition size pos remaining cs := by
  induction rounds generalizing pos remaining cs s with
  | zero =>
      by_cases hnil : remaining = []
      · subst hnil
        cases h
        exact Partition.nil size pos
      · rw [writeLoop, if_neg hnil] at h
        cases h
  | succ rounds ih =>
      rw [writeLoop] at h
      by_cases hnil : remaining = []
      · rw [if_pos hnil] at h
        subst hnil
        cases h
        exact Partition.nil size pos
      · have hpos := List.length_pos_of_ne_nil hnil
        have hroom : roomUsize w size pos ≠ 0 := by
          rw [ne_eq, roomUsize_eq_zero]
          exact hfits pos (Nat.le_refl _) (by omega)
        have hle := roomUsize_le w size pos
        have hrest := hfits.rest (Nat.min_le_left remaining.length (roomUsize w size pos))
        rw [if_neg hnil] at h
        obtain ⟨_, s1, -, h⟩ := Act.bind_eq_ok h
        obtain ⟨_, s2, -, h⟩ := Act.bind_eq_ok h
        rw [Act.bind_ok (addChecked_ok (by omega) s2)] at h
        obtain ⟨rest, s3, hloop, h⟩ := Act.bind_eq_ok h
        cases rest with
        | none => cases h
        | some ds =>
            cases h
            refine Partition.cons (by omega) (by omega) (by omega) (ih ?_ ?_ hloop)
            · rw [List.length_drop]
              omega
            · rw [List.length_drop]
              exact hrest

theorem writeChunk_ok {s : SegmentedStore} (h : Ready s) (index here : Nat) (bytes : List UInt8) :
    ∃ s', writeChunk index here bytes s = (.ok (), s') ∧ Ready s' := by
  unfold writeChunk
  by_cases hnil : bytes = []
  · rw [if_pos hnil]
    exact ⟨s, rfl, h⟩
  · rw [if_neg hnil, Act.bind_ok (os_ok h.faults_eq _)]
    exact ⟨_, rfl, (modifySegment_ok h index (·.pwriteAll here bytes)).1⟩

/-- Where a position has no room, no number of rounds is enough, though no call fails. -/
theorem writeLoop_stuck (rounds : Nat) {pos : Nat} {remaining : List UInt8}
    (hlt : pos + remaining.length < 2 ^ 64) (h : ¬ Fits w size pos remaining.length)
    {s : SegmentedStore} (hs : Ready s) :
    ∃ s', writeLoop w size rounds pos remaining s = (.ok none, s') := by
  induction rounds generalizing pos remaining s with
  | zero =>
      have hnil : remaining ≠ [] := List.length_pos_iff.mp (pos_of_not_fits h)
      rw [writeLoop, if_neg hnil]
      exact ⟨s, rfl⟩
  | succ rounds ih =>
      have hnil : remaining ≠ [] := List.length_pos_iff.mp (pos_of_not_fits h)
      obtain ⟨s1, hopen, hs1, -⟩ := segmentForWrite_ok hs (pos / size)
      obtain ⟨s2, hwrite, hs2⟩ := writeChunk_ok hs1 (pos / size) (pos % size)
        (remaining.take (min remaining.length (roomUsize w size pos)))
      obtain ⟨s3, hloop⟩ := @ih (pos + min remaining.length (roomUsize w size pos))
        (remaining.drop (min remaining.length (roomUsize w size pos)))
        (by rw [List.length_drop]; omega) (by rw [List.length_drop]; exact not_fits_rest h) s2 hs2
      refine ⟨s3, ?_⟩
      rw [writeLoop, if_neg hnil, Act.bind_ok hopen, Act.bind_ok hwrite,
        Act.bind_ok (addChecked_ok (by omega) s2), Act.bind_ok hloop]
      rfl

theorem readChunk_length {index here want : Nat} {got : List UInt8} {s s' : SegmentedStore}
    (h : readChunk index here want s = (.ok got, s')) : got.length ≤ want := by
  unfold readChunk at h
  split at h
  · cases h
    exact Nat.zero_le _
  · obtain ⟨_, s1, -, h⟩ := Act.bind_eq_ok h
    cases h
    exact List.length_take_le _ _

theorem readChunk_full {index here want : Nat} {file : File} {s : SegmentedStore} (h : Ready s)
    (hfile : s.dir.segments.lookup index = some file) (hlen : here + want ≤ file.written.length) :
    ∃ got, readChunk index here want s = (.ok got, s) ∧ got.length = want := by
  unfold readChunk
  by_cases hzero : want = 0
  · rw [if_pos hzero]
    exact ⟨[], rfl, hzero.symm⟩
  · rw [if_neg hzero, Act.bind_ok (os_ok h.faults_eq _), Act.get_bind, hfile]
    refine ⟨_, rfl, ?_⟩
    simp only [Option.getD_some, File.preadFill, List.length_take, List.length_drop]
    omega

theorem readLoop_ends {rounds pos n : Nat} (hle : n ≤ rounds) (hlt : pos + n < 2 ^ 64)
    (h : Fits w size pos n) (s : SegmentedStore) :
    (readLoop w size rounds pos n s).1 ≠ .ok none := by
  induction rounds generalizing pos n s with
  | zero =>
      have hzero : n = 0 := Nat.le_zero.mp hle
      subst hzero
      exact fun hc => by cases hc
  | succ rounds ih =>
      by_cases hzero : n = 0
      · rw [readLoop, if_pos hzero]
        exact fun hc => by cases hc
      · have hroom : roomUsize w size pos ≠ 0 := by
          rw [ne_eq, roomUsize_eq_zero]
          exact h pos (Nat.le_refl _) (by omega)
        have hrest := h.rest (Nat.min_le_left n (roomUsize w size pos))
        rw [readLoop, if_neg hzero]
        intro hc
        obtain ⟨found, s1, -, hc⟩ := Act.bind_eq_ok (Prod.ext hc rfl)
        cases found with
        | false => cases hc
        | true =>
            obtain ⟨got, s2, hread, hc⟩ := Act.bind_eq_ok hc
            obtain ⟨next, s3, hnext, hc⟩ := Act.bind_eq_ok hc
            by_cases hshort : got.length < min n (roomUsize w size pos)
            · rw [if_pos hshort] at hc
              cases hc
            · have hgot : got.length = min n (roomUsize w size pos) := by
                have := readChunk_length hread
                omega
              rw [addChecked_ok (by omega) s2] at hnext
              cases hnext
              rw [if_neg hshort, hgot] at hc
              obtain ⟨rest, s4, hloop, hc⟩ := Act.bind_eq_ok hc
              have hnone : rest = none := by
                cases rest with
                | none => rfl
                | some bs => cases hc
              refine ih (by omega) (by omega) hrest s2 ?_
              rw [hloop, hnone]

/-- The files of the segments from `lo` to `hi` are there, and full. -/
def Full (size lo hi : Nat) (s : SegmentedStore) : Prop :=
  ∀ i, lo ≤ i → i ≤ hi → ∃ file, s.seg i = some file ∧ size ≤ file.written.length

theorem readLoop_stuck (rounds : Nat) {pos n : Nat} (hsize : 0 < size) (hlt : pos + n < 2 ^ 64)
    (h : ¬ Fits w size pos n) {s0 s : SegmentedStore} (hs : SameFiles s0 s)
    (hfull : Full size (pos / size) ((pos + n) / size) s0) :
    ∃ s', readLoop w size rounds pos n s = (.ok none, s') := by
  induction rounds generalizing pos n s with
  | zero =>
      have hpos := pos_of_not_fits h
      rw [readLoop, if_neg (by omega)]
      exact ⟨s, rfl⟩
  | succ rounds ih =>
      have hpos := pos_of_not_fits h
      have hle := roomUsize_le w size pos
      have hmod := Nat.mod_lt pos hsize
      obtain ⟨file, hfile, hlen⟩ := hfull (pos / size) (Nat.le_refl _)
        (Nat.div_le_div_right (by omega))
      obtain ⟨s1, hopen, hs1⟩ := segmentForRead_ok hs.toReady (pos / size)
      rw [hs.seg_eq, hfile] at hopen
      have hs1 := hs.trans hs1
      have hfile1 : s1.dir.segments.lookup (pos / size) = some file :=
        (hs1.seg_eq _).trans hfile
      generalize hwant : min n (roomUsize w size pos) = want
      obtain ⟨got, hread, hgot⟩ := readChunk_full hs1.toReady hfile1
        (show pos % size + want ≤ file.written.length by unfold room at hle; omega)
      have hrest := not_fits_rest h
      rw [hwant] at hrest
      obtain ⟨s2, hloop⟩ := ih (by omega) hrest hs1 fun i hlo hhi =>
        hfull i (Nat.le_trans (Nat.div_le_div_right (by omega)) hlo)
          (Nat.le_trans hhi (Nat.div_le_div_right (by omega)))
      refine ⟨s2, ?_⟩
      rw [readLoop, if_neg (by omega), Act.bind_ok hopen]
      simp only [hwant, Option.isSome_some]
      rw [Act.bind_ok hread, hgot, Act.bind_ok (addChecked_ok (by omega) s1), if_neg (by omega),
        Act.bind_ok hloop]
      rfl

end Loops

/-! ## The loops that end -/

section Agree

variable {w : WordSize} {size : Nat}

/-- A segment below the largest `usize` is written as `writeChunks` writes it. -/
theorem writeChunks_eq_writeLoop (hsize : 0 < size) (h : size < 2 ^ w.bits) {rounds pos : Nat}
    {remaining : List UInt8} (hle : remaining.length ≤ rounds) (s : SegmentedStore) :
    writeChunks ⟨size, hsize⟩ pos remaining s =
      ((writeLoop w size rounds pos remaining s).1.map fun _ => (),
        (writeLoop w size rounds pos remaining s).2) := by
  induction rounds generalizing pos remaining s with
  | zero =>
      have hnil : remaining = [] := List.length_eq_zero_iff.mp (Nat.le_zero.mp hle)
      rw [writeChunks, dif_pos hnil, hnil]
      rfl
  | succ rounds ih =>
      by_cases hnil : remaining = []
      · rw [writeChunks, dif_pos hnil, writeLoop, if_pos hnil]
        rfl
      · have hpos := List.length_pos_of_ne_nil hnil
        have hroom := room_pos hsize pos
        have htake : remaining.take (min remaining.length (room size pos)) ≠ [] := by
          rw [ne_eq, List.take_eq_nil_iff]
          rintro (hzero | hempty)
          · omega
          · exact hnil hempty
        rw [writeChunks, dif_neg hnil, writeLoop, if_neg hnil, roomUsize_of_lt hsize h]
        dsimp only
        rcases hopen : segmentForWrite (pos / size) s with ⟨_ | _, s1⟩
        · rw [Act.bind_error hopen, Act.bind_error hopen]
          rfl
        · rw [Act.bind_ok hopen, Act.bind_ok hopen, writeChunk, if_neg htake]
          rcases hos : os "writing a record" s1 with ⟨_ | _, s2⟩
          · rw [Act.bind_error hos, Act.bind_error (Act.bind_error hos _)]
            rfl
          · have hdone := (Act.bind_ok hos fun _ => onDir (Act.modify fun d =>
              d.modifySegment (pos / size) (·.pwriteAll (pos % size)
                (remaining.take (min remaining.length (room size pos)))))).trans
                (onDir_modify _ s2)
            rw [Act.bind_ok hos, Act.bind_ok (onDir_modify _ s2), Act.bind_ok hdone]
            unfold addChecked
            by_cases hend : pos + min remaining.length (room size pos) < 2 ^ 64
            · simp only [if_pos hend, Act.pure_bind]
              rw [ih (by rw [List.length_drop]; omega)]
              rcases hloop : writeLoop w size rounds (pos + min remaining.length (room size pos))
                (remaining.drop (min remaining.length (room size pos))) _ with ⟨_ | _, s3⟩
              · rw [Act.bind_error hloop]
              · rw [Act.bind_ok hloop]
                rfl
            · simp only [if_neg hend]
              rfl

/-- And read as `readChunks` reads it. -/
theorem readLoop_eq_readChunks (hsize : 0 < size) (h : size < 2 ^ w.bits) {rounds pos n : Nat}
    (hle : n ≤ rounds) (s : SegmentedStore) :
    readLoop w size rounds pos n s =
      ((readChunks ⟨size, hsize⟩ pos n s).1.map some, (readChunks ⟨size, hsize⟩ pos n s).2) := by
  induction rounds generalizing pos n s with
  | zero =>
      have hzero : n = 0 := Nat.le_zero.mp hle
      subst hzero
      rw [readChunks, dif_pos rfl]
      rfl
  | succ rounds ih =>
      by_cases hzero : n = 0
      · rw [readChunks, dif_pos hzero, readLoop, if_pos hzero]
        rfl
      · have hroom := room_pos hsize pos
        rw [readChunks, dif_neg hzero, readLoop, if_neg hzero, roomUsize_of_lt hsize h]
        dsimp only
        rcases hopen : segmentForRead (pos / size) s with ⟨_ | found, s1⟩
        · rw [Act.bind_error hopen, Act.bind_error hopen]
          rfl
        · rw [Act.bind_ok hopen, Act.bind_ok hopen]
          cases found with
          | false => rfl
          | true =>
              dsimp only
              rw [readChunk, if_neg (by omega)]
              rcases hos : os "reading from the log" s1 with ⟨_ | _, s2⟩
              · rw [Act.bind_error hos, Act.bind_error (Act.bind_error hos _)]
                rfl
              · have hdone := Act.bind_ok hos fun _ => Act.get >>= fun s =>
                  pure (((s.dir.segments.lookup (pos / size)).getD File.empty).preadFill
                    (pos % size) (min n (room size pos)))
                rw [Act.get_bind] at hdone
                rw [Act.bind_ok hos, Act.get_bind, Act.bind_ok hdone]
                generalize hgot : ((s2.dir.segments.lookup (pos / size)).getD File.empty).preadFill
                  (pos % size) (min n (room size pos)) = got
                have hlen : got.length ≤ min n (room size pos) := by
                  rw [← hgot]
                  exact List.length_take_le _ _
                unfold addChecked
                by_cases hend : pos + got.length < 2 ^ 64
                swap
                · simp only [if_neg hend]
                  rfl
                simp only [if_pos hend, Act.pure_bind]
                by_cases hshort : got.length < min n (room size pos)
                · rw [if_pos hshort, if_pos hshort]
                  rfl
                · rw [if_neg hshort, if_neg hshort,
                    show got.length = min n (room size pos) by omega]
                  have hloop := @ih (pos + min n (room size pos)) (n - min n (room size pos))
                    (by omega) s2
                  rcases hrest : readChunks ⟨size, hsize⟩ (pos + min n (room size pos))
                    (n - min n (room size pos)) s2 with ⟨_ | bs, s3⟩
                  · rw [hrest] at hloop
                    rw [Act.bind_error hloop, Act.bind_error hrest]
                    rfl
                  · rw [hrest] at hloop
                    rw [Act.bind_ok hloop, Act.bind_ok hrest]
                    rfl

end Agree

/-! ## Progress -/

/-- `write_at` ends on every store, and has then handed out a partition of its buffer. -/
def WritesRight (w : WordSize) (size offset : Nat) (bytes : List UInt8) : Prop :=
  ∀ s : SegmentedStore, s.segmentSize = size →
    Ends (fun rounds => writeLoop w size rounds offset bytes) s ∧
    ∀ rounds cs s', writeLoop w size rounds offset bytes s = (.ok (some cs), s') →
      Partition size offset bytes cs

/-- `read_at` ends on every store. -/
def ReadsRight (w : WordSize) (size offset n : Nat) : Prop :=
  ∀ s : SegmentedStore, s.segmentSize = size → Ends (fun rounds => readLoop w size rounds offset n) s

/-- A directory of full segments. -/
def Dir.filled (size k : Nat) : Dir where
  segments := ⟨(List.range k).map fun i => ⟨i, ⟨List.replicate size 0, []⟩⟩, by
    simp only [List.NodupKeys, List.keys, List.map_map]
    exact List.nodup_range.map fun _ _ h => h⟩
  headFile := none
  headTmpFile := none
  faults := []

/-- A store over it. -/
def filled {size : Nat} (hsize : 0 < size) (k : Nat) : SegmentedStore where
  dir := Dir.filled size k
  segmentSize := size
  handles := []
  maxWritten := k * size
  syncedFrom := k
  head := 0
  dirDirty := true
  parentDirty := false
  segmentSize_pos := hsize

theorem filled_ready {size : Nat} (hsize : 0 < size) (k : Nat) : Ready (filled hsize k) :=
  ⟨rfl, fun i hi => by cases hi⟩

theorem filled_full {size : Nat} (hsize : 0 < size) {k lo hi : Nat} (h : hi < k) :
    Full size lo hi (filled hsize k) := by
  intro i _ hi
  refine ⟨⟨List.replicate size 0, []⟩, ?_, by simp⟩
  apply AList.mem_lookup_iff.mpr
  exact List.mem_map.mpr ⟨i, List.mem_range.mpr (by omega), rfl⟩

/-- The loops of `write_at` and `read_at` do what they should exactly where no position of
the range is a multiple of the word's size away from the end of its segment.  That is
everywhere, if a segment's size fits the word. -/
theorem segment_loops_progress_iff (w : WordSize) (size offset : Nat) (bytes : List UInt8)
    (hsize : 0 < size) (hlt : offset + bytes.length < 2 ^ 64) :
    (WritesRight w size offset bytes ↔ Fits w size offset bytes.length) ∧
    (ReadsRight w size offset bytes.length ↔ Fits w size offset bytes.length) ∧
    (size < 2 ^ w.bits → Fits w size offset bytes.length) := by
  refine ⟨⟨fun h => ?_, fun h s _ => ⟨?_, ?_⟩⟩, ⟨fun h => ?_, fun h s _ => ?_⟩, fun h => ?_⟩
  · by_contra hstuck
    obtain ⟨rounds, hend⟩ := (h (filled hsize 0) rfl).1
    obtain ⟨s', hrun⟩ := writeLoop_stuck rounds hlt hstuck (filled_ready hsize 0)
    exact hend (congrArg Prod.fst hrun)
  · exact ⟨bytes.length, writeLoop_ends (Nat.le_refl _) hlt h s⟩
  · intro rounds cs s' hrun
    exact writeLoop_partition hlt h hrun
  · by_contra hstuck
    obtain ⟨rounds, hend⟩ := h (filled hsize ((offset + bytes.length) / size + 1)) rfl
    obtain ⟨s', hrun⟩ := readLoop_stuck rounds hsize hlt hstuck
      (SameFiles.refl (filled_ready hsize _)) (filled_full hsize (Nat.lt_succ_self _))
    exact hend (congrArg Prod.fst hrun)
  · exact ⟨bytes.length, readLoop_ends (Nat.le_refl _) hlt h s⟩
  · exact fits_of_lt hsize h _ _

/-- A record written on a 32-bit machine across segments of a mebibyte. -/
theorem segment_loops_progress_mebibyte :
    WritesRight .w32 (2 ^ 20) (2 ^ 20 - 4) (List.replicate 8 7) ∧
    ReadsRight .w32 (2 ^ 20) (2 ^ 20 - 4) (List.replicate 8 (7 : UInt8)).length := by
  obtain ⟨hwrite, hread, hfits⟩ := segment_loops_progress_iff .w32 (2 ^ 20) (2 ^ 20 - 4)
    (List.replicate 8 7) (by decide) (by decide)
  have h := hfits (by decide)
  exact ⟨hwrite.mpr h, hread.mpr h⟩

/-- On a 32-bit machine with segments of `2 ^ 32` bytes, writing one byte at the start of the
log never ends, and neither does reading it back, though no system call fails. -/
theorem segment_loops_never_end :
    ∃ s : SegmentedStore, s.segmentSize = 2 ^ 32 ∧ s.dir.faults = [] ∧
      (∀ rounds, (writeLoop .w32 (2 ^ 32) rounds 0 [7] s).1 = .ok none) ∧
      (∀ rounds, (readLoop .w32 (2 ^ 32) rounds 0 1 s).1 = .ok none) ∧
      ¬ WritesRight .w32 (2 ^ 32) 0 [7] ∧ ¬ ReadsRight .w32 (2 ^ 32) 0 1 := by
  have hsize : 0 < 2 ^ 32 := by decide
  have hstuck : ¬ Fits .w32 (2 ^ 32) 0 1 := fun h =>
    h 0 (Nat.le_refl _) (by decide) (by decide)
  have hwrite : ∀ rounds, (writeLoop .w32 (2 ^ 32) rounds 0 [7] (filled hsize 1)).1 = .ok none := by
    intro rounds
    obtain ⟨s', hrun⟩ := @writeLoop_stuck .w32 (2 ^ 32) rounds 0 [7] (by decide) hstuck _
      (filled_ready hsize 1)
    rw [hrun]
  have hread : ∀ rounds, (readLoop .w32 (2 ^ 32) rounds 0 1 (filled hsize 1)).1 = .ok none := by
    intro rounds
    obtain ⟨s', hrun⟩ := readLoop_stuck rounds hsize (by decide) hstuck
      (SameFiles.refl (filled_ready hsize 1)) (filled_full hsize (by decide))
    rw [hrun]
  refine ⟨filled hsize 1, rfl, rfl, hwrite, hread, fun h => ?_, fun h => ?_⟩
  · obtain ⟨rounds, hend⟩ := (h (filled hsize 1) rfl).1
    exact hend (hwrite rounds)
  · obtain ⟨rounds, hend⟩ := h (filled hsize 1) rfl
    exact hend (hread rounds)

end SegmentedStore

end WalDb
