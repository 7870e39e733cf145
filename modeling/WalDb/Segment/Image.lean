/-
The flat space that the segments hold.

`image` reads the byte at an offset out of the segment it falls into.  The store's
`read_at` returns what the image holds, so the open scan, the iterator and the
truncation check see the flat space and not the files.  Only offsets below the last
one count: no record can end past `u64::MAX`.
-/
import WalDb.Decode
import WalDb.Segment.Spec

namespace WalDb
namespace SegmentedStore

open Lib

/-- The byte at each offset. -/
def image (s : SegmentedStore) : Image UInt8 := fun o =>
  if o < 2 ^ 64 - 1 then (s.seg (o / s.segmentSize)).bind (·.written[o % s.segmentSize]?) else none

/-- The bytes that lie in a segment are those of its file. -/
theorem image_eq_of_seg {s s' : SegmentedStore} (hsize : s'.segmentSize = s.segmentSize) {o : Nat}
    (h : s'.seg (o / s.segmentSize) = s.seg (o / s.segmentSize)) : s'.image o = s.image o := by
  rw [image, image, hsize, h]

/-- Files that hold the same bytes make the same image, and an empty file is as good as none. -/
theorem image_eq_of_written {s s' : SegmentedStore} (hsize : s'.segmentSize = s.segmentSize)
    (h : ∀ i, (s'.seg i).elim [] File.written = (s.seg i).elim [] File.written) :
    s'.image = s.image := by
  have hbind : ∀ (file : Option File) (k : Nat),
      file.bind (·.written[k]?) = (file.elim [] File.written)[k]? := by
    intro file k
    cases file <;> rfl
  funext o
  rw [image, image, hsize, hbind, hbind, h]

/-- A later state of the store that holds the same files, with more of them open. -/
structure SameFiles (s s' : SegmentedStore) : Prop extends Ready s', Frame s s' where
  seg_eq : ∀ i, s'.seg i = s.seg i
  handles_ge : ∀ i ∈ s.handles, i ∈ s'.handles

theorem SameFiles.refl {s : SegmentedStore} (h : Ready s) : SameFiles s s :=
  ⟨h, Frame.refl s, fun _ => rfl, fun _ hi => hi⟩

theorem SameFiles.trans {s s' s'' : SegmentedStore} (h : SameFiles s s') (h' : SameFiles s' s'') :
    SameFiles s s'' :=
  ⟨h'.toReady, h.toFrame.trans h'.toFrame, fun i => (h'.seg_eq i).trans (h.seg_eq i),
    fun i hi => h'.handles_ge i (h.handles_ge i hi)⟩

theorem SameFiles.image_eq {s s' : SegmentedStore} (h : SameFiles s s') : s'.image = s.image := by
  funext o
  exact image_eq_of_seg h.segmentSize_eq (h.seg_eq _)

/-- Where there is a byte there is a segment. -/
theorem seg_of_image {s : SegmentedStore} {o : Nat} {b : UInt8} (h : s.image o = some b) :
    (s.seg (o / s.segmentSize)).isSome = true := by
  rw [image] at h
  split at h
  · obtain ⟨file, hfile, -⟩ := Option.bind_eq_some_iff.mp h
    rw [hfile]
    rfl
  · cases h

/-- The byte `j` places after `off`, within the same segment. -/
theorem image_add {s : SegmentedStore} {off j : Nat}
    (hj : off % s.segmentSize + j < s.segmentSize) (hlt : off + j < 2 ^ 64 - 1) :
    s.image (off + j) =
      (s.seg (off / s.segmentSize)).bind (·.written[off % s.segmentSize + j]?) := by
  have hsplit : off + j =
      s.segmentSize * (off / s.segmentSize) + (off % s.segmentSize + j) := by
    have := Nat.div_add_mod off s.segmentSize
    omega
  have hdiv : (off + j) / s.segmentSize = off / s.segmentSize := by
    rw [hsplit, Nat.mul_add_div s.segmentSize_pos, Nat.div_eq_of_lt hj, Nat.add_zero]
  have hmod : (off + j) % s.segmentSize = off % s.segmentSize + j := by
    rw [hsplit, Nat.mul_add_mod, Nat.mod_eq_of_lt hj]
  rw [image, if_pos hlt, hdiv, hmod]

/-! ## Reading -/

theorem segmentForRead_ok {s : SegmentedStore} (h : Ready s) (index : Nat) :
    ∃ s', segmentForRead index s = (.ok (s.seg index).isSome, s') ∧ SameFiles s s' := by
  unfold segmentForRead
  rw [Act.get_bind]
  by_cases hmem : index ∈ s.handles
  · exact ⟨s, by rw [if_pos hmem, h.handles_ok index hmem]; rfl, SameFiles.refl h⟩
  · rw [if_neg hmem, Act.bind_ok (os_ok h.faults_eq _)]
    cases hs : s.dir.segments.lookup index with
    | none => exact ⟨s, by rw [show s.seg index = none from hs]; rfl, SameFiles.refl h⟩
    | some file =>
        have hseg : s.seg index = some file := hs
        refine ⟨{ s with handles := index :: s.handles }, by rw [hseg]; rfl,
          ⟨h.faults_eq, fun i hi => ?_⟩, ⟨rfl, rfl, rfl, rfl, rfl⟩, fun _ => rfl,
          fun _ hi => List.mem_cons_of_mem _ hi⟩
        rcases List.mem_cons.mp hi with rfl | hi
        · show (s.seg i).isSome = true
          rw [hseg]
          rfl
        · exact h.handles_ok i hi

/-- The byte `j` places after `off` is missing where its file does not reach. -/
theorem image_short {s : SegmentedStore} {off j : Nat} (hj : off % s.segmentSize + j < s.segmentSize)
    (h : (s.seg (off / s.segmentSize)).bind (·.written[off % s.segmentSize + j]?) = none) :
    s.image (off + j) = none := by
  by_cases hlt : off + j < 2 ^ 64 - 1
  · rw [image_add hj hlt, h]
  · rw [image, if_neg hlt]

/-- The bytes of a chunk that lies in one segment. -/
theorem read_chunk {s : SegmentedStore} {off want : Nat} {file : File}
    (hseg : s.seg (off / s.segmentSize) = some file) (hwant : want ≤ room s.segmentSize off) :
    let got := file.preadFill (off % s.segmentSize) want
    (got.length < want → s.image (off + got.length) = none) ∧
      (off + got.length < 2 ^ 64 → ¬ got.length < want → s.image.read off want = some got) := by
  intro got
  have hlen : got.length = min want (file.written.length - off % s.segmentSize) := by
    show ((file.written.drop (off % s.segmentSize)).take want).length = _
    rw [List.length_take, List.length_drop]
  have hmod := Nat.mod_lt off s.segmentSize_pos
  unfold room at hwant
  constructor
  · intro hshort
    refine image_short (by omega) ?_
    rw [hseg]
    exact List.getElem?_eq_none (by omega)
  · intro hlt hfull
    refine Image.read_eq_some_iff.mpr ⟨by omega, fun i hi => ?_⟩
    rw [image_add (by omega) (by omega), hseg]
    show file.written[off % s.segmentSize + i]? =
      ((file.written.drop (off % s.segmentSize)).take want)[i]?
    rw [List.getElem?_take_of_lt hi, List.getElem?_drop]

/-- What a read of `n` bytes at `off` returns: the range of the image, or less if a
byte of it is missing. -/
def Yields (s : SegmentedStore) (off n : Nat) (bs : List UInt8) : Prop :=
  bs.length < n ∧ s.image.read off n = none ∨ s.image.read off n = some bs

/-- A missing byte leaves the whole range unread. -/
theorem read_none_of_missing {img : Image UInt8} {off n j : Nat} (hj : j < n)
    (h : img (off + j) = none) : img.read off n = none :=
  Image.read_eq_none_iff.mpr ⟨j, hj, h⟩

theorem Yields.append {s : SegmentedStore} {off k n : Nat} {got rest : List UInt8}
    (h : s.Yields (off + k) (n - k) rest) (hgot : s.image.read off k = some got) (hk : k ≤ n) :
    s.Yields off n (got ++ rest) := by
  have hlen := Image.read_length hgot
  rcases h with ⟨hshort, hnone⟩ | hrest
  · refine Or.inl ⟨by rw [List.length_append]; omega, ?_⟩
    obtain ⟨i, hi, hbyte⟩ := Image.read_eq_none_iff.mp hnone
    rw [Nat.add_assoc] at hbyte
    exact read_none_of_missing (by omega) hbyte
  · refine Or.inr ?_
    have := (Image.read_append_iff hlen (Image.read_length hrest)).mpr ⟨hgot, hrest⟩
    rwa [Nat.add_sub_cancel' hk] at this

/-- What a segment file holds of its segment ends below the last offset. -/
def FilesFit (s : SegmentedStore) : Prop :=
  ∀ i file, s.seg i = some file → i * s.segmentSize + min s.segmentSize file.written.length < 2 ^ 64

/-- A read whose position cannot leave the offsets: its range ends below the last one, or
every file does. -/
def InRange (s : SegmentedStore) (off n : Nat) : Prop :=
  n = 0 ∨ off + n < 2 ^ 64 ∨ off < 2 ^ 64 ∧ s.FilesFit

/-- No chunk of such a read ends past the last offset. -/
theorem InRange.chunk {s : SegmentedStore} {off n : Nat} (h : s.InRange off n) {file : File}
    (hseg : s.seg (off / s.segmentSize) = some file) :
    n = 0 ∨ off + (file.preadFill (off % s.segmentSize) (min n (room s.segmentSize off))).length <
      2 ^ 64 := by
  have hlen : (file.preadFill (off % s.segmentSize) (min n (room s.segmentSize off))).length =
      min (min n (room s.segmentSize off)) (file.written.length - off % s.segmentSize) := by
    show ((file.written.drop _).take _).length = _
    rw [List.length_take, List.length_drop]
  rw [hlen]
  rcases h with hzero | hlt | ⟨hoff, hfits⟩
  · exact Or.inl hzero
  · exact Or.inr (by omega)
  · have hfile := hfits _ _ hseg
    have hmod := Nat.mod_lt off s.segmentSize_pos
    have hsplit := Nat.div_add_mod' off s.segmentSize
    unfold room
    exact Or.inr (by omega)

/-- Behind a chunk that ends below the last offset the rest is in range if the whole is. -/
theorem InRange.rest {s : SegmentedStore} {off n k : Nat} (h : s.InRange off n) (hk : k ≤ n)
    (hlt : off + k < 2 ^ 64) : s.InRange (off + k) (n - k) := by
  rcases h with hzero | hend | ⟨-, hfits⟩
  · exact Or.inl (by omega)
  · exact Or.inr (Or.inl (by omega))
  · exact Or.inr (Or.inr ⟨hlt, hfits⟩)

/-- One round of the loop: the read ends at a segment that is missing or short, and else
goes on behind what it got.  Its position may leave the offsets. -/
theorem readChunks_round {s0 s : SegmentedStore} (h : SameFiles s0 s) (off : Nat) {n : Nat}
    (hn : n ≠ 0) :
    ∃ s1, SameFiles s0 s1 ∧ readChunks ⟨s0.segmentSize, s0.segmentSize_pos⟩ off n s =
      match s0.seg (off / s0.segmentSize) with
      | none => (.ok [], s1)
      | some file =>
          let want := min n (room s0.segmentSize off)
          let got := file.preadFill (off % s0.segmentSize) want
          (addChecked off got.length >>= fun next =>
            if got.length < want then pure got
            else readChunks ⟨s0.segmentSize, s0.segmentSize_pos⟩ next (n - want) >>=
              fun rest => pure (got ++ rest)) s1 := by
  obtain ⟨s1, hopen, hs1⟩ := segmentForRead_ok h.toReady (off / s0.segmentSize)
  rw [h.seg_eq] at hopen
  have hs1 := h.trans hs1
  refine ⟨s1, hs1, ?_⟩
  rw [readChunks, dif_neg hn]
  simp only
  rw [Act.bind_ok hopen]
  cases hseg : s0.seg (off / s0.segmentSize) with
  | none => rfl
  | some file =>
      have hfile : s1.dir.segments.lookup (off / s0.segmentSize) = some file :=
        (hs1.seg_eq _).trans hseg
      simp only [Option.isSome_some]
      rw [Act.bind_ok (os_ok hs1.faults_eq _), Act.get_bind, hfile, Option.getD_some]

theorem readChunks_ends {s0 : SegmentedStore} (off n : Nat) {s : SegmentedStore}
    (h : SameFiles s0 s) :
    (readChunks ⟨s0.segmentSize, s0.segmentSize_pos⟩ off n).Ends s
      (fun bs s' => SameFiles s0 s' ∧ s0.Yields off n bs)
      fun _ s' => SameFiles s0 s' ∧ ¬ s0.InRange off n := by
  induction n using Nat.strongRecOn generalizing off s with
  | ind n ih =>
      by_cases hzero : n = 0
      · subst hzero
        exact Act.ends_of_ok (by rw [readChunks, dif_pos rfl]; rfl) ⟨h, Or.inr rfl⟩
      obtain ⟨s1, hs1, hrun⟩ := readChunks_round h off hzero
      rw [Act.Ends, hrun]
      cases hseg : s0.seg (off / s0.segmentSize) with
      | none =>
          have hmod := Nat.mod_lt off s0.segmentSize_pos
          exact ⟨hs1, Or.inl ⟨Nat.pos_of_ne_zero hzero, read_none_of_missing
            (Nat.pos_of_ne_zero hzero) (image_short hmod (by rw [hseg]; rfl))⟩⟩
      | some file =>
          have hchunk := read_chunk hseg (Nat.min_le_right n (room s0.segmentSize off))
          have hfits := fun h : s0.InRange off n => (h.chunk hseg).resolve_left hzero
          have hle : (file.preadFill (off % s0.segmentSize) (min n (room s0.segmentSize off))).length ≤
              min n (room s0.segmentSize off) := List.length_take_le _ _
          have hroom := room_pos s0.segmentSize_pos off
          dsimp only
          generalize file.preadFill (off % s0.segmentSize) (min n (room s0.segmentSize off)) = got
            at hchunk hfits hle ⊢
          show (addChecked off got.length >>= _).Ends s1 _ _
          by_cases hlt : off + got.length < 2 ^ 64
          · rw [addChecked, if_pos hlt, Act.pure_bind]
            by_cases hshort : got.length < min n (room s0.segmentSize off)
            · rw [if_pos hshort]
              exact Act.ends_pure ⟨hs1, Or.inl ⟨by omega,
                read_none_of_missing (by omega) (hchunk.1 hshort)⟩⟩
            · rw [if_neg hshort, show off + got.length = off + min n (room s0.segmentSize off) by omega]
              refine ((ih _ (by omega) _ hs1).mono (fun _ _ h => h) fun _ _ h => ⟨h.1, fun hin =>
                h.2 (hin.rest (Nat.min_le_left _ _) (by omega))⟩).bind fun rest s2 h2 => ?_
              exact Act.ends_pure ⟨h2.1, h2.2.append (hchunk.2 hlt hshort) (Nat.min_le_left _ _)⟩
          · rw [addChecked, if_neg hlt]
            exact ⟨hs1, fun hin => hlt (hfits hin)⟩

theorem readAt_ends {s s1 : SegmentedStore} (h : SameFiles s s1) (off n : Nat) :
    (WalStore.readAt off n).Ends s1 (fun bs s' => SameFiles s s' ∧ s.Yields off n bs)
      fun _ s' => SameFiles s s' ∧ ¬ s.InRange off n := by
  show (readAt off n).Ends s1 _ _
  rw [readAt]
  refine Act.ends_get_bind ?_
  have hsize : (⟨s1.segmentSize, s1.segmentSize_pos⟩ : {n : Nat // 0 < n}) =
      ⟨s.segmentSize, s.segmentSize_pos⟩ := Subtype.ext h.segmentSize_eq
  rw [hsize]
  exact readChunks_ends off n h

/-- What can be read ends below the last offset. -/
theorem read_fits {s : SegmentedStore} {off n : Nat} {bs : List UInt8}
    (h : s.image.read off n = some bs) : n = 0 ∨ off + n < 2 ^ 64 := by
  rcases Nat.eq_zero_or_pos n with hzero | hpos
  · exact Or.inl hzero
  · refine Or.inr ?_
    obtain ⟨hlen, hget⟩ := Image.read_eq_some_iff.mp h
    have hlast := hget (n - 1) (by omega)
    rw [List.getElem?_eq_getElem (by omega), image] at hlast
    split at hlast
    · omega
    · cases hlast

/-- A store is read as its image says, and stays the same while it is. -/
theorem probes (s : SegmentedStore) : Probes s.InRange s.image (SameFiles s) where
  full := fun {s1 off n bs} hs1 hread => by
    rcases (readAt_ends hs1 off n).cases with ⟨got, s2, hrun, hs2, hyields⟩ | ⟨_, _, _, -, hout⟩
    · rw [Yields, hread] at hyields
      rcases hyields with ⟨-, hnone⟩ | hsome
      · cases hnone
      · cases hsome
        exact ⟨s2, hrun, hs2⟩
    · exact absurd ((read_fits hread).imp_right Or.inl) hout
  missing := fun {s1 off n} hs1 hnone =>
    (readAt_ends hs1 off n).mono (fun bs _ h => ⟨fun _ => (h.2.resolve_right
      (by rw [hnone]; exact (Option.some_ne_none bs).symm)).1, h.1⟩) fun _ _ h => h

/-- A store with nothing past its length, as a sight of its image. -/
theorem sight {s : SegmentedStore} (hpast : ∀ o, s.maxWritten ≤ o → s.image o = none)
    (hlt : s.maxWritten < 2 ^ 64) : Sight s.InRange s.image s.maxWritten (SameFiles s) where
  toProbes := probes s
  within := fun {off n} hle => Or.inr (Or.inl (by omega))
  len_eq := fun {s1} hs1 => by
    show ((.ok s1.maxWritten, s1) : Except Fault Nat × SegmentedStore) = _
    rw [hs1.maxWritten_eq]
  past_end := hpast _
  size_lt := hlt

/-- Where the files end below the last offset no read fails. -/
theorem bounded {s : SegmentedStore} (hpast : ∀ o, s.maxWritten ≤ o → s.image o = none)
    (hlt : s.maxWritten < 2 ^ 64) (hfits : s.FilesFit) :
    Bounded s.image s.maxWritten (SameFiles s) := by
  have hshort : ∀ {s1 : SegmentedStore} {off n : Nat}, SameFiles s s1 → off < 2 ^ 64 →
      s.image.read off n = none →
      ∃ bs s', WalStore.readAt off n s1 = (.ok bs, s') ∧ bs.length < n ∧ SameFiles s s' := by
    intro s1 off n hs1 hoff hnone
    rcases (readAt_ends hs1 off n).cases with ⟨bs, s2, hrun, hs2, hyields⟩ | ⟨_, _, _, -, hout⟩
    · rw [Yields, hnone] at hyields
      exact ⟨bs, s2, hrun, (hyields.resolve_right (Option.some_ne_none bs).symm).1, hs2⟩
    · exact absurd (Or.inr (Or.inr ⟨hoff, hfits⟩)) hout
  have hV := sight hpast hlt
  exact
    { full := hV.full
      short := fun hs1 hend hnone => hshort hs1 (by omega) hnone
      past := fun {s1 off n} hs1 _ => (readAt_ends hs1 off n).mono (fun _ _ h => h.1)
        fun _ _ h => ⟨h.1, fun hoff => h.2 (Or.inr (Or.inr ⟨hoff, hfits⟩))⟩
      len_eq := hV.len_eq
      past_end := hV.past_end
      size_lt := hV.size_lt
      past_short := fun {s1 off n} hs1 hoff hend => hshort hs1 hoff (by
        cases h : s.image.read off n with
        | none => rfl
        | some bs =>
            have := read_fits h
            omega) }

/-! ## What the operations do to the image -/

section Effects

variable {s s' : SegmentedStore} {off len o : Nat} {bytes : List UInt8}

/-- The bytes that a write puts into one segment, and where. -/
theorem patched_cases (size : Nat) (hsize : 0 < size) (off : Nat) (bytes : List UInt8) (o : Nat)
    (file : Option File) :
    (patched size off bytes (o / size) file = file ∧ ¬ (off ≤ o ∧ o < off + bytes.length)) ∨
      ∃ here chunk, patched size off bytes (o / size) file =
          some ((file.getD File.empty).pwriteAll here chunk) ∧
        (here ≤ o % size ∧ o % size < here + chunk.length ↔ off ≤ o ∧ o < off + bytes.length) ∧
        (off + bytes.length ≤ o → here + chunk.length ≤ o % size) ∧
        (off ≤ o → o < off + bytes.length → chunk[o % size - here]? = bytes[o - off]?) := by
  have hb := div_bounds hsize o
  by_cases ht : Touches size off bytes.length (o / size)
  · refine Or.inr ⟨_, _, by rw [patched, if_pos ht], ?_⟩
    rw [Touches, Nat.succ_mul] at ht
    rw [List.length_take, List.length_drop, Nat.succ_mul]
    refine ⟨by omega, by omega, fun h1 h2 => ?_⟩
    rw [List.getElem?_take_of_lt (by omega), List.getElem?_drop]
    congr 1
    omega
  · refine Or.inl ⟨by rw [patched, if_neg ht], fun hin => ht ?_⟩
    rw [Touches, Nat.succ_mul]
    omega

theorem Patched.image_in (h : Patched off bytes s s') (hfit : off + bytes.length < 2 ^ 64)
    (hlo : off ≤ o) (hhi : o < off + bytes.length) : s'.image o = bytes[o - off]? := by
  rw [image, if_pos (by omega), h.segmentSize_eq, h.seg_eq]
  rcases patched_cases s.segmentSize s.segmentSize_pos off bytes o (s.seg (o / s.segmentSize)) with
    ⟨-, hout⟩ | ⟨here, chunk, heq, hiff, -, hbyte⟩
  · exact absurd ⟨hlo, hhi⟩ hout
  · obtain ⟨h1, h2⟩ := hiff.mpr ⟨hlo, hhi⟩
    rw [heq, ← hbyte hlo hhi]
    exact getElem?_overwrite_in h1 h2

theorem Patched.image_out (h : Patched off bytes s s') (hout : o < off ∨ off + bytes.length ≤ o)
    {b : UInt8} (hb : s.image o = some b) : s'.image o = some b := by
  rw [image] at hb ⊢
  split at hb
  · rename_i hlt
    rw [if_pos hlt, h.segmentSize_eq, h.seg_eq]
    obtain ⟨file, hfile, hb⟩ := Option.bind_eq_some_iff.mp hb
    rw [hfile]
    rcases patched_cases s.segmentSize s.segmentSize_pos off bytes o (some file) with
      ⟨heq, -⟩ | ⟨here, chunk, heq, hiff, -, -⟩
    · rw [heq]
      exact hb
    · rw [heq]
      obtain ⟨hlen, -⟩ := List.getElem?_eq_some_iff.mp hb
      exact (getElem?_overwrite_out (by omega) hlen).trans hb
  · cases hb

theorem Patched.image_past (h : Patched off bytes s s') (hpast : off + bytes.length ≤ o)
    (hnone : s.image o = none) : s'.image o = none := by
  rw [image] at hnone ⊢
  split
  · rename_i hlt
    rw [if_pos hlt] at hnone
    rw [h.segmentSize_eq, h.seg_eq]
    rcases patched_cases s.segmentSize s.segmentSize_pos off bytes o
      (s.seg (o / s.segmentSize)) with ⟨heq, -⟩ | ⟨here, chunk, heq, -, hend, -⟩
    · rw [heq]
      exact hnone
    · rw [heq]
      refine List.getElem?_eq_none (Nat.le_trans (Nat.le_of_eq length_overwrite) ?_)
      have := hend hpast
      cases hs : s.seg (o / s.segmentSize) with
      | none => exact Nat.max_le.mpr ⟨Nat.zero_le _, this⟩
      | some file =>
          rw [hs] at hnone
          exact Nat.max_le.mpr ⟨List.getElem?_eq_none_iff.mp hnone, this⟩
  · rfl

/-- Nothing from the cut on is left in a segment that has been cut. -/
theorem image_cut_past (hsize : s'.segmentSize = s.segmentSize)
    (hseg : s'.seg (o / s.segmentSize) =
      cut (len / s.segmentSize) (len % s.segmentSize) (o / s.segmentSize) (s.seg (o / s.segmentSize)))
    (hpast : len ≤ o) : s'.image o = none := by
  have hdiv : len / s.segmentSize ≤ o / s.segmentSize := Nat.div_le_div_right hpast
  rw [image]
  split
  · rw [hsize, hseg, cut]
    by_cases hlt : len / s.segmentSize < o / s.segmentSize
    · rw [if_pos hlt]
      rfl
    · rw [if_neg hlt, if_pos (by omega)]
      cases s.seg (o / s.segmentSize) with
      | none => rfl
      | some file =>
          have h1 := div_bounds s.segmentSize_pos len
          have h2 := div_bounds s.segmentSize_pos o
          rw [show o / s.segmentSize = len / s.segmentSize by omega] at h2
          refine List.getElem?_eq_none ?_
          show (file.written.take (len % s.segmentSize) ++
            List.replicate (len % s.segmentSize - file.written.length) 0).length ≤ _
          rw [length_padded]
          omega
  · rfl

/-- What lies below the cut is kept. -/
theorem image_cut_below (hsize : s'.segmentSize = s.segmentSize)
    (hseg : s'.seg (o / s.segmentSize) =
      cut (len / s.segmentSize) (len % s.segmentSize) (o / s.segmentSize) (s.seg (o / s.segmentSize)))
    (hlt : o < len) {b : UInt8} (hb : s.image o = some b) : s'.image o = some b := by
  have hdiv : o / s.segmentSize ≤ len / s.segmentSize := Nat.div_le_div_right (Nat.le_of_lt hlt)
  rw [image] at hb ⊢
  split at hb
  · rename_i hfit
    rw [if_pos hfit, hsize, hseg, cut, if_neg (by omega)]
    split
    · rename_i heq
      obtain ⟨file, hfile, hb⟩ := Option.bind_eq_some_iff.mp hb
      rw [hfile]
      have h1 := div_bounds s.segmentSize_pos len
      have h2 := div_bounds s.segmentSize_pos o
      rw [heq] at h2
      obtain ⟨hlen, -⟩ := List.getElem?_eq_some_iff.mp hb
      refine Eq.trans ?_ hb
      show (file.written.take (len % s.segmentSize) ++ _)[o % s.segmentSize]? = _
      rw [List.getElem?_append_left (by rw [List.length_take]; omega),
        List.getElem?_take_of_lt (by omega)]
    · exact hb
  · cases hb

theorem Truncated.image_past (h : Truncated len s s') (hpast : len ≤ o) : s'.image o = none :=
  image_cut_past h.segmentSize_eq (h.seg_eq _) hpast

theorem Truncated.image_below (h : Truncated len s s') (hlt : o < len) {b : UInt8}
    (hb : s.image o = some b) : s'.image o = some b :=
  image_cut_below h.segmentSize_eq (h.seg_eq _) hlt hb

theorem Synced.image_eq (h : Synced s s') : s'.image = s.image := by
  refine image_eq_of_written h.segmentSize_eq fun i => ?_
  rw [h.seg_eq]
  split
  · cases s.seg i <;> rfl
  · rfl

end Effects

end SegmentedStore
end WalDb
