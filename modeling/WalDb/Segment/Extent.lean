/-
Where the files of a segmented store end.

`open` has only the files to tell how long the store is: it takes the end of the
highest one.  A store that is to be found again as it was left must therefore keep its
highest file ending exactly at its length.  The operations do, as long as a truncation
cuts inside a segment that is there.
-/
import WalDb.Segment.Image

namespace WalDb

open Lib

/-- The files give one length. -/
theorem Dir.Spans.unique {d : Dir} {size t t' : Nat} (h : d.Spans size t) (h' : d.Spans size t') :
    t = t' := by
  rcases h with ⟨hnone, rfl⟩ | ⟨i, file, hfile, hmax, rfl⟩
  · rcases h' with ⟨-, rfl⟩ | ⟨j, file', hfile', -, -⟩
    · rfl
    · rw [hnone j] at hfile'
      cases hfile'
  · rcases h' with ⟨hnone, -⟩ | ⟨j, file', hfile', hmax', rfl⟩
    · rw [hnone i] at hfile
      cases hfile
    · have hij : i = j := Nat.le_antisymm (hmax' i (by rw [hfile]; rfl)) (hmax j (by rw [hfile']; rfl))
      subst hij
      rw [hfile] at hfile'
      cases hfile'
      rfl

theorem Dir.Spans.lt {d : Dir} {size t : Nat} (h : d.Spans size t) : t < 2 ^ 64 := by
  rcases h with ⟨-, rfl⟩ | ⟨i, file, -, -, rfl⟩
  · decide
  · unfold saturatingAdd
    omega

namespace SegmentedStore

/-- The length of the file of segment `i`. -/
def segLen (s : SegmentedStore) (i : Nat) : Option Nat := (s.seg i).map (·.written.length)

/-- No file is longer than a segment. -/
def Short (s : SegmentedStore) : Prop := ∀ i, ∀ n ∈ s.segLen i, n ≤ s.segmentSize

/-- The highest file ends at `total`. -/
def EndsAt (s : SegmentedStore) (total : Nat) : Prop :=
  (∀ i, s.segLen i = none) ∧ total = 0 ∨
    ∃ i n, s.segLen i = some n ∧ (∀ j, (s.segLen j).isSome = true → j ≤ i) ∧
      total = i * s.segmentSize + n

section Extent

variable {s s' : SegmentedStore} {total off len : Nat} {bytes : List UInt8}

theorem segLen_isSome (s : SegmentedStore) (i : Nat) :
    (s.segLen i).isSome = (s.seg i).isSome := Option.isSome_map

theorem spans_iff (s : SegmentedStore) (total : Nat) :
    s.dir.Spans s.segmentSize total ↔ (∀ i, s.segLen i = none) ∧ total = 0 ∨
      ∃ i n, s.segLen i = some n ∧ (∀ j, (s.segLen j).isSome = true → j ≤ i) ∧
        total = saturatingAdd (saturatingMul i s.segmentSize) n := by
  simp only [Dir.Spans, segLen_isSome]
  simp only [segLen, seg, Option.map_eq_none_iff, Option.map_eq_some_iff]
  refine or_congr_right ⟨?_, ?_⟩
  · rintro ⟨i, file, hfile, hmax, rfl⟩
    exact ⟨i, _, ⟨file, hfile, rfl⟩, hmax, rfl⟩
  · rintro ⟨i, n, ⟨file, hfile, rfl⟩, hmax, rfl⟩
    exact ⟨i, file, hfile, hmax, rfl⟩

/-- A byte past the end of its file is not there. -/
theorem image_none_of_segLen {o : Nat}
    (h : ∀ n ∈ s.segLen (o / s.segmentSize), n ≤ o % s.segmentSize) : s.image o = none := by
  rw [image]
  split
  · cases hs : s.seg (o / s.segmentSize) with
    | none => rfl
    | some file =>
        refine List.getElem?_eq_none (h _ ?_)
        rw [segLen, hs]
        rfl
  · rfl

/-- A byte that is there lies within its file. -/
theorem segLen_of_image {o : Nat} {b : UInt8} (h : s.image o = some b) :
    ∃ n, s.segLen (o / s.segmentSize) = some n ∧ o % s.segmentSize < n := by
  by_contra hno
  rw [image_none_of_segLen fun n hn => Nat.not_lt.mp fun hlt => hno ⟨n, hn, hlt⟩] at h
  cases h

/-- A file does not reach past where the bytes end. -/
theorem segLen_le_of_past (hlt : off < 2 ^ 64 - 1) (hpast : s.image off = none) {n : Nat}
    (hn : s.segLen (off / s.segmentSize) = some n) : n ≤ off % s.segmentSize := by
  rw [segLen] at hn
  obtain ⟨file, hfile, rfl⟩ := Option.map_eq_some_iff.mp hn
  rw [image, if_pos hlt, hfile] at hpast
  exact List.getElem?_eq_none_iff.mp hpast

/-- Nothing can be read past the length that the files give. -/
theorem past_of_spans (h : s.dir.Spans s.segmentSize total) {o : Nat} (ho : total ≤ o) :
    s.image o = none := by
  by_cases hlt : o < 2 ^ 64 - 1
  · refine image_none_of_segLen fun n hn => ?_
    obtain ⟨file, hfile, rfl⟩ := Option.map_eq_some_iff.mp hn
    have hfile : s.dir.segments.lookup (o / s.segmentSize) = some file := hfile
    rcases h with ⟨hnone, -⟩ | ⟨i, top, htop, hmax, rfl⟩
    · rw [hnone] at hfile
      cases hfile
    · have hle := hmax _ (by rw [hfile]; rfl)
      have hb := div_bounds s.segmentSize_pos o
      unfold saturatingAdd saturatingMul at ho
      rcases Nat.lt_or_eq_of_le hle with hlt' | heq
      · have := succ_mul_le s.segmentSize hlt'
        omega
      · rw [heq] at hfile hb
        rw [hfile] at htop
        cases htop
        omega
  · rw [image, if_neg hlt]

theorem EndsAt.spans (h : s.EndsAt total) (hlt : total < 2 ^ 64) :
    s.dir.Spans s.segmentSize total := by
  refine (spans_iff s total).mpr (h.imp id ?_)
  rintro ⟨i, n, hn, hmax, rfl⟩
  refine ⟨i, n, hn, hmax, ?_⟩
  unfold saturatingAdd saturatingMul
  omega

/-- A length that has not been saturated is where the highest file ends. -/
theorem endsAt_of_spans (h : s.dir.Spans s.segmentSize total) (hlt : total < 2 ^ 64 - 1) :
    s.EndsAt total := by
  refine ((spans_iff s total).mp h).imp id ?_
  rintro ⟨i, n, hn, hmax, rfl⟩
  refine ⟨i, n, hn, hmax, ?_⟩
  unfold saturatingAdd saturatingMul at hlt ⊢
  omega

/-- A length is where the highest file ends unless some file reaches past the last offset. -/
theorem endsAt_of_fits (h : s.dir.Spans s.segmentSize total)
    (hfits : ∀ i, ∀ n ∈ s.segLen i, i * s.segmentSize + n < 2 ^ 64) : s.EndsAt total := by
  refine ((spans_iff s total).mp h).imp id ?_
  rintro ⟨i, n, hn, hmax, rfl⟩
  refine ⟨i, n, hn, hmax, ?_⟩
  have := hfits i n hn
  unfold saturatingAdd saturatingMul
  omega

theorem EndsAt.past (h : s.EndsAt total) (hlt : total < 2 ^ 64) {o : Nat} (ho : total ≤ o) :
    s.image o = none := past_of_spans (h.spans hlt) ho

/-- No segment starts past the end. -/
theorem EndsAt.low (h : s.EndsAt total) {i : Nat} (hi : (s.seg i).isSome = true) :
    i * s.segmentSize ≤ total := by
  rw [← segLen_isSome] at hi
  rcases h with ⟨hnone, -⟩ | ⟨j, n, -, hmax, rfl⟩
  · rw [hnone] at hi
    cases hi
  · have := Nat.mul_le_mul_right s.segmentSize (hmax i hi)
    omega

/-- No file reaches past the end. -/
theorem EndsAt.reach (h : s.EndsAt total) (hs : s.Short) {i n : Nat} (hn : s.segLen i = some n) :
    i * s.segmentSize + n ≤ total := by
  rcases h with ⟨hnone, -⟩ | ⟨top, k, hk, hmax, rfl⟩
  · rw [hnone] at hn
    cases hn
  · rcases Nat.lt_or_eq_of_le (hmax i (by rw [hn]; rfl)) with hlt | rfl
    · have := hs i n hn
      have := succ_mul_le s.segmentSize hlt
      omega
    · rw [hk] at hn
      cases hn
      exact Nat.le_refl _

/-- Files that end below the last offset. -/
theorem filesFit_of_segLen (h : ∀ i n, s.segLen i = some n → i * s.segmentSize + n < 2 ^ 64) :
    s.FilesFit := by
  intro i file hfile
  have := h i file.written.length (by rw [segLen, hfile]; rfl)
  omega

/-! ## The operations -/

theorem spans_congr (total : Nat) (hsize : s'.segmentSize = s.segmentSize)
    (hlen : ∀ i, s'.segLen i = s.segLen i) :
    s'.dir.Spans s'.segmentSize total ↔ s.dir.Spans s.segmentSize total := by
  rw [spans_iff, spans_iff]
  simp only [hlen, hsize]

theorem endsAt_congr (hsize : s'.segmentSize = s.segmentSize)
    (hlen : ∀ i, s'.segLen i = s.segLen i) : s'.EndsAt total ↔ s.EndsAt total := by
  simp only [EndsAt, hlen, hsize]

theorem short_congr (hsize : s'.segmentSize = s.segmentSize)
    (hlen : ∀ i, s'.segLen i = s.segLen i) : s'.Short ↔ s.Short := by
  simp only [Short, hlen, hsize]

theorem SameFiles.segLen_eq (h : SameFiles s s') (i : Nat) : s'.segLen i = s.segLen i := by
  rw [segLen, segLen, h.seg_eq]

theorem Synced.segLen_eq (h : Synced s s') (i : Nat) : s'.segLen i = s.segLen i := by
  rw [segLen, segLen, h.seg_eq]
  split
  · cases s.seg i <;> rfl
  · rfl

/-- A write leaves each file ending where it did, or where the write does. -/
theorem Patched.segLen_eq (h : Patched off bytes s s') (i : Nat) :
    s'.segLen i = if Touches s.segmentSize off bytes.length i then
      some (max ((s.segLen i).getD 0)
        (min ((i + 1) * s.segmentSize) (off + bytes.length) - i * s.segmentSize))
    else s.segLen i := by
  rw [segLen, h.seg_eq, patched]
  split
  · rename_i ht
    rw [Touches, Nat.succ_mul] at ht
    have hlen : ((s.seg i).getD File.empty).written.length = (s.segLen i).getD 0 := by
      rw [segLen]
      cases s.seg i <;> rfl
    rw [Option.map_some]
    show some (overwrite _ _ _).length = _
    rw [length_overwrite, hlen, List.length_take, List.length_drop, Nat.succ_mul]
    congr 2
    omega
  · rfl

theorem Patched.short (h : Patched off bytes s s') (hs : s.Short) : s'.Short := by
  intro i n hn
  rw [Option.mem_def, h.segLen_eq] at hn
  rw [h.segmentSize_eq]
  split at hn
  · cases hn
    have hold : (s.segLen i).getD 0 ≤ s.segmentSize := by
      cases hl : s.segLen i with
      | none => exact Nat.zero_le _
      | some k => exact hs i k hl
    rw [Nat.succ_mul]
    omega
  · exact hs i n hn

/-- After a write at the end the highest file ends where the write does, if no segment
starts past it. -/
theorem Patched.endsAt (h : Patched off bytes s s') (hne : bytes ≠ [])
    (hfit : off + bytes.length < 2 ^ 64)
    (hlow : ∀ i, (s.seg i).isSome = true → i * s.segmentSize ≤ off)
    (hpast : s.image off = none) : s'.EndsAt (off + bytes.length) := by
  have hpos := List.length_pos_of_ne_nil hne
  have hb := div_bounds s.segmentSize_pos off
  have ht := div_bounds s.segmentSize_pos (off + bytes.length - 1)
  have hmono : off / s.segmentSize ≤ (off + bytes.length - 1) / s.segmentSize :=
    Nat.div_le_div_right (by omega)
  generalize htop : (off + bytes.length - 1) / s.segmentSize = top at *
  have htouch : Touches s.segmentSize off bytes.length top := by
    rw [Touches, Nat.succ_mul]
    omega
  -- What the topmost file held before lies below the write.
  have hold : (s.segLen top).getD 0 ≤ off + bytes.length - top * s.segmentSize := by
    cases hl : s.segLen top with
    | none => exact Nat.zero_le _
    | some n =>
        have hseg : (s.seg top).isSome = true := by
          rw [← segLen_isSome, hl]
          rfl
        have hle := hlow top hseg
        have heq : top = off / s.segmentSize := by
          rcases Nat.lt_or_eq_of_le hmono with hlt | heq
          · have := succ_mul_le s.segmentSize hlt
            have : off = top * s.segmentSize := by omega
            rw [this, Nat.mul_div_cancel _ s.segmentSize_pos]
          · exact heq.symm
        have := segLen_le_of_past (by omega) hpast (heq ▸ hl)
        rw [← heq] at hb
        show n ≤ _
        omega
  refine Or.inr ⟨top, _, by rw [h.segLen_eq, if_pos htouch], fun j hj => ?_, ?_⟩
  · rw [h.segLen_eq] at hj
    by_contra hgt
    have := succ_mul_le s.segmentSize (Nat.not_le.mp hgt)
    split at hj
    · rename_i ht'
      rw [Touches] at ht'
      omega
    · rw [segLen_isSome] at hj
      have := hlow j hj
      omega
  · rw [h.segmentSize_eq, Nat.succ_mul]
    omega

theorem segLen_cut {i : Nat} (hseg : s'.seg i =
      cut (len / s.segmentSize) (len % s.segmentSize) i (s.seg i)) :
    s'.segLen i = if len / s.segmentSize < i then none
      else if i = len / s.segmentSize then (s.segLen i).map fun _ => len % s.segmentSize
      else s.segLen i := by
  rw [segLen, hseg, cut]
  split
  · rfl
  · split
    · rw [segLen]
      cases s.seg i with
      | none => rfl
      | some file =>
          show some (file.written.take _ ++ List.replicate _ 0).length = _
          rw [length_padded]
          rfl
    · rfl

theorem Truncated.segLen_eq (h : Truncated len s s') (i : Nat) :
    s'.segLen i = if len / s.segmentSize < i then none
      else if i = len / s.segmentSize then (s.segLen i).map fun _ => len % s.segmentSize
      else s.segLen i := segLen_cut (h.seg_eq i)

theorem Truncated.short (h : Truncated len s s') (hs : s.Short) : s'.Short := by
  intro i n hn
  rw [Option.mem_def, h.segLen_eq] at hn
  rw [h.segmentSize_eq]
  split at hn
  · cases hn
  · split at hn
    · obtain ⟨k, -, rfl⟩ := Option.map_eq_some_iff.mp hn
      exact Nat.le_of_lt (Nat.mod_lt _ s.segmentSize_pos)
    · exact hs i n hn

/-- A cut inside a segment that is there leaves the highest file ending at the cut. -/
theorem Truncated.endsAt (h : Truncated len s s')
    (hseg : (s.seg (len / s.segmentSize)).isSome = true) : s'.EndsAt len := by
  rw [← segLen_isSome] at hseg
  obtain ⟨n, hn⟩ := Option.isSome_iff_exists.mp hseg
  refine Or.inr ⟨len / s.segmentSize, len % s.segmentSize, ?_, fun j hj => ?_, ?_⟩
  · rw [h.segLen_eq, if_neg (Nat.lt_irrefl _), if_pos rfl, hn]
    rfl
  · rw [h.segLen_eq] at hj
    by_contra hgt
    rw [if_pos (Nat.not_le.mp hgt)] at hj
    cases hj
  · have := div_bounds s.segmentSize_pos len
    rw [h.segmentSize_eq]
    omega

/-- A cut just after a byte that is there leaves the highest file ending at the cut. -/
theorem Truncated.endsAt_of_byte (h : Truncated len s s') (hs : s.Short) {b : UInt8}
    (hb : s.image (len - 1) = some b) : s'.EndsAt len := by
  by_cases hseg : (s.seg (len / s.segmentSize)).isSome = true
  · exact h.endsAt hseg
  · -- The byte is the last one of its segment.
    rw [image] at hb
    split at hb
    · obtain ⟨file, hfile, hb⟩ := Option.bind_eq_some_iff.mp hb
      obtain ⟨hlt, -⟩ := List.getElem?_eq_some_iff.mp hb
      have hlen : s.segLen ((len - 1) / s.segmentSize) = some file.written.length := by
        rw [segLen, hfile]
        rfl
      have hle := hs _ _ hlen
      have h1 := div_bounds s.segmentSize_pos len
      have h2 := div_bounds s.segmentSize_pos (len - 1)
      have hmono : (len - 1) / s.segmentSize ≤ len / s.segmentSize :=
        Nat.div_le_div_right (Nat.sub_le _ _)
      have hlow : (len - 1) / s.segmentSize < len / s.segmentSize := by
        refine Nat.lt_of_le_of_ne hmono fun heq => hseg ?_
        rw [← heq, hfile]
        rfl
      have := succ_mul_le s.segmentSize hlow
      refine Or.inr ⟨(len - 1) / s.segmentSize, file.written.length, ?_, fun j hj => ?_, ?_⟩
      · rw [h.segLen_eq, if_neg (by omega), if_neg (by omega), hlen]
      · rw [h.segLen_eq] at hj
        split at hj
        · cases hj
        · rename_i hnot
          split at hj
          · rename_i heq
            rw [Option.isSome_map, heq, segLen_isSome] at hj
            exact absurd hj hseg
          · rename_i hne
            by_contra hgt
            have := succ_mul_le s.segmentSize (Nat.not_le.mp hgt)
            have := succ_mul_le s.segmentSize
              (show j < len / s.segmentSize by omega)
            omega
      · rw [h.segmentSize_eq]
        omega
    · cases hb

/-- A cut at the very end changes no length. -/
theorem Truncated.endsAt_self (h : Truncated len s s') (he : s.EndsAt len) : s'.EndsAt len := by
  by_cases hseg : (s.seg (len / s.segmentSize)).isSome = true
  · exact h.endsAt hseg
  · refine (endsAt_congr h.segmentSize_eq fun i => ?_).mpr he
    rw [h.segLen_eq]
    have hnone : s.segLen (len / s.segmentSize) = none := by
      rw [← Option.not_isSome_iff_eq_none, segLen_isSome]
      exact hseg
    split
    · rename_i hlt
      cases hi : s.segLen i with
      | none => rfl
      | some n =>
          have := he.low (i := i) (by rw [← segLen_isSome, hi]; rfl)
          have := succ_mul_le s.segmentSize hlt
          have := div_bounds s.segmentSize_pos len
          omega
    · split
      · rename_i heq
        rw [heq, hnone]
        rfl
      · rfl

/-- The file that ends the store lies at or above the segment of the last byte. -/
theorem EndsAt.last_le {i n : Nat} (hs : s.Short) (hn : s.segLen i = some n)
    (htotal : total = i * s.segmentSize + n) : (total - 1) / s.segmentSize ≤ i := by
  have hle := hs i n hn
  rcases Nat.eq_zero_or_pos n with hzero | hpos
  · rw [htotal, hzero, Nat.add_zero]
    exact Nat.le_trans (Nat.div_le_div_right (Nat.sub_le _ _))
      (Nat.le_of_eq (Nat.mul_div_cancel _ s.segmentSize_pos))
  · refine Nat.le_of_lt_succ ((Nat.div_lt_iff_lt_mul s.segmentSize_pos).mpr ?_)
    rw [Nat.succ_mul]
    omega

theorem EndsAt.eq {i : Nat} {file : File} (h : s.EndsAt total) (hfile : s.seg i = some file)
    (hmax : ∀ j, (s.seg j).isSome = true → j ≤ i) :
    i * s.segmentSize + file.written.length = total := by
  have hlen : s.segLen i = some file.written.length := by
    rw [segLen, hfile]
    rfl
  rcases h with ⟨hnone, -⟩ | ⟨j, n, hn, hmax', htotal⟩
  · rw [hnone] at hlen
    cases hlen
  · have hle := hmax j (by rw [← segLen_isSome, hn]; rfl)
    have hge := hmax' i (by rw [hlen]; rfl)
    obtain rfl : i = j := by omega
    rw [hn] at hlen
    cases hlen
    exact htotal.symm

/-- Files that are gone below the segment of the last byte do not move the end, if what is left
of the highest one ends where it did. -/
theorem EndsAt.left (h : s.EndsAt total) (hs : s.Short) {f : File → File}
    (hlast : ∀ i file, s.seg i = some file → (∀ j, (s.seg j).isSome = true → j ≤ i) →
      i * s.segmentSize + (f file).written.length = total)
    (hsize : s'.segmentSize = s.segmentSize)
    (hgone : ∀ i, s'.seg i = (s.seg i).map f ∨ s'.seg i = none)
    (hkept : ∀ i, (total - 1) / s.segmentSize ≤ i → s'.seg i = (s.seg i).map f) :
    s'.EndsAt total := by
  rcases h with ⟨hnone, hzero⟩ | ⟨i, n, hn, hmax, htotal⟩
  · refine Or.inl ⟨fun i => ?_, hzero⟩
    have hseg : s.seg i = none := Option.map_eq_none_iff.mp (hnone i)
    rcases hgone i with heq | hnone'
    · rw [segLen, heq, hseg]
      rfl
    · rw [segLen, hnone']
      rfl
  · obtain ⟨file, hfile, -⟩ := Option.map_eq_some_iff.mp hn
    have hmax : ∀ j, (s.seg j).isSome = true → j ≤ i := fun j hj =>
      hmax j (by rw [segLen_isSome]; exact hj)
    refine Or.inr ⟨i, (f file).written.length, ?_, fun j hj => hmax j ?_, ?_⟩
    · rw [segLen, hkept i (EndsAt.last_le hs hn htotal), hfile]
      rfl
    · rw [segLen_isSome] at hj
      rcases hgone j with heq | hnone
      · rwa [heq, Option.isSome_map] at hj
      · rw [hnone] at hj
        cases hj
    · rw [hsize]
      exact (hlast i file hfile hmax).symm

/-- Some segments below `keep` are gone, and the others are as they were. -/
structure Thinned (keep : Nat) (s s' : SegmentedStore) : Prop where
  segmentSize_eq : s'.segmentSize = s.segmentSize
  gone : ∀ i, s'.seg i = s.seg i ∨ s'.seg i = none
  kept : ∀ i, keep ≤ i → s'.seg i = s.seg i

section Thinned

variable {keep : Nat}

theorem Thinned.segLen (h : Thinned keep s s') (i : Nat) :
    s'.segLen i = s.segLen i ∨ s'.segLen i = none := by
  rw [SegmentedStore.segLen, SegmentedStore.segLen]
  rcases h.gone i with heq | hnone
  · exact Or.inl (by rw [heq])
  · exact Or.inr (by rw [hnone]; rfl)

theorem Thinned.short (h : Thinned keep s s') (hs : s.Short) : s'.Short := by
  intro i n hn
  rw [h.segmentSize_eq]
  rcases h.segLen i with heq | hnone
  · exact hs i n (heq ▸ hn)
  · rw [hnone] at hn
    cases hn

/-- What lies in the segments from `keep` on is kept. -/
theorem Thinned.image_kept (h : Thinned keep s s') {o : Nat} (hle : keep ≤ o / s.segmentSize) :
    s'.image o = s.image o := image_eq_of_seg h.segmentSize_eq (h.kept _ hle)

/-- Where the segment of the last byte is kept, so is the file that ends the store. -/
theorem Thinned.endsAt (h : Thinned keep s s') (hs : s.Short) (he : s.EndsAt total)
    (hkeep : keep ≤ (total - 1) / s.segmentSize) : s'.EndsAt total := by
  refine he.left hs (f := id) (fun _ _ => he.eq) h.segmentSize_eq (fun i => ?_) fun i hi => ?_
  · rw [Option.map_id]
    exact h.gone i
  · rw [Option.map_id]
    exact h.kept i (Nat.le_trans hkeep hi)

end Thinned

theorem Dropped.thinned (h : Dropped off s s') :
    Thinned (s.keepFrom (s.clampedHead off)) s s' where
  segmentSize_eq := h.segmentSize_eq
  gone := fun i => by
    rw [h.seg_eq]
    split
    · exact Or.inr rfl
    · exact Or.inl rfl
  kept := fun i hi => by rw [h.seg_eq, if_neg (Nat.not_lt.mpr hi)]

end Extent

end SegmentedStore
end WalDb
