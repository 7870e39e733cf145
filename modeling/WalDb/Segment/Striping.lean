/-
Writes and truncations at the store, in any order.

`ByteMap` is the flat space that the store is to be: the last byte written at each
offset, and the length.  The store holds it however the ranges fall on the segments
and in whatever order they are written, gaps included.  No file reaches past the
length, so the directory gives the length back whenever the last byte below it has been
written.
-/
import WalDb.Lib.Run
import WalDb.Segment.Extent

namespace WalDb

open Lib SegmentedStore

inductive ByteOp where
  | write (offset : Nat) (bytes : List UInt8)
  | truncate (len : Nat)

/-- What has been written and not truncated away, and the length. -/
structure ByteMap where
  bytes : Image UInt8
  len : Nat

namespace ByteMap

def empty : ByteMap := ⟨fun _ => none, 0⟩

def write (m : ByteMap) (offset : Nat) (bytes : List UInt8) : ByteMap where
  bytes o := if offset ≤ o ∧ o < offset + bytes.length then bytes[o - offset]? else m.bytes o
  len := max m.len (offset + bytes.length)

def truncate (m : ByteMap) (len : Nat) : ByteMap where
  bytes o := if o < len then m.bytes o else none
  len := len

/-- A write is not empty and ends below `2 ^ 64`; a truncation does not grow the store. -/
def step (m : ByteMap) : ByteOp → Option ByteMap
  | .write offset bytes =>
      if bytes ≠ [] ∧ offset + bytes.length < 2 ^ 64 then some (m.write offset bytes) else none
  | .truncate len => if len ≤ m.len then some (m.truncate len) else none

end ByteMap

namespace SegmentedStore

/-- An operation that succeeds. -/
def step (s : SegmentedStore) : ByteOp → Option SegmentedStore
  | .write offset bytes => Act.final (WalStore.writeAt offset bytes) s
  | .truncate len => Act.final (WalStore.truncate len) s

/-- No file reaches past the length. -/
def Within (s : SegmentedStore) : Prop :=
  ∀ i, ∀ n ∈ s.segLen i, i * s.segmentSize + n ≤ s.maxWritten

section Within

variable {s s' : SegmentedStore} {off len : Nat} {bytes : List UInt8}

theorem Written.within (h : Written off bytes s s') (hs : s.Within) : s'.Within := by
  intro i n hn
  rw [Option.mem_def, h.toPatched.segLen_eq] at hn
  rw [h.segmentSize_eq, h.maxWritten_eq]
  split at hn
  · rename_i ht
    cases hn
    rw [Touches] at ht
    rw [Nat.succ_mul] at ht ⊢
    cases hl : s.segLen i with
    | none =>
        show _ + max 0 _ ≤ _
        omega
    | some k =>
        have := hs i k hl
        show _ + max k _ ≤ _
        omega
  · have := hs i n hn
    omega

theorem Truncated.within (h : Truncated len s s') (hs : s.Short) : s'.Within := by
  have hb := div_bounds s.segmentSize_pos len
  intro i n hn
  rw [Option.mem_def, h.segLen_eq] at hn
  rw [h.segmentSize_eq, h.maxWritten_eq]
  split at hn
  · cases hn
  · split at hn
    · rename_i heq
      obtain ⟨k, -, rfl⟩ := Option.map_eq_some_iff.mp hn
      rw [heq]
      omega
    · have hle := hs i n hn
      have := succ_mul_le s.segmentSize (show i < len / s.segmentSize by omega)
      omega

/-- Where the last byte below the length is there, the highest file ends at the length. -/
theorem Within.endsAt (hs : s.Within) (hpos : 0 < s.maxWritten) {b : UInt8}
    (hb : s.image (s.maxWritten - 1) = some b) : s.EndsAt s.maxWritten := by
  have hd := div_bounds s.segmentSize_pos (s.maxWritten - 1)
  obtain ⟨n, hn, hlt⟩ := segLen_of_image hb
  have hle := hs _ n hn
  generalize htop : (s.maxWritten - 1) / s.segmentSize = top at *
  -- A file above the one with the last byte starts where that one ends, and is empty.
  have habove : ∀ j k, s.segLen j = some k → top < j →
      j = top + 1 ∧ s.maxWritten = j * s.segmentSize + k := by
    intro j k hk hgt
    have hj := hs j k hk
    have h1 := succ_mul_le s.segmentSize hgt
    refine ⟨?_, by omega⟩
    by_contra hne
    have h2 := succ_mul_le s.segmentSize (show top + 1 < j by omega)
    rw [Nat.succ_mul] at h2
    have := s.segmentSize_pos
    omega
  cases hnext : s.segLen (top + 1) with
  | none =>
      refine Or.inr ⟨top, n, hn, fun j hj => ?_, by omega⟩
      obtain ⟨k, hk⟩ := Option.isSome_iff_exists.mp hj
      by_contra hgt
      rw [(habove j k hk (by omega)).1, hnext] at hk
      cases hk
  | some k =>
      refine Or.inr ⟨top + 1, k, hnext, fun j hj => ?_, (habove _ k hnext (by omega)).2⟩
      obtain ⟨k', hk'⟩ := Option.isSome_iff_exists.mp hj
      by_contra hgt
      have := (habove j k' hk' (by omega)).1
      omega

theorem Within.past (hs : s.Within) {o : Nat} (ho : s.maxWritten ≤ o) : s.image o = none := by
  refine image_none_of_segLen fun n hn => ?_
  have := hs _ n hn
  have := Nat.div_add_mod' o s.segmentSize
  omega

theorem Within.filesFit (hs : s.Within) (hlt : s.maxWritten < 2 ^ 64) : s.FilesFit :=
  filesFit_of_segLen fun i n hn => Nat.lt_of_le_of_lt (hs i n hn) hlt

theorem Within.bounded (hs : s.Within) (hlt : s.maxWritten < 2 ^ 64) :
    Bounded s.image s.maxWritten (SameFiles s) :=
  SegmentedStore.bounded (fun _ ho => hs.past ho) hlt (hs.filesFit hlt)

end Within

/-- A store of segments of `size` bytes holds what has been written. -/
structure Holds (size : Nat) (s : SegmentedStore) (m : ByteMap) : Prop extends Ready s where
  size_eq : s.segmentSize = size
  short : s.Short
  within : s.Within
  bytes_eq : ∀ o, ∀ b ∈ m.bytes o, s.image o = some b
  len_eq : s.maxWritten = m.len
  len_lt : m.len < 2 ^ 64

section Holds

variable {size : Nat} {s : SegmentedStore} {m : ByteMap}

theorem Holds.write (h : Holds size s m) {offset : Nat} {bytes : List UInt8}
    (hfit : offset + bytes.length < 2 ^ 64) :
    ∃ s', WalStore.writeAt offset bytes s = (.ok (), s') ∧ Holds size s' (m.write offset bytes) := by
  obtain ⟨s', hrun, hw⟩ := writeAt_ok h.toReady hfit
  refine ⟨s', hrun, ⟨hw.toReady, hw.segmentSize_eq.trans h.size_eq, hw.toPatched.short h.short,
    hw.within h.within, fun o b hb => ?_,
    ?_, Nat.max_lt.mpr ⟨h.len_lt, hfit⟩⟩⟩
  · simp only [Option.mem_def, ByteMap.write] at hb
    split at hb
    · rename_i hin
      rw [hw.toPatched.image_in hfit hin.1 hin.2, hb]
    · rename_i hout
      exact hw.toPatched.image_out (by omega) (h.bytes_eq o b hb)
  · rw [hw.maxWritten_eq, h.len_eq]
    rfl

theorem Holds.truncate (h : Holds size s m) {len : Nat} (hle : len ≤ m.len) :
    ∃ s', WalStore.truncate len s = (.ok (), s') ∧ Holds size s' (m.truncate len) := by
  obtain ⟨s', hrun, ht⟩ := truncate_ok h.toReady len
  refine ⟨s', hrun, ⟨ht.toReady, ht.segmentSize_eq.trans h.size_eq, ht.short h.short,
    ht.within h.short, fun o b hb => ?_,
    ht.maxWritten_eq, Nat.lt_of_le_of_lt hle h.len_lt⟩⟩
  simp only [Option.mem_def, ByteMap.truncate] at hb
  split at hb
  · rename_i hlt
    exact ht.image_below hlt (h.bytes_eq o b hb)
  · cases hb

theorem Holds.step (h : Holds size s m) {op : ByteOp} {m' : ByteMap} (hstep : m.step op = some m') :
    ∃ s', s.step op = some s' ∧ Holds size s' m' := by
  cases op with
  | write offset bytes =>
      rw [ByteMap.step] at hstep
      split at hstep
      · rename_i hallowed
        cases hstep
        obtain ⟨s', hrun, hs'⟩ := h.write hallowed.2
        exact ⟨s', Act.final_ok hrun, hs'⟩
      · cases hstep
  | truncate len =>
      rw [ByteMap.step] at hstep
      split at hstep
      · rename_i hle
        cases hstep
        obtain ⟨s', hrun, hs'⟩ := h.truncate hle
        exact ⟨s', Act.final_ok hrun, hs'⟩
      · cases hstep

/-- A range that has been written is in the image. -/
theorem Holds.read (h : Holds size s m) {off n : Nat} {bs : List UInt8}
    (hread : m.bytes.read off n = some bs) : s.image.read off n = some bs := by
  obtain ⟨hlen, hget⟩ := Image.read_eq_some_iff.mp hread
  refine Image.read_eq_some_iff.mpr ⟨hlen, fun i hi => ?_⟩
  have hbyte := hget i hi
  rw [List.getElem?_eq_getElem (by omega)] at hbyte ⊢
  exact h.bytes_eq _ _ hbyte

/-- The directory gives the length back. -/
theorem Holds.reopen (h : Holds size s m) (hpos : 0 < m.len)
    (hlast : (m.bytes (m.len - 1)).isSome = true) (created : Bool) :
    ∃ s', openDir size created s.dir = (.ok s', s.dir) ∧
      WalStore.len s' = (.ok m.len, s') := by
  obtain ⟨b, hb⟩ := Option.isSome_iff_exists.mp hlast
  obtain ⟨s', hrun, ho⟩ := openDir_ok (h.size_eq ▸ s.segmentSize_pos) created h.faults_eq
  refine ⟨s', hrun, ?_⟩
  have hbyte := h.bytes_eq _ b hb
  rw [← h.len_eq] at hpos hbyte
  have hspans := ho.spans
  rw [← h.size_eq] at hspans
  have hends := (h.within.endsAt hpos hbyte).spans (by rw [h.len_eq]; exact h.len_lt)
  have hlen : s'.maxWritten = m.len := (hspans.unique hends).trans h.len_eq
  show ((.ok s'.maxWritten, s') : Except Fault Nat × SegmentedStore) = _
  rw [hlen]

end Holds

theorem Opened.holds_empty {size : Nat} {created : Bool} {s : SegmentedStore}
    (h : Opened size created Dir.empty s) : Holds size s ByteMap.empty := by
  have hnone : ∀ i, s.segLen i = none := by
    intro i
    rw [segLen, seg, h.dir_eq]
    rfl
  refine ⟨h.ready rfl, h.segmentSize_eq, fun i n hn => ?_, fun i n hn => ?_, fun o b hb => ?_, ?_,
    by decide⟩
  · rw [hnone] at hn
    cases hn
  · rw [hnone] at hn
    cases hn
  · cases hb
  · exact h.spans.unique (Or.inl ⟨fun _ => rfl, rfl⟩)

end SegmentedStore

/-- After any writes and truncations of a new store, in any order, a range that has been
written is read back whole, with the last byte written at each offset; the length is
that of the byte map; and opening the directory again gives that length whenever the
byte below it has been written. -/
theorem striping_reads_what_was_written (size : Nat) (hsize : 0 < size) (created : Bool) :
    ∃ s, openDir size created Dir.empty = (.ok s, Dir.empty) ∧
      ∀ ops m, run ByteMap.step ByteMap.empty ops = some m →
        ∃ s', run SegmentedStore.step s ops = some s' ∧
          (∀ off n bs, m.bytes.read off n = some bs →
            ∃ s'', WalStore.readAt off n s' = (.ok bs, s'')) ∧
          WalStore.len s' = (.ok m.len, s') ∧
          (0 < m.len → (m.bytes (m.len - 1)).isSome = true →
            ∃ s'', openDir size false s'.dir = (.ok s'', s'.dir) ∧
              WalStore.len s'' = (.ok m.len, s'')) := by
  obtain ⟨s, hopen, ho⟩ := openDir_ok hsize created (d := Dir.empty) rfl
  refine ⟨s, hopen, fun ops m hrun => ?_⟩
  obtain ⟨s', hrun', h⟩ := run_matched (fun _ _ _ _ h => h.step) ho.holds_empty hrun
  refine ⟨s', hrun', fun off n bs hread => ?_, ?_, fun hpos hlast => h.reopen hpos hlast false⟩
  · obtain ⟨s'', hgot, -⟩ := (probes s').full (SameFiles.refl h.toReady) (h.read hread)
    exact ⟨s'', hgot⟩
  · rw [← h.len_eq]
    rfl

/-- Segments of four bytes: the upper range is written first and overlaps three of them, a
truncation cuts it, and a later write leaves a hole. -/
theorem striping_reads_what_was_written_out_of_order :
    0 < 4 ∧ ∃ s, openDir 4 true Dir.empty = (.ok s, Dir.empty) ∧
      ∃ s', run SegmentedStore.step s
          [.write 6 [1, 2, 3, 4, 5, 6, 7], .write 0 [8, 9], .truncate 9, .write 7 [10],
            .write 14 [11, 12, 13]] = some s' ∧
        (∃ s'', WalStore.readAt 6 3 s' = (.ok [1, 10, 3], s'')) ∧
        (∃ s'', WalStore.readAt 14 3 s' = (.ok [11, 12, 13], s'')) ∧
        WalStore.len s' = (.ok 17, s') ∧
        ∃ s'', openDir 4 false s'.dir = (.ok s'', s'.dir) ∧
          WalStore.len s'' = (.ok 17, s'') := by
  obtain ⟨s, hopen, h⟩ := striping_reads_what_was_written 4 (by decide) true
  obtain ⟨s', hrun, hread, hlen, hreopen⟩ := h
    [.write 6 [1, 2, 3, 4, 5, 6, 7], .write 0 [8, 9], .truncate 9, .write 7 [10],
      .write 14 [11, 12, 13]] _ rfl
  exact ⟨by decide, s, hopen, s', hrun, hread 6 3 _ rfl, hread 14 3 _ rfl, hlen,
    hreopen (by decide) rfl⟩

end WalDb
