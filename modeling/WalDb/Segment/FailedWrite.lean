/-
Writes and flushes of a segmented store that may fail.

A write is cut into one chunk for each segment, and any of the system calls on the way may
fail.  What has been written by then stays: a segment may have been created and be empty,
and the bytes of the earlier chunks may be there although the store's length does not
reach them.  Nothing below the offset of the write is touched in either case.
-/
import WalDb.Segment.Changes

namespace WalDb

open Lib Lib.Act Relation

namespace SegmentedStore

/-- The handles of the store, its lengths and its marker are as before, and so is every byte
below `n`. -/
structure Keeping (n : Nat) (s0 s : SegmentedStore) : Prop where
  handles_ok : ∀ i ∈ s.handles, (s.seg i).isSome = true
  segmentSize_eq : s.segmentSize = s0.segmentSize
  maxWritten_eq : s.maxWritten = s0.maxWritten
  head_eq : s.head = s0.head
  headFile_eq : s.dir.headFile = s0.dir.headFile
  below : ∀ o b, o < n → s0.image o = some b → s.image o = some b

section Keeping

variable {n : Nat} {s0 s s1 s2 : SegmentedStore}

theorem Keeping.refl (h : ∀ i ∈ s.handles, (s.seg i).isSome = true) (n : Nat) : Keeping n s s :=
  ⟨h, rfl, rfl, rfl, rfl, fun _ _ _ hb => hb⟩

/-- The outcomes that the next system calls have are not part of it. -/
theorem Keeping.faults (h : Keeping n s0 s) (faults : List Bool) :
    Keeping n s0 { s with dir := { s.dir with faults := faults } } :=
  ⟨h.handles_ok, h.segmentSize_eq, h.maxWritten_eq, h.head_eq, h.headFile_eq, h.below⟩

/-- A change that takes no byte below `n` away, and leaves the marker alone. -/
def Change.Spares (n : Nat) : Change → Prop
  | .write pos _ => n ≤ pos
  | .setLen _ _ | .cutOff _ | .unlink _ | .marker _ _ => False
  | _ => True

/-- Where every file keeps what has been written to it, and an empty one counts as none, every
byte is as before. -/
theorem Change.image_eq {c : Change} (h : ∀ i file,
    (c.onFile s.segmentSize i file).elim [] File.written = file.elim [] File.written) :
    (c.apply s).image = s.image :=
  image_eq_of_written (c.apply_segmentSize s) fun i => by rw [c.apply_seg, h]

/-- The chunk that goes to one segment, as a write of its own. -/
theorem Change.patched {off : Nat} {chunk : List UInt8} (h : s.HandlesOk)
    (hlegal : (Change.write off chunk).Legal s) :
    Patched off chunk s ((Change.write off chunk).apply s) := by
  obtain ⟨hmem, hne, hroom⟩ := hlegal
  refine ⟨rfl, fun i => ?_⟩
  rw [Change.apply_seg, Change.onFile]
  by_cases hi : i = off / s.segmentSize
  · subst hi
    obtain ⟨file, hfile⟩ := Option.isSome_iff_exists.mp (h _ hmem)
    rw [if_pos rfl, patched_first s.segmentSize_pos hne, hfile, Nat.min_eq_left hroom,
      List.take_length]
    rfl
  · rw [if_neg hi, SegmentedStore.patched, if_neg]
    rw [touches_rest s.segmentSize_pos hi, Nat.min_eq_left hroom, Nat.sub_self]
    exact fun ht => Nat.lt_irrefl 0 ht.2.2

theorem Keeping.change (h : Keeping n s0 s) {c : Change} (hspares : c.Spares n)
    (hlegal : c.Legal s) : Keeping n s0 (c.apply s) where
  handles_ok := HandlesOk.change h.handles_ok hlegal
  segmentSize_eq := (c.apply_segmentSize s).trans h.segmentSize_eq
  maxWritten_eq := (c.apply_maxWritten s).trans h.maxWritten_eq
  head_eq := (c.apply_head s).trans h.head_eq
  headFile_eq := by
    refine (c.apply_headFile s ?_).trans h.headFile_eq
    rintro headFile tmp rfl
    exact hspares
  below o b ho hb := by
    have hb := h.below o b ho hb
    cases c with
    | write pos chunk =>
        have hspares : n ≤ pos := hspares
        exact (Change.patched h.handles_ok hlegal).image_out (Or.inl (by omega)) hb
    | create index | flush index =>
        rw [Change.image_eq, hb]
        intro i file
        simp only [Change.onFile]
        split <;> cases file <;> rfl
    | call | openFile index | close index | flagDir dirty | flagParent dirty => exact hb
    | _ => exact hspares.elim

theorem walk_keeping {may : Change → Prop} (hmay : ∀ c, may c → c.Spares n)
    (h : ReflTransGen (Step may) s s1) (hs : s.HandlesOk) : Keeping n s s1 :=
  walk_invariant (fun _ c hc hlegal hk => hk.change (hmay c hc) hlegal) h (Keeping.refl hs n)

/-! ## Writing -/

/-- The changes of a write from `off` to `endAt`. -/
def ByWrite (size off endAt : Nat) : Change → Prop
  | .call => True
  | .create index => off / size ≤ index ∧ index * size < endAt
  | .write pos chunk => off ≤ pos ∧ pos + chunk.length ≤ endAt
  | _ => False

theorem ByWrite.spares {size off endAt : Nat} (c : Change) (h : ByWrite size off endAt c) :
    c.Spares off := by
  cases c with
  | write pos chunk => exact h.1
  | call | create index => exact trivial
  | _ => exact h.elim

theorem ByWrite.mono {size off off' endAt : Nat} (hle : off ≤ off') (c : Change)
    (h : ByWrite size off' endAt c) : ByWrite size off endAt c := by
  cases c with
  | create index => exact ⟨Nat.le_trans (Nat.div_le_div_right hle) h.1, h.2⟩
  | write pos chunk => exact ⟨Nat.le_trans hle h.1, h.2⟩
  | call => exact trivial
  | _ => exact h.elim

/-- `bytes` are what the store holds from `off` on. -/
def Has (off : Nat) (bytes : List UInt8) (s : SegmentedStore) : Prop :=
  ∀ k < bytes.length, s.image (off + k) = bytes[k]?

/-- The bytes of a chunk, and those that the rest of the write puts behind it. -/
theorem Has.append {off take : Nat} {bytes : List UInt8} (h1 : Has off (bytes.take take) s1)
    (hle : take ≤ bytes.length) (hkeep : Keeping (off + take) s1 s2)
    (h2 : Has (off + take) (bytes.drop take) s2) : Has off bytes s2 := by
  intro k hk
  by_cases hlt : k < take
  · have hbyte := h1 k (by rw [List.length_take]; omega)
    rw [List.getElem?_take_of_lt hlt, List.getElem?_eq_getElem hk] at hbyte
    rw [List.getElem?_eq_getElem hk]
    exact hkeep.below _ _ (by omega) hbyte
  · have hbyte := h2 (k - take) (by rw [List.length_drop]; omega)
    rw [List.getElem?_drop, show off + take + (k - take) = off + k by omega,
      show take + (k - take) = k by omega] at hbyte
    exact hbyte

/-- The loop of `write_at`.  If it gets to its end its bytes are there. -/
theorem writeChunks_walks {size : Nat} (hsize : 0 < size) {off : Nat} {bytes : List UInt8}
    (hfit : off + bytes.length < 2 ^ 64) (hs : s.segmentSize = size) :
    (writeChunks ⟨size, hsize⟩ off bytes).Walks (Step (ByWrite size off (off + bytes.length))) s
      (fun _ s' => s.HandlesOk → s'.Has off bytes) Fault.Returned := by
  induction hn : bytes.length using Nat.strongRecOn generalizing off bytes s with
  | ind n ih =>
      subst hn
      rw [writeChunks]
      by_cases hne : bytes = []
      · subst hne
        rw [dif_pos rfl]
        exact walks_pure fun _ k hk => absurd hk (Nat.not_lt_zero k)
      rw [dif_neg hne]
      have hpos := List.length_pos_of_ne_nil hne
      have hroom := room_pos hsize off
      have hdiv := div_bounds hsize off
      have hlen : (bytes.take (min bytes.length (room size off))).length =
          min bytes.length (room size off) := by
        rw [List.length_take]
        omega
      have hcreate : ByWrite size off (off + bytes.length) (.create (off / size)) :=
        ⟨Nat.le_refl _, by omega⟩
      refine (segmentForWrite_walks trivial hcreate).bind fun _ s1 hw1 hopen => ?_
      refine (os_walks trivial _).bind fun _ s2 hw2 hs2 => ?_
      subst hs2
      have hsize2 : (Change.call.apply s1).segmentSize = size := (walk_segmentSize hw1).trans hs
      have hlegal : (Change.write off (bytes.take (min bytes.length (room size off)))).Legal
          (Change.call.apply s1) := by
        rw [Change.Legal, hsize2, hlen]
        exact ⟨hopen, List.ne_nil_of_length_pos (by omega), Nat.min_le_right _ _⟩
      refine (walks_change (c := .write off (bytes.take (min bytes.length (room size off))))
        (onDir_write hsize2 _ _) ⟨Nat.le_refl _, by omega⟩ hlegal).bind
          fun _ s3 hw3 hs3 => ?_
      rw [addChecked, if_pos (by omega), Act.pure_bind]
      have hw := (hw1.trans hw2).trans hw3
      have hrest := @ih (bytes.drop (min bytes.length (room size off))).length
        (by rw [List.length_drop]; omega) s3 (off + min bytes.length (room size off)) _
        (by rw [List.length_drop]; omega) ((walk_segmentSize hw).trans hs) rfl
      rw [List.length_drop, show off + min bytes.length (room size off) +
        (bytes.length - min bytes.length (room size off)) = off + bytes.length by omega] at hrest
      refine Ends.mono hrest (fun _ s4 h4 => ?_) fun _ s4 h4 => ?_
      · refine ⟨ReflTransGen.mono (Step.mono (ByWrite.mono (Nat.le_add_right _ _))) _ _ h4.1,
          fun hok => ?_⟩
        have hpatch := Change.patched (walk_handlesOk (hw1.trans hw2) hok) hlegal
        have hhas : s3.Has off (bytes.take (min bytes.length (room size off))) := by
          intro k hk
          rw [hs3, hpatch.image_in (by omega) (by omega) (by omega), Nat.add_sub_cancel_left]
        exact hhas.append (Nat.min_le_left _ _) (walk_keeping ByWrite.spares h4.1 (walk_handlesOk hw hok))
          (h4.2 (walk_handlesOk hw hok))
      · exact ⟨ReflTransGen.mono (Step.mono (ByWrite.mono (Nat.le_add_right _ _))) _ _ h4.1, h4.2⟩

/-- A write that has returned has stored the new length. -/
theorem writeAt_walks {off : Nat} {bytes : List UInt8} (hfit : off + bytes.length < 2 ^ 64) :
    (WalStore.writeAt off bytes).Ends s
      (fun _ s' => ∃ s1, ReflTransGen (Step (ByWrite s.segmentSize off (off + bytes.length))) s s1 ∧
        (s.HandlesOk → s1.Has off bytes) ∧
        s' = { s1 with maxWritten := max s1.maxWritten (off + bytes.length) })
      fun fault s' => ReflTransGen (Step (ByWrite s.segmentSize off (off + bytes.length))) s s' ∧
        fault.Returned := by
  refine ends_get_bind ((writeChunks_walks s.segmentSize_pos hfit rfl).bind_ends
    (fun _ _ h he => ⟨h, he⟩) fun _ s1 h1 hhas => ?_)
  refine ends_of_ok rfl ⟨s1, h1, hhas, ?_⟩
  rw [saturatingAdd, Nat.min_eq_left (by omega)]

/-- A write keeps every byte below its offset.  If it succeeds its own bytes are there. -/
theorem writeAt_ends {off : Nat} {bytes : List UInt8} (hfit : off + bytes.length < 2 ^ 64)
    (h : ∀ i ∈ s.handles, (s.seg i).isSome = true) :
    (WalStore.writeAt off bytes).Ends s
      (fun _ s' => Keeping off s { s' with maxWritten := s.maxWritten } ∧ s'.Has off bytes ∧
        s'.maxWritten = max s.maxWritten (off + bytes.length))
      fun _ => Keeping off s := by
  refine (writeAt_walks hfit).mono ?_ fun _ s' h' => walk_keeping ByWrite.spares h'.1 h
  rintro _ _ ⟨s1, hwalk, hhas, rfl⟩
  have hk := walk_keeping ByWrite.spares hwalk h
  refine ⟨⟨hk.handles_ok, hk.segmentSize_eq, rfl, hk.head_eq, hk.headFile_eq, hk.below⟩, hhas h, ?_⟩
  show max s1.maxWritten _ = _
  rw [hk.maxWritten_eq]

/-! ## Flushing -/

theorem BySync.spares (c : Change) (h : BySync c) : c.Spares n := by
  cases c with
  | call | flush index | flagDir dirty | flagParent dirty => exact trivial
  | _ => exact h.elim

/-- A flush keeps every byte, whether it succeeds or not. -/
theorem sync_keeping (n : Nat) (h : s.HandlesOk) :
    (WalStore.sync : Act SegmentedStore Fault Unit).Ends s (fun _ => Keeping n s)
      fun _ => Keeping n s := by
  refine sync_ends.mono ?_ fun _ s' h' => walk_keeping BySync.spares h'.1 h
  rintro _ _ ⟨s1, first, hwalk, rfl⟩
  have hk := walk_keeping (n := n) BySync.spares hwalk h
  exact ⟨hk.handles_ok, hk.segmentSize_eq, hk.maxWritten_eq, hk.head_eq, hk.headFile_eq, hk.below⟩

end Keeping

end SegmentedStore
end WalDb
