/-
Gaps that no write has filled.

The flat store in memory fills the gap before a write with zeros.  A file does that too,
but only below a write to the same file: a segment that nothing was written to does not
exist, and one that was written to ends at its last byte.  A read of the segmented store
ends there, as if the log did.  Both stores hold the same bytes at every offset that some
write reaches, that is, at or above which something was written within the segment; at
the others the one holds a zero and the other nothing.
-/
import WalDb.Segment.Striping

namespace WalDb

open Lib SegmentedStore

/-- Every write of `ws` returns Ok, one after the other. -/
def WalStore.writeEach {S : Type} [WalStore S] (s : S) (ws : List (Nat × List UInt8)) : Option S :=
  run (fun s w => Act.final (WalStore.writeAt w.1 w.2) s) s ws

/-- The write puts a byte at `o` or above it, in the same segment. -/
def Reaches (size o : Nat) (w : Nat × List UInt8) : Prop :=
  max o w.1 < min (w.1 + w.2.length) ((o / size + 1) * size)

instance (size o : Nat) (w : Nat × List UInt8) : Decidable (Reaches size o w) :=
  inferInstanceAs (Decidable (_ < _))

/-- Some write reaches `o`. -/
def Reached (size : Nat) (ws : List (Nat × List UInt8)) (o : Nat) : Prop :=
  ∃ w ∈ ws, Reaches size o w

instance (size : Nat) (ws : List (Nat × List UInt8)) (o : Nat) : Decidable (Reached size ws o) :=
  inferInstanceAs (Decidable (∃ w ∈ ws, Reaches size o w))

theorem reached_append_singleton {size o : Nat} {ws : List (Nat × List UInt8)}
    {w : Nat × List UInt8} :
    Reached size (ws ++ [w]) o ↔ Reached size ws o ∨ Reaches size o w := by
  simp [Reached, or_and_right, exists_or]

/-- A written byte is reached. -/
theorem reaches_of_mem {size o : Nat} (hsize : 0 < size) {w : Nat × List UInt8} (hlo : w.1 ≤ o)
    (hhi : o < w.1 + w.2.length) : Reaches size o w := by
  have := (div_bounds hsize o).2
  rw [Reaches, Nat.succ_mul]
  omega

namespace SegmentedStore

section Effects

variable {s s' : SegmentedStore} {off o : Nat} {bytes : List UInt8}

/-- The file that a write goes to is filled with zeros up to it. -/
theorem Patched.image_gap (h : Patched off bytes s s') (hlt : o < 2 ^ 64 - 1) (hgap : o < off)
    (hreach : Reaches s.segmentSize o (off, bytes)) (hnone : s.image o = none) :
    s'.image o = some 0 := by
  have hb := div_bounds s.segmentSize_pos o
  have hmod := Nat.div_add_mod' o s.segmentSize
  rw [Reaches] at hreach
  have ht : Touches s.segmentSize off bytes.length (o / s.segmentSize) := by
    rw [Touches]
    dsimp only at hreach
    omega
  rw [image, if_pos hlt] at hnone ⊢
  rw [h.segmentSize_eq, h.seg_eq, patched, if_pos ht]
  refine getElem?_overwrite_gap ?_ (by omega)
  cases hs : s.seg (o / s.segmentSize) with
  | none => exact Nat.zero_le _
  | some file =>
      rw [hs] at hnone
      exact List.getElem?_eq_none_iff.mp hnone

/-- What a write does not reach stays missing. -/
theorem Patched.image_unreached (h : Patched off bytes s s')
    (hout : ¬ Reaches s.segmentSize o (off, bytes)) (hnone : s.image o = none) :
    s'.image o = none := by
  have hb := div_bounds s.segmentSize_pos o
  rw [Reaches, Nat.succ_mul] at hout
  dsimp only at hout
  by_cases hpast : off + bytes.length ≤ o
  · exact h.image_past hpast hnone
  · have ht : ¬ Touches s.segmentSize off bytes.length (o / s.segmentSize) := by
      rw [Touches, Nat.succ_mul]
      omega
    rw [image] at hnone ⊢
    rwa [h.segmentSize_eq, h.seg_eq, patched, if_neg ht]

end Effects

/-! ## Reading up to a hole -/

/-- The bytes of a chunk, and whether the image goes on behind them. -/
theorem available_chunk {s : SegmentedStore} {off want n : Nat} {file : File}
    (hseg : s.seg (off / s.segmentSize) = some file)
    (hfits : off / s.segmentSize * s.segmentSize + file.written.length < 2 ^ 64)
    (hpos : 0 < want) (hwant : want ≤ room s.segmentSize off) (hn : want ≤ n) :
    let got := file.preadFill (off % s.segmentSize) want
    (got.length < want → s.image.available off n = got) ∧
      (¬ got.length < want → off + want < 2 ^ 64 ∧
        s.image.available off n = got ++ s.image.available (off + want) (n - want)) := by
  intro got
  have hlen : got.length = min want (file.written.length - off % s.segmentSize) := by
    show ((file.written.drop (off % s.segmentSize)).take want).length = _
    rw [List.length_take, List.length_drop]
  have hmod := Nat.mod_lt off s.segmentSize_pos
  have hdiv := Nat.div_add_mod' off s.segmentSize
  unfold room at hwant
  -- What was read is in the image: it all lies in the file.
  have hread : s.image.read off got.length = some got := by
    refine Image.read_eq_some_iff.mpr ⟨rfl, fun i hi => ?_⟩
    rw [image_add (by omega) (by omega), hseg]
    show file.written[off % s.segmentSize + i]? =
      ((file.written.drop (off % s.segmentSize)).take want)[i]?
    rw [List.getElem?_take_of_lt (by omega), List.getElem?_drop]
  constructor
  · intro hshort
    have hnone : s.image (off + got.length) = none := by
      by_cases hlt : off + got.length < 2 ^ 64 - 1
      · rw [image_add (by omega) hlt, hseg]
        exact List.getElem?_eq_none (by omega)
      · rw [image, if_neg hlt]
    rw [Image.available_append hread (by omega), Image.available_hole hnone, List.append_nil]
  · intro hfull
    have heq : got.length = want := by omega
    rw [heq] at hread
    exact ⟨by omega, Image.available_append hread hn⟩

/-- A read returns what comes before the first hole. -/
theorem readChunks_available {s0 : SegmentedStore}
    (hfits : ∀ i file, s0.seg i = some file → i * s0.segmentSize + file.written.length < 2 ^ 64)
    {off : Nat} (hoff : ∀ file, s0.seg (off / s0.segmentSize) = some file → off < 2 ^ 64) (n : Nat)
    {s : SegmentedStore} (h : SameFiles s0 s) :
    ∃ s', readChunks ⟨s0.segmentSize, s0.segmentSize_pos⟩ off n s =
      (.ok (s0.image.available off n), s') ∧ SameFiles s0 s' := by
  induction n using Nat.strongRecOn generalizing off s with
  | ind n ih =>
      by_cases hzero : n = 0
      · subst hzero
        exact ⟨s, by rw [readChunks, dif_pos rfl]; rfl, h⟩
      have hroom := room_pos s0.segmentSize_pos off
      obtain ⟨s1, hs1, hrun⟩ := readChunks_round h off hzero
      rw [hrun]
      cases hseg : s0.seg (off / s0.segmentSize) with
      | none =>
          have hnone : s0.image off = none := by
            rw [image, hseg]
            split <;> rfl
          exact ⟨s1, by rw [Image.available_hole hnone], hs1⟩
      | some file =>
          have hchunk := available_chunk hseg (hfits _ _ hseg) (by omega)
            (Nat.min_le_right n (room s0.segmentSize off)) (Nat.min_le_left _ _)
          have hend : off + (file.preadFill (off % s0.segmentSize)
              (min n (room s0.segmentSize off))).length < 2 ^ 64 := by
            have hlen : (file.preadFill (off % s0.segmentSize)
                (min n (room s0.segmentSize off))).length ≤
                file.written.length - off % s0.segmentSize := by
              rw [File.preadFill, List.length_take, List.length_drop]
              omega
            have := hoff _ hseg
            have := hfits _ _ hseg
            have := Nat.div_add_mod' off s0.segmentSize
            omega
          have hle : (file.preadFill (off % s0.segmentSize) (min n (room s0.segmentSize off))).length ≤
              min n (room s0.segmentSize off) := List.length_take_le _ _
          dsimp only
          generalize file.preadFill (off % s0.segmentSize) (min n (room s0.segmentSize off)) = got
            at hchunk hend hle ⊢
          rw [Act.bind_ok (addChecked_ok hend s1)]
          by_cases hshort : got.length < min n (room s0.segmentSize off)
          · exact ⟨s1, by rw [if_pos hshort, hchunk.1 hshort]; rfl, hs1⟩
          · rw [if_neg hshort, (hchunk.2 hshort).2, Nat.le_antisymm hle (Nat.not_lt.mp hshort)]
            obtain ⟨s2, hrest, hs2⟩ := ih (n - min n (room s0.segmentSize off)) (by omega)
              (fun _ _ => (hchunk.2 hshort).1) hs1
            exact ⟨s2, by rw [Act.bind_ok hrest]; rfl, hs2⟩

/-- Past the offsets of 64 bits there is no file, unless a segment is as long as all of them. -/
theorem Within.seg_none_past {s : SegmentedStore} (h : s.Within) (hlt : s.maxWritten < 2 ^ 63)
    (hsize : s.segmentSize < 2 ^ 64) {off : Nat} (hoff : 2 ^ 64 ≤ off) :
    s.seg (off / s.segmentSize) = none := by
  cases hseg : s.seg (off / s.segmentSize) with
  | none => rfl
  | some file =>
      have hle := h _ file.written.length (by rw [segLen, hseg]; rfl)
      have hpos : 1 ≤ off / s.segmentSize :=
        (Nat.one_le_div_iff s.segmentSize_pos).mpr (by omega)
      have hone := Nat.le_mul_of_pos_left s.segmentSize hpos
      have hmod := Nat.mod_lt off s.segmentSize_pos
      have hdiv := Nat.div_add_mod' off s.segmentSize
      omega

theorem readAt_available {s : SegmentedStore} (h : Ready s) (hwithin : s.Within)
    (hlt : s.maxWritten < 2 ^ 63) {off : Nat} (hoff : off < 2 ^ 64 ∨ s.segmentSize < 2 ^ 64)
    (n : Nat) : ∃ s', WalStore.readAt off n s = (.ok (s.image.available off n), s') ∧
      SameFiles s s' := by
  have hfits : ∀ i file, s.seg i = some file →
      i * s.segmentSize + file.written.length < 2 ^ 64 := by
    intro i file hfile
    have := hwithin i file.written.length (by rw [segLen, hfile]; rfl)
    omega
  refine readChunks_available hfits (fun file hfile => hoff.elim id fun hsize => ?_) n
    (SameFiles.refl h)
  by_contra hpast
  rw [hwithin.seg_none_past hlt hsize (Nat.not_lt.mp hpast)] at hfile
  cases hfile

/-! ## Both stores under the same writes -/

/-- After the writes `ws` the two stores are equally long and hold the same bytes at every
offset that was reached.  At the others one holds a zero, and the other nothing. -/
structure Mirrors (size : Nat) (ws : List (Nat × List UInt8)) (s : SegmentedStore)
    (mem : MemStore) : Prop extends Ready s where
  size_eq : s.segmentSize = size
  within : s.Within
  len_eq : s.maxWritten = mem.data.length
  reached : ∀ o, Reached size ws o → o < mem.data.length ∧ s.image o = mem.data[o]?
  hole : ∀ o, ¬ Reached size ws o → s.image o = none ∧
    (o < mem.data.length → mem.data[o]? = some 0)

theorem Opened.mirrors {size : Nat} {created : Bool} {s : SegmentedStore}
    (h : Opened size created Dir.empty s) : Mirrors size [] s ⟨[], by decide⟩ := by
  have hold := h.holds_empty
  refine ⟨hold.toReady, hold.size_eq, hold.within, hold.len_eq, ?_, fun o _ => ⟨?_, ?_⟩⟩
  · rintro o ⟨w, hw, -⟩
    cases hw
  · rw [image, seg, h.dir_eq]
    split <;> rfl
  · exact fun hlt => absurd hlt (Nat.not_lt_zero o)

section Mirrors

variable {size : Nat} {ws : List (Nat × List UInt8)} {s : SegmentedStore} {mem mem' : MemStore}

/-- Memory holds the bytes of a write, so the write ends below what memory can hold. -/
theorem writeAt_lt {w : Nat × List UInt8} (hdata : mem'.data = overwrite mem.data w.1 w.2) :
    w.1 + w.2.length < 2 ^ 63 := by
  have := mem'.data_lt
  rw [hdata, length_overwrite] at this
  omega

/-- Memory fills with zeros what was never written. -/
theorem overwrite_zero {data bytes : List UInt8} {off o : Nat}
    (hout : ¬ (off ≤ o ∧ o < off + bytes.length)) (hzero : o < data.length → data[o]? = some 0)
    (hlt : o < max data.length (off + bytes.length)) :
    (overwrite data off bytes)[o]? = some 0 := by
  rw [getElem?_overwrite, if_neg hout]
  by_cases h : o < data.length
  · rw [if_pos h, hzero h]
  · rw [if_neg h, if_pos (by omega)]

theorem Mirrors.write (h : Mirrors size ws s mem) {w : Nat × List UInt8}
    (hmem : WalStore.writeAt w.1 w.2 mem = (.ok (), mem')) :
    ∃ s', WalStore.writeAt w.1 w.2 s = (.ok (), s') ∧ Mirrors size (ws ++ [w]) s' mem' := by
  have hdata := MemStore.writeAt_data hmem
  have hend := writeAt_lt hdata
  have hlen : mem'.data.length = max mem.data.length (w.1 + w.2.length) := by
    rw [hdata, length_overwrite]
  obtain ⟨s', hrun, hw⟩ := writeAt_ok h.toReady (show w.1 + w.2.length < 2 ^ 64 by omega)
  have hp := hw.toPatched
  have hsize : 0 < size := h.size_eq ▸ s.segmentSize_pos
  refine ⟨s', hrun, ⟨hw.toReady, hw.segmentSize_eq.trans h.size_eq, hw.within h.within, ?_, ?_, ?_⟩⟩
  · rw [hw.maxWritten_eq, h.len_eq, hlen]
  · intro o hreach
    rw [hdata]
    by_cases hin : w.1 ≤ o ∧ o < w.1 + w.2.length
    · rw [hp.image_in (by omega) hin.1 hin.2, getElem?_overwrite_in hin.1 hin.2, length_overwrite]
      exact ⟨by omega, rfl⟩
    by_cases hold : Reached size ws o
    · obtain ⟨hlt, himg⟩ := h.reached o hold
      rw [List.getElem?_eq_getElem hlt] at himg
      rw [hp.image_out (by omega) himg, getElem?_overwrite_out (by omega) hlt,
        List.getElem?_eq_getElem hlt, length_overwrite]
      exact ⟨by omega, rfl⟩
    · -- The offset lies in the gap below the write, and the file is filled up to it.
      have hnew : Reaches size o w := (reached_append_singleton.mp hreach).resolve_left hold
      have hgap : o < w.1 := by
        rw [Reaches] at hnew
        omega
      obtain ⟨hnone, hzero⟩ := h.hole o hold
      rw [← h.size_eq] at hnew
      rw [hp.image_gap (by omega) hgap hnew hnone, overwrite_zero hin hzero (by omega),
        length_overwrite]
      exact ⟨by omega, rfl⟩
  · intro o hreach
    obtain ⟨hold, hnew⟩ := not_or.mp (mt reached_append_singleton.mpr hreach)
    obtain ⟨hnone, hzero⟩ := h.hole o hold
    refine ⟨hp.image_unreached (by rw [h.size_eq]; exact hnew) hnone, fun hlt => ?_⟩
    rw [hdata]
    exact overwrite_zero (fun hin => hnew (reaches_of_mem hsize hin.1 hin.2)) hzero (by omega)

theorem Mirrors.writeEach (h : Mirrors size ws s mem) {ws' : List (Nat × List UInt8)}
    (hmem : WalStore.writeEach mem ws' = some mem') :
    ∃ s', WalStore.writeEach s ws' = some s' ∧ Mirrors size (ws ++ ws') s' mem' := by
  induction ws' generalizing ws s mem with
  | nil =>
      cases hmem
      exact ⟨s, rfl, by rw [List.append_nil]; exact h⟩
  | cons w ws' ih =>
      obtain ⟨mem1, hstep, hmem⟩ := Option.bind_eq_some_iff.mp hmem
      obtain ⟨_, hstep⟩ := Act.final_eq_some hstep
      obtain ⟨s1, hrun, h1⟩ := h.write hstep
      obtain ⟨s', hrest, h'⟩ := ih h1 hmem
      refine ⟨s', ?_, by rw [List.append_cons]; exact h'⟩
      rw [WalStore.writeEach, run_cons (Act.final_ok hrun)]
      exact hrest

theorem Mirrors.isSome_iff (h : Mirrors size ws s mem) (o : Nat) :
    (s.image o).isSome = true ↔ Reached size ws o := by
  constructor
  · intro hsome
    by_contra hold
    rw [(h.hole o hold).1] at hsome
    cases hsome
  · intro hreach
    obtain ⟨hlt, himg⟩ := h.reached o hreach
    rw [himg, List.getElem?_eq_getElem hlt]
    rfl

/-- The two stores answer a read alike if it meets no hole. -/
theorem Mirrors.readAt_iff (h : Mirrors size ws s mem) {off : Nat} (hoff : off < 2 ^ 64) (n : Nat) :
    (WalStore.readAt off n s).1 = (WalStore.readAt off n mem).1 ↔
      ∀ o, off ≤ o → o < off + n → o < mem.data.length → Reached size ws o := by
  have hsub : ∀ o b, s.image o = some b → mem.data[o]? = some b := by
    intro o b hb
    have hreach := (h.isSome_iff o).mp (by rw [hb]; rfl)
    rw [← (h.reached o hreach).2, hb]
  obtain ⟨s', hrun, -⟩ := readAt_available h.toReady h.within (h.len_eq ▸ mem.data_lt)
    (Or.inl hoff) n
  rw [hrun, MemStore.readAt_eq, Except.ok.injEq, ← Image.available_ofList,
    Image.available_eq_ofList_iff hsub]
  simp only [h.isSome_iff]

end Mirrors

end SegmentedStore

/-- Whatever writes memory takes, in any order and leaving gaps, the segmented store takes
them as well and is as long afterwards.  A read is answered alike exactly if something was
written at each of its offsets below the length, or above it in the same segment. -/
theorem gaps_readAlike_iff_reached (size : Nat) (hsize : 0 < size) (created : Bool)
    (ws : List (Nat × List UInt8)) (mem : MemStore)
    (hmem : WalStore.writeEach (⟨[], by decide⟩ : MemStore) ws = some mem) :
    ∃ s0 s, openDir size created Dir.empty = (.ok s0, Dir.empty) ∧
      WalStore.writeEach s0 ws = some s ∧ (WalStore.len s).1 = (WalStore.len mem).1 ∧
      ∀ off < 2 ^ 64, ∀ n, (WalStore.readAt off n s).1 = (WalStore.readAt off n mem).1 ↔
        ∀ o, off ≤ o → o < off + n → o < mem.data.length → Reached size ws o := by
  obtain ⟨s0, hopen, ho⟩ := openDir_ok hsize created (d := Dir.empty) rfl
  obtain ⟨s, hrun, h⟩ := ho.mirrors.writeEach hmem
  refine ⟨s0, s, hopen, hrun, ?_, fun off hoff n => h.readAt_iff hoff n⟩
  show Except.ok s.maxWritten = Except.ok mem.data.length
  rw [h.len_eq]

/-- Segments of eight bytes: each file is written above a gap, and filled up to the write. -/
theorem gaps_readAlike_iff_reached_filled :
    0 < 8 ∧ ∃ (mem : MemStore) (s0 s : SegmentedStore),
      WalStore.writeEach (⟨[], by decide⟩ : MemStore) [(10, [1]), (3, [2, 3, 4, 5, 6])] = some mem ∧
      openDir 8 true Dir.empty = (.ok s0, Dir.empty) ∧
      WalStore.writeEach s0 [(10, [1]), (3, [2, 3, 4, 5, 6])] = some s ∧
      (WalStore.readAt 0 11 s).1 = (WalStore.readAt 0 11 mem).1 ∧ mem.data.length = 11 := by
  have hmem : WalStore.writeEach (⟨[], by decide⟩ : MemStore) [(10, [1]), (3, [2, 3, 4, 5, 6])] =
      some ⟨[0, 0, 0, 2, 3, 4, 5, 6, 0, 0, 1], by decide⟩ := rfl
  obtain ⟨s0, s, hopen, hrun, -, h⟩ := gaps_readAlike_iff_reached 8 (by decide) true _ _ hmem
  have hall : ∀ o < 11, Reached 8 [(10, [1]), (3, [2, 3, 4, 5, 6])] o := by decide
  exact ⟨by decide, _, s0, s, hmem, hopen, hrun, (h 0 (by decide) 11).mpr fun o _ _ hlt => hall o hlt, rfl⟩

/-- Segments of eight bytes, one byte in the first, none in the second and one in the third:
reads end in the first segment and before the second, and memory goes on. -/
theorem gaps_end_reads :
    ∃ (s0 s : SegmentedStore) (mem : MemStore),
      openDir 8 true Dir.empty = (.ok s0, Dir.empty) ∧
      WalStore.writeEach s0 [(0, [9]), (16, [1])] = some s ∧
      WalStore.writeEach (⟨[], by decide⟩ : MemStore) [(0, [9]), (16, [1])] = some mem ∧
      (WalStore.len s).1 = .ok 17 ∧ (WalStore.len mem).1 = .ok 17 ∧
      (WalStore.readAt 0 17 s).1 = .ok [9] ∧
      (WalStore.readAt 0 17 mem).1 = .ok [9, 0, 0, 0, 0, 0, 0, 0, 0, 0, 0, 0, 0, 0, 0, 0, 1] ∧
      (WalStore.readAt 8 9 s).1 = .ok [] ∧
      (WalStore.readAt 8 9 mem).1 = .ok [0, 0, 0, 0, 0, 0, 0, 0, 1] := by
  obtain ⟨s0, hopen, -⟩ := openDir_ok (show 0 < 8 by decide) true (d := Dir.empty) rfl
  have hobs : ((openDir 8 true Dir.empty).1.toOption.bind fun s0 =>
      (WalStore.writeEach s0 [(0, [9]), (16, [1])]).map fun s =>
        (decide ((WalStore.len s).1.toOption = some 17),
          decide ((WalStore.readAt 0 17 s).1.toOption = some [9]),
          decide ((WalStore.readAt 8 9 s).1.toOption = some []))) = some (true, true, true) := by
    decide +kernel
  rw [hopen] at hobs
  obtain ⟨s, hrun, hobs⟩ := Option.map_eq_some_iff.mp hobs
  simp only [Prod.mk.injEq, decide_eq_true_eq] at hobs
  obtain ⟨hlen, hshort, hmissing⟩ := hobs
  exact ⟨s0, s, ⟨[9, 0, 0, 0, 0, 0, 0, 0, 0, 0, 0, 0, 0, 0, 0, 0, 1], by decide⟩, hopen, hrun, rfl,
    Act.eq_ok_of_toOption hlen, rfl, Act.eq_ok_of_toOption hshort, rfl,
    Act.eq_ok_of_toOption hmissing, rfl⟩

end WalDb
