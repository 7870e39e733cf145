/-
A `truncate_before` that fails, on a log that stays open.

The segments are removed one by one, and the store and the log move their heads only when
the last removal has returned.  Where one fails the heads are left behind: they still
point at the old head, while segments between it and the new one may be gone.  The
iterator starts at the old head, so it meets the gap, takes it for the end of the log and
stops before the records that were kept.
-/
import WalDb.Damage
import WalDb.Segment.Changes
import WalDb.Segment.Sound
import WalDb.Segment.Striping

namespace WalDb

open Lib Record SegmentedStore

namespace SegmentedStore

/-! ## What a failed call leaves -/

/-- A stage of `truncate_before` before it moves the head: some segments below `keep` may be
gone, and their handles with them. -/
structure Dropping (keep : Nat) (s s' : SegmentedStore) : Prop extends Thinned keep s s' where
  maxWritten_eq : s'.maxWritten = s.maxWritten
  head_eq : s'.head = s.head
  handles_ok : ∀ i ∈ s'.handles, (s'.seg i).isSome = true

section Dropping

variable {keep : Nat} {s0 s : SegmentedStore}

theorem Dropping.refl (h : ∀ i ∈ s.handles, (s.seg i).isSome = true) (keep : Nat) :
    Dropping keep s s :=
  ⟨⟨rfl, fun _ => Or.inl rfl, fun _ _ => rfl⟩, rfl, rfl, h⟩

theorem Dropping.change (h : Dropping keep s0 s) {c : Change} (hc : ByDrop keep c)
    (hlegal : c.Legal s) : Dropping keep s0 (c.apply s) := by
  have hseg : ∀ i, (c.apply s).seg i = s.seg i ∨ (c.apply s).seg i = none ∧ i < keep := by
    intro i
    rw [c.apply_seg]
    cases c with
    | unlink index =>
        by_cases hi : i = index
        · exact Or.inr ⟨if_pos hi, hi ▸ hc⟩
        · exact Or.inl (if_neg hi)
    | call | marker headFile tmp | close index => exact Or.inl rfl
    | _ => exact hc.elim
  refine ⟨⟨(c.apply_segmentSize s).trans h.segmentSize_eq, fun i => ?_, fun i hi => ?_⟩,
    (c.apply_maxWritten s).trans h.maxWritten_eq, (c.apply_head s).trans h.head_eq,
    HandlesOk.change h.handles_ok hlegal⟩
  · rcases hseg i with heq | ⟨hnone, -⟩
    · rw [heq]
      exact h.gone i
    · exact Or.inr hnone
  · rcases hseg i with heq | ⟨-, hlt⟩
    · rw [heq]
      exact h.kept i hi
    · omega

/-- A call that fails has removed some of the segments that it was to remove, and nothing
else has changed. -/
theorem truncateBefore_failed {s' : SegmentedStore} {off : Nat} {e : Fault}
    (h : ∀ i ∈ s.handles, (s.seg i).isSome = true)
    (hrun : WalStore.truncateBefore off s = (.error e, s')) :
    Dropping (s.keepFrom (s.clampedHead off)) s s' :=
  walk_invariant (fun _ _ hc hlegal hd => hd.change hc hlegal)
    ((truncateBefore_ends off).error hrun).1 (Dropping.refl h _)

theorem Dropping.within (h : Dropping keep s0 s) (hs : s0.Within) : s.Within := by
  intro i n hn
  rw [h.segmentSize_eq, h.maxWritten_eq]
  rcases h.segLen i with heq | hnone
  · exact hs i n (heq ▸ hn)
  · rw [hnone] at hn
    cases hn

/-- A byte is left as it was, or is gone with its segment. -/
theorem Dropping.image_eq (h : Dropping keep s0 s) (o : Nat) :
    s.image o = s0.image o ∨ s.image o = none := by
  rcases h.gone (o / s0.segmentSize) with heq | hnone
  · exact Or.inl (image_eq_of_seg h.segmentSize_eq heq)
  · right
    rw [image, h.segmentSize_eq, hnone]
    split <;> rfl

end Dropping

/-! ## Which call fails -/

/-- The outcomes of the system calls where `k` succeed, one fails and all others succeed. -/
def failAt (k : Nat) : List Bool := List.replicate k false ++ [true]

/-- The segments of a listing that are removed before the loop has made its call number `k`.
It makes one for every entry, and one more to remove a segment. -/
def removedBy (keepFrom : Nat) : Nat → List Nat → List Nat
  | _, [] => []
  | k, index :: rest =>
      if index < keepFrom then
        if k < 2 then [] else index :: removedBy keepFrom (k - 2) rest
      else removedBy keepFrom (k - 1) rest

/-- The segments that `truncate_before` removes before its call number `k`.  Five calls write
the marker and one starts the listing. -/
def removedBefore (s : SegmentedStore) (offset k : Nat) : List Nat :=
  removedBy (s.keepFrom (s.clampedHead offset)) (k - 6) s.dir.segments.keys

theorem removedBy_zero (keepFrom : Nat) (entries : List Nat) : removedBy keepFrom 0 entries = [] := by
  induction entries with
  | nil => rfl
  | cons index rest ih =>
      rw [removedBy]
      split
      · rfl
      · exact ih

theorem mem_of_removedBy {keepFrom k i : Nat} {entries : List Nat}
    (h : i ∈ removedBy keepFrom k entries) : i ∈ entries := by
  induction entries generalizing k with
  | nil => exact h
  | cons index rest ih =>
      rw [removedBy] at h
      split at h
      · split at h
        · cases h
        · rcases List.mem_cons.mp h with rfl | h
          · exact List.mem_cons_self
          · exact List.mem_cons_of_mem _ (ih h)
      · exact List.mem_cons_of_mem _ (ih h)

/-- The files are `files`, and the call that fails is number `k` from here. -/
def Facing (files : Nat → Option File) (k : Nat) (s : SegmentedStore) : Prop :=
  s.dir.faults = failAt k ∧ s.seg = files

/-- The files are `files`, and the call that was to fail has. -/
def Struck (files : Nat → Option File) (s : SegmentedStore) : Prop :=
  s.dir.faults = [] ∧ s.seg = files

section Facing

variable {files : Nat → Option File} {k : Nat} {s : SegmentedStore}

theorem Facing.os (h : Facing files k s) (context : String) :
    (os context).Ends s (fun _ s' => 0 < k ∧ Facing files (k - 1) s')
      fun _ s' => k = 0 ∧ Struck files s' := by
  obtain ⟨⟨segments, headFile, headTmpFile, faults⟩, _, _, _, _, _, _, _, _⟩ := s
  obtain ⟨rfl, hseg⟩ := h
  cases k with
  | zero => exact Act.ends_of_error rfl ⟨rfl, rfl, hseg⟩
  | succ k => exact Act.ends_of_ok rfl ⟨Nat.succ_pos k, rfl, hseg⟩

theorem Facing.writeHeadFile (h : Facing files k s) (head : Nat) :
    (writeHeadFile head).Ends s (fun _ s' => 5 ≤ k ∧ Facing files (k - 5) s')
      fun _ s' => k < 5 ∧ Struck files s' := by
  have hos : ∀ {j : Nat} {t : SegmentedStore}, j < 5 → j ≤ k ∧ Facing files (k - j) t →
      ∀ context, (SegmentedStore.os context).Ends t
        (fun _ t' => j + 1 ≤ k ∧ Facing files (k - (j + 1)) t') fun _ t' => k < 5 ∧ Struck files t' :=
    fun hj ht context => (ht.2.os context).mono (fun _ _ h' => ⟨by omega, h'.2⟩)
      fun _ _ h' => ⟨by omega, h'.2⟩
  have hmarker : ∀ {j : Nat} {t : SegmentedStore} {f : Dir → Dir},
      (f t.dir).faults = t.dir.faults → (f t.dir).segments = t.dir.segments →
      j ≤ k ∧ Facing files (k - j) t → (onDir (Act.modify f)).Ends t
        (fun _ t' => j ≤ k ∧ Facing files (k - j) t') fun _ t' => k < 5 ∧ Struck files t' := by
    intro j t f hfaults hsegments ht
    refine Act.ends_of_ok (onDir_modify f t) ⟨ht.1, hfaults.trans ht.2.1, ?_⟩
    exact Eq.trans (funext fun i => congrArg (AList.lookup i) hsegments) ht.2.2
  refine (hos (j := 0) (by decide) ⟨Nat.zero_le k, h⟩ _).bind fun _ s1 h1 => ?_
  refine (hmarker rfl rfl h1).bind fun _ s2 h2 => (hos (by decide) h2 _).bind fun _ s3 h3 => ?_
  refine (hmarker rfl rfl h3).bind fun _ s4 h4 => (hos (by decide) h4 _).bind fun _ s5 h5 => ?_
  refine (hos (by decide) h5 _).bind fun _ s6 h6 => (hmarker rfl rfl h6).bind fun _ s7 h7 => ?_
  exact hos (by decide) h7 _

/-- The loop that removes the segments stops at the call that fails. -/
theorem Facing.dropEntries (h : Facing files k s) (keepFrom : Nat) (entries : List Nat) :
    (dropEntries keepFrom entries).Ends s (fun _ _ => True) fun _ =>
      Struck fun i => if i ∈ removedBy keepFrom k entries then none else files i := by
  induction entries generalizing s k files with
  | nil => exact Act.ends_pure trivial
  | cons index rest ih =>
      refine ((h.os _).mono (fun _ _ h1 => h1) fun _ s1 h1 => ?_).bind fun _ s1 h1 => ?_
      · obtain ⟨rfl, h1⟩ := h1
        simpa [removedBy_zero] using h1
      obtain ⟨hk, h1⟩ := h1
      rw [removedBy]
      by_cases hlt : index < keepFrom
      · rw [if_pos hlt, if_pos hlt]
        refine Act.Ends.bind (Q := fun _ => Facing files (k - 1)) (Act.ends_of_ok rfl h1)
          fun _ s2 h2 => ?_
        refine ((h2.os _).mono (fun _ _ h3 => h3) fun _ s3 h3 => ?_).bind fun _ s3 h3 => ?_
        · rw [if_pos (show k < 2 by omega)]
          simpa using h3.2
        obtain ⟨hk1, h3⟩ := h3
        rw [if_neg (show ¬ k < 2 by omega)]
        have h4 : Facing (fun i => if i = index then none else files i) (k - 2)
            { s3 with dir := { s3.dir with segments := s3.dir.segments.erase index } } := by
          refine ⟨by exact h3.1, funext fun i => (seg_erase s3 index i).trans ?_⟩
          rw [h3.2]
        refine Act.Ends.bind (Act.ends_of_ok (onDir_modify _ _) h4) fun _ s4 h4 =>
          (ih h4).mono (fun _ _ h5 => h5) fun _ s5 h5 => ⟨h5.1, h5.2.trans (funext fun i => ?_)⟩
        by_cases hi : i = index <;> simp [hi]
      · rw [if_neg hlt, if_neg hlt]
        exact ih h1

/-- So far a `truncate_before` has come that fails at its call number `k`. -/
theorem truncateBefore_struck {off : Nat} {e : WalError} {s' : SegmentedStore}
    (h : s.dir.faults = failAt k)
    (hrun : WalStore.truncateBefore off s = (.error (.err e), s')) :
    Struck (fun i => if i ∈ s.removedBefore off k then none else s.seg i) s' := by
  have hrun : truncateBefore off s = (.error (.err e), s') := hrun
  by_cases hle : s.maxWritten < s.head
  · rw [truncateBefore, Act.get_bind] at hrun
    dsimp only at hrun
    rw [if_pos hle] at hrun
    cases hrun
  have hnone : k < 6 → ∀ {t}, Struck s.seg t →
      Struck (fun i => if i ∈ s.removedBefore off k then none else s.seg i) t := by
    intro hk t ht
    rw [removedBefore, Nat.sub_eq_zero_of_le (Nat.le_of_lt hk), removedBy_zero]
    simpa using ht
  have hends : (truncateBefore off).Ends s (fun _ _ => True) fun _ =>
      Struck fun i => if i ∈ s.removedBefore off k then none else s.seg i := by
    refine Act.ends_get_bind ?_
    dsimp only
    rw [if_neg hle]
    have hstart : Facing s.seg k s := ⟨h, rfl⟩
    refine ((hstart.writeHeadFile _).mono (fun _ _ h1 => h1)
      fun _ _ h1 => hnone (by omega) h1.2).bind fun _ s1 h1 => ?_
    refine ((h1.2.os _).mono (fun _ _ h2 => h2) fun _ _ h2 => hnone (by omega) h2.2).bind
      fun _ s2 h2 => ?_
    exact (h2.2.dropEntries _ _).bind fun _ s3 _ => Act.ends_of_ok rfl trivial
  exact hends.error hrun

end Facing

end SegmentedStore

namespace Wal

/-! ## The log afterwards -/

/-- The records `ps` lie between the head and the watermark of the log, and no file reaches
past the end of its store. -/
structure Readable (wal : Wal SegmentedStore) (ps : List (List UInt8)) : Prop where
  max_lt : wal.maxRecordSize < 2 ^ 32
  handles_ok : ∀ i ∈ wal.store.handles, (wal.store.seg i).isSome = true
  within : wal.store.Within
  fits : wal.store.maxWritten < 2 ^ 64
  head_eq : wal.store.head = wal.head
  intact : Intact wal.store.image wal.maxRecordSize wal.head ps
  end_eq : wal.commit.committed = wal.head + (frames ps).length
  end_lt : wal.commit.committed < 2 ^ 64

theorem Sound.readable {config : WalConfig} {wal : Wal SegmentedStore} {ps : List (List UInt8)}
    (h : Sound config wal ps) : Readable wal ps where
  max_lt := h.max_lt
  handles_ok := h.ready.handles_ok
  within := fun i n hn => h.ends.reach h.short hn
  fits := h.fits
  head_eq := h.head_eq
  intact := h.intact
  end_eq := h.committed_eq.trans h.end_eq.symm
  end_lt := by
    rw [h.committed_eq, h.tail_eq]
    exact h.fits

section Failed

variable {wal wal' : Wal SegmentedStore} {ps1 ps2 : List (List UInt8)} {lsn : Nat} {e : Fault}

/-- The log that a failed call leaves differs in its store only. -/
theorem truncateBefore_error (h : truncateBefore lsn wal = (.error e, wal')) :
    ∃ s', WalStore.truncateBefore lsn wal.store = (.error e, s') ∧
      wal' = { wal with store := s' } := by
  cases hrun : WalStore.truncateBefore lsn wal.store with
  | mk r s' =>
      cases r with
      | ok newHead =>
          rw [truncateBefore, Act.bind_ok (onStore_ok hrun)] at h
          cases h
      | error e' =>
          rw [truncateBefore, Act.bind_error (onStore_error hrun)] at h
          cases h
          exact ⟨s', rfl, rfl⟩

/-- The segments from `first` on that were there are still there. -/
def KeptFrom (s s' : SegmentedStore) (first : Nat) : Prop :=
  ∀ i, (s.seg i).isSome = true → s'.seg i = none → i < first

/-- If no segment from that of the head on is gone, iteration yields what it did before. -/
theorem Readable.collect_kept {ps : List (List UInt8)} (h : wal.Readable ps) {keep : Nat}
    {s' : SegmentedStore} (hd : Dropping keep wal.store s') (hfaults : s'.dir.faults = [])
    (hkept : KeptFrom wal.store s' (wal.head / wal.store.segmentSize)) :
    (wal.iter.collect { wal with store := s' }).1 = .ok ((recordsFrom wal.head ps).map .ok) := by
  have hsame : ∀ o, wal.head ≤ o → o < wal.head + (frames ps).length →
      wal.store.image o = s'.image o := by
    intro o ho _
    rcases hd.gone (o / wal.store.segmentSize) with heq | hnone
    · exact (image_eq_of_seg hd.segmentSize_eq heq).symm
    · cases hs : wal.store.seg (o / wal.store.segmentSize) with
      | none => exact (image_eq_of_seg hd.segmentSize_eq (hnone.trans hs.symm)).symm
      | some file =>
          have := hkept _ (by rw [hs]; rfl) hnone
          have := Nat.div_le_div_right (c := wal.store.segmentSize) ho
          omega
  have hB := (hd.within h.within).bounded (by rw [hd.maxWritten_eq]; exact h.fits)
  obtain ⟨s'', hcol, -⟩ := @Iter.collect_intact _ _ _ _ _ hB.serves { wal with store := s' } h.max_lt
    ps wal.iter (h.intact.congr (Nat.le_refl _) hsame) rfl h.end_eq
    (SameFiles.refl ⟨hfaults, hd.handles_ok⟩)
  rw [hcol]
  rfl

/-- If a segment between the head and `lsn` is gone, iteration ends before `lsn`. -/
theorem Readable.collect_gone (h : wal.Readable (ps1 ++ ps2))
    (hlsn : lsn = wal.head + (frames ps1).length) {s' : SegmentedStore}
    (hd : Dropping (wal.store.keepFrom (wal.store.clampedHead lsn)) wal.store s')
    (hfaults : s'.dir.faults = []) {i : Nat} (hgone : s'.seg i = none)
    (hlo : wal.head / wal.store.segmentSize ≤ i)
    (hhi : i < wal.store.keepFrom (wal.store.clampedHead lsn)) :
    ∃ qs p rs, ps1 = qs ++ p :: rs ∧
      (wal.iter.collect { wal with store := s' }).1 =
        .ok ((recordsFrom wal.head qs).map .ok) := by
  have hsize := wal.store.segmentSize_pos
  have hend := h.end_eq
  rw [frames_append, List.length_append] at hend
  -- All of the segment lies below `lsn`, and some of it at or above the head.
  have hbelow : (i + 1) * wal.store.segmentSize ≤ lsn := by
    have hclamp : wal.store.clampedHead lsn ≤ lsn := by
      rw [clampedHead, h.head_eq]
      omega
    have hkeep : wal.store.keepFrom (wal.store.clampedHead lsn) ≤ lsn / wal.store.segmentSize :=
      Nat.le_trans (Nat.min_le_left _ _) (Nat.div_le_div_right hclamp)
    exact (Nat.le_div_iff_mul_le hsize).mp (Nat.lt_of_lt_of_le hhi hkeep)
  have habove : wal.head < (i + 1) * wal.store.segmentSize :=
    (Nat.div_lt_iff_lt_mul hsize).mp (Nat.lt_succ_of_le hlo)
  have hmiss : s'.image (max wal.head (i * wal.store.segmentSize)) = none := by
    have hdiv : max wal.head (i * wal.store.segmentSize) / wal.store.segmentSize = i := by
      rw [Nat.succ_mul] at habove
      exact Nat.div_eq_of_lt_le (Nat.le_max_right _ _) (by rw [Nat.succ_mul]; omega)
    rw [image, hd.segmentSize_eq, hdiv, hgone]
    split <;> rfl
  obtain ⟨hintact, -⟩ := intact_append_iff.mp h.intact
  rw [Nat.succ_mul] at hbelow habove
  obtain ⟨qs, p, rs, rfl, hqs, hout⟩ := runsOut_of_missing h.max_lt hintact hd.image_eq
    (Nat.le_max_left _ _) (by omega) hmiss
  refine ⟨qs, p, rs, rfl, ?_⟩
  have hlt : wal.head + (frames qs).length < wal.commit.committed := by
    have hpos : 0 < framedLen p.length := framedLen_pos _
    rw [frames_append, List.length_append, frames_cons, List.length_append, frame_length] at hend
    omega
  have hB := (hd.within h.within).bounded (by rw [hd.maxWritten_eq]; exact h.fits)
  obtain ⟨s'', hcol, -⟩ := @Iter.collect_runsOut _ _ _ _ _ hB { wal with store := s' } h.max_lt qs
    wal.iter hqs rfl hlt h.end_lt hout (SameFiles.refl ⟨hfaults, hd.handles_ok⟩)
  rw [hcol]
  rfl

/-- The records from `lsn` on can be iterated after a failed call exactly if there are none or
no segment from that of the old head on is gone. -/
theorem Readable.collect_iff_keptFrom (h : wal.Readable (ps1 ++ ps2))
    (hlsn : lsn = wal.head + (frames ps1).length) {s' : SegmentedStore}
    (hd : Dropping (wal.store.keepFrom (wal.store.clampedHead lsn)) wal.store s')
    (hrest : s'.dir.faults = []) :
    (∃ items, (wal.iter.collect { wal with store := s' }).1 = .ok items ∧
        ∀ r ∈ recordsFrom lsn ps2, Except.ok r ∈ items) ↔
      ps2 = [] ∨ KeptFrom wal.store s' (wal.head / wal.store.segmentSize) := by
  -- Where a segment is missing the records of an initial part of `ps1` are yielded.
  have hgone : ¬ KeptFrom wal.store s' (wal.head / wal.store.segmentSize) →
      ∃ qs p rs, ps1 = qs ++ p :: rs ∧
        (wal.iter.collect { wal with store := s' }).1 =
          .ok ((recordsFrom wal.head qs).map .ok) := by
    intro hnot
    simp only [KeptFrom, Classical.not_forall, Nat.not_lt] at hnot
    obtain ⟨i, hsome, hnone, hlo⟩ := hnot
    refine h.collect_gone hlsn hd hrest hnone hlo ?_
    by_contra hge
    rw [← hd.kept i (Nat.not_lt.mp hge), hnone] at hsome
    cases hsome
  constructor
  · rintro ⟨items, hcol, hall⟩
    by_contra hnot
    obtain ⟨hne, hnot⟩ := not_or.mp hnot
    obtain ⟨qs, p, rs, rfl, hcol'⟩ := hgone hnot
    obtain ⟨q, ps2, rfl⟩ := List.exists_cons_of_ne_nil hne
    have hitems : items = (recordsFrom wal.head qs).map .ok :=
      Except.ok.inj (hcol.symm.trans hcol')
    have hmem := hall { lsn := lsn, data := q } (List.mem_cons_self)
    rw [hitems] at hmem
    obtain ⟨r, hr, hreq⟩ := List.mem_map.mp hmem
    obtain ⟨x, hx, rfl⟩ := List.mem_map.mp hr
    have hbound := (mem_located_bounds hx).2
    have hpos := framedLen_pos x.2.length
    have hx1 : x.1 = lsn := congrArg Record.lsn (Except.ok.inj hreq)
    rw [frames_append, List.length_append] at hlsn
    omega
  · rintro (rfl | hkept)
    · by_cases hkept : KeptFrom wal.store s' (wal.head / wal.store.segmentSize)
      · exact ⟨_, h.collect_kept hd hrest hkept, nofun⟩
      · obtain ⟨qs, p, rs, -, hcol⟩ := hgone hkept
        exact ⟨_, hcol, nofun⟩
    · refine ⟨_, h.collect_kept hd hrest hkept, fun r hr => List.mem_map_of_mem ?_⟩
      rw [recordsFrom, located_append, List.map_append, ← hlsn]
      exact List.mem_append_right _ hr

/-- The log with the outcomes that its next system calls have. -/
def withFaults (wal : Wal SegmentedStore) (faults : List Bool) : Wal SegmentedStore :=
  { wal with store := { wal.store with dir := { wal.store.dir with faults := faults } } }

theorem Readable.withFaults {ps : List (List UInt8)} (h : wal.Readable ps) (faults : List Bool) :
    (wal.withFaults faults).Readable ps :=
  ⟨h.max_lt, h.handles_ok, h.within, h.fits, h.head_eq, h.intact, h.end_eq, h.end_lt⟩

/-- A `truncate_before` whose system call number `k` fails, whichever that is, leaves the
records from `lsn` on to be iterated exactly if there are none or the call comes before the
removal of any segment from that of the old head on.  The directory may be listed in any
order. -/
theorem truncateBefore_failed_keeps_iff {k : Nat} {e : WalError} (h : wal.Readable (ps1 ++ ps2))
    (hlsn : lsn = wal.head + (frames ps1).length)
    (hfail : truncateBefore lsn (wal.withFaults (failAt k)) = (.error (.err e), wal')) :
    (∃ items, (wal'.iter.collect wal').1 = .ok items ∧
        ∀ r ∈ recordsFrom lsn ps2, Except.ok r ∈ items) ↔
      ps2 = [] ∨
        ∀ i ∈ wal.store.removedBefore lsn k, i < wal.head / wal.store.segmentSize := by
  obtain ⟨s', hrun, rfl⟩ := truncateBefore_error hfail
  have h' := h.withFaults (failAt k)
  obtain ⟨hrest, hseg⟩ := truncateBefore_struck rfl hrun
  refine (h'.collect_iff_keptFrom hlsn (truncateBefore_failed h'.handles_ok hrun) hrest).trans
    (or_congr_right ?_)
  have hgone : ∀ i, s'.seg i =
      if i ∈ wal.store.removedBefore lsn k then none else wal.store.seg i := congrFun hseg
  constructor
  · intro hkept i hi
    refine hkept i ?_ ((hgone i).trans (if_pos hi))
    exact AList.lookup_isSome.mpr (AList.mem_keys.mpr (mem_of_removedBy hi))
  · intro hbelow i hsome hnone
    by_cases hi : i ∈ wal.store.removedBefore lsn k
    · exact hbelow i hi
    · have hsome : (wal.store.seg i).isSome = true := hsome
      rw [hgone, if_neg hi] at hnone
      rw [hnone] at hsome
      cases hsome

end Failed

/-- Four records of one segment each.  The marker cannot be renamed, so no segment is
removed. -/
theorem truncateBefore_failed_keeps_iff_unmarked :
    ∃ wal wal' e, freshLog smallRecords 8 [[], [], [], []] = some wal ∧
      truncateBefore 16 (wal.withFaults (failAt 3)) = (.error (.err e), wal') ∧
      ∃ items, (wal'.iter.collect wal').1 = .ok items ∧
        ∀ r ∈ recordsFrom 16 [[], []], Except.ok r ∈ items := by
  have hobs : ((freshLog smallRecords 8 [[], [], [], []]).map fun wal =>
      (truncateBefore 16 (wal.withFaults (failAt 3))).1) =
      some (.error (.err (.io "replacing the head marker" .os))) := by
    decide +kernel
  obtain ⟨wal, hfresh, hfail⟩ := Option.map_eq_some_iff.mp hobs
  obtain ⟨hsound, hhead⟩ := sound_freshLog hfresh
  have hread : wal.Readable ([[], []] ++ [[], []]) := hsound.readable
  refine ⟨wal, _, _, hfresh, Prod.ext hfail rfl,
    (truncateBefore_failed_keeps_iff hread ?_ (Prod.ext hfail rfl)).mpr (Or.inr fun i hi => ?_)⟩
  · show 16 = wal.head + _
    rw [hhead]
    decide
  · rw [removedBefore, removedBy_zero] at hi
    cases hi

/-- Segment 1 is removed and the removal of segment 0 fails: the iterator yields the first
record, and neither of the two that were kept. -/
theorem truncateBefore_failed_strands :
    ∃ wal wal' e, freshLog smallRecords 8 [[], [], [], []] = some wal ∧
      truncateBefore 16 (wal.withFaults (failAt 11)) = (.error e, wal') ∧
      wal'.store.dir.faults = [] ∧
      (wal.iter.collect wal).1 = .ok ((recordsFrom 0 [[], [], [], []]).map .ok) ∧
      (wal'.iter.collect wal').1 = .ok ((recordsFrom 0 [[]]).map .ok) := by
  have hobs : ((freshLog smallRecords 8 [[], [], [], []]).map fun wal =>
      let r := truncateBefore 16 (wal.withFaults (failAt 11))
      (r.1.toBool, decide (r.2.store.dir.faults = []),
        decide ((wal.iter.collect wal).1 = .ok ((recordsFrom 0 [[], [], [], []]).map .ok)),
        decide ((r.2.iter.collect r.2).1 = .ok ((recordsFrom 0 [[]]).map .ok)))) =
      some (false, true, true, true) := by
    decide +kernel
  obtain ⟨wal, hfresh, hobs⟩ := Option.map_eq_some_iff.mp hobs
  simp only [Prod.mk.injEq, decide_eq_true_eq] at hobs
  obtain ⟨hfail, hrest, hbefore, hafter⟩ := hobs
  obtain ⟨e, hfail⟩ := Act.eq_error_of_toBool hfail
  exact ⟨wal, _, e, hfresh, hfail, hrest, hbefore, hafter⟩

end Wal

end WalDb
