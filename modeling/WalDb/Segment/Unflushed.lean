/-
What is not flushed yet, in a segmented store whose calls may fail.

`sync` flushes the directory and its parent if their flags are set, and the open segments from
`syncedFrom` on.  So three things matter about every other call: it clears no flag, it sets
that of the directory if it creates a file, and the bytes it adds lie in segments that are
open and within the window.  Writes that fail half way are no exception.
-/
import WalDb.Segment.Durable
import WalDb.Segment.FailedWrite

namespace WalDb

open Lib Lib.Act Relation

namespace SegmentedStore

/-! ## The flags -/

/-- No flag has been cleared. -/
structure Flagged (s0 s : SegmentedStore) : Prop where
  dirDirty : s0.dirDirty = true → s.dirDirty = true
  parentDirty_eq : s.parentDirty = s0.parentDirty

section Flagged

variable {s0 s s' : SegmentedStore}

theorem Flagged.refl (s : SegmentedStore) : Flagged s s := ⟨fun h => h, rfl⟩

theorem Flagged.trans (h : Flagged s0 s) (h' : Flagged s s') : Flagged s0 s' :=
  ⟨fun hd => h'.dirDirty (h.dirDirty hd), h'.parentDirty_eq.trans h.parentDirty_eq⟩

/-- A change that clears no flag. -/
def Change.KeepsFlags : Change → Prop
  | .flagDir _ | .flagParent _ => False
  | _ => True

theorem Flagged.change (h : Flagged s0 s) {c : Change} (hc : c.KeepsFlags) :
    Flagged s0 (c.apply s) := by
  cases c with
  | create index | cutOff index => exact ⟨fun _ => rfl, h.parentDirty_eq⟩
  | flagDir dirty | flagParent dirty => exact hc.elim
  | _ => exact ⟨h.dirDirty, h.parentDirty_eq⟩

theorem walk_flagged {may : Change → Prop} (hmay : ∀ c, may c → c.KeepsFlags)
    (h : ReflTransGen (Step may) s s') : Flagged s s' :=
  walk_invariant (fun _ c hc _ hf => hf.change (hmay c hc)) h (Flagged.refl s)

theorem readAt_flagged (off n : Nat) :
    (WalStore.readAt off n).Ends s (fun _ => Flagged s) fun _ => Flagged s := by
  have hmay : ∀ c, ByRead c → c.KeepsFlags := fun c hc => by
    cases c <;> first | exact trivial | exact hc.elim
  exact Ends.mono (readAt_walks off n) (fun _ _ h => walk_flagged hmay h.1)
    fun _ _ h => walk_flagged hmay h.1

theorem truncate_flagged (len : Nat) :
    (WalStore.truncate len).Ends s (fun _ => Flagged s) fun _ => Flagged s := by
  have hmay : ∀ last here c, ByTruncate last here c → c.KeepsFlags := fun last here c hc => by
    cases c <;> first | exact trivial | exact hc.elim
  refine (truncate_ends len).mono ?_ fun _ _ h => walk_flagged (hmay _ _) h.1
  rintro _ _ ⟨s1, h, rfl⟩
  have hf := walk_flagged (hmay _ _) h
  exact ⟨hf.dirDirty, hf.parentDirty_eq⟩

end Flagged

/-! ## Writing -/

/-- What a write at `off` that may have stopped half way has done: new bytes lie in open
segments from that of `off` on, and new names are flagged. -/
structure Adding (off : Nat) (s0 s : SegmentedStore) : Prop extends Flagged s0 s where
  segmentSize_eq : s.segmentSize = s0.segmentSize
  syncedFrom_eq : s.syncedFrom = s0.syncedFrom
  handles_ge : ∀ i ∈ s0.handles, i ∈ s.handles
  present : ∀ i, (s0.seg i).isSome = true → (s.seg i).isSome = true
  created : ∀ i, (s.seg i).isSome = true → (s0.seg i).isSome = true ∨ s.dirDirty = true
  durable_eq : s.durableImage = s0.durableImage
  added : ∀ o b, s.image o = some b → s0.image o = some b ∨
    off / s0.segmentSize ≤ o / s0.segmentSize ∧ o / s0.segmentSize ∈ s.handles

section Adding

variable {off : Nat} {s0 s s1 s2 : SegmentedStore}

theorem Adding.refl (off : Nat) (s : SegmentedStore) : Adding off s s :=
  ⟨Flagged.refl s, rfl, rfl, fun _ hi => hi, fun _ hi => hi, fun _ hi => Or.inl hi, rfl,
    fun _ _ hb => Or.inl hb⟩

theorem Adding.step (h : Adding off s0 s1) (h' : Adding off s1 s2) : Adding off s0 s2 where
  toFlagged := h.toFlagged.trans h'.toFlagged
  segmentSize_eq := h'.segmentSize_eq.trans h.segmentSize_eq
  syncedFrom_eq := h'.syncedFrom_eq.trans h.syncedFrom_eq
  handles_ge i hi := h'.handles_ge i (h.handles_ge i hi)
  present i hi := h'.present i (h.present i hi)
  created i hi := by
    rcases h'.created i hi with hi | hd
    · exact (h.created i hi).imp_right h'.dirDirty
    · exact Or.inr hd
  durable_eq := h'.durable_eq.trans h.durable_eq
  added o b hb := by
    rcases h'.added o b hb with hb | hat
    · exact (h.added o b hb).imp_right fun hat => ⟨hat.1, h'.handles_ge _ hat.2⟩
    · rw [h.segmentSize_eq] at hat
      exact Or.inr hat

/-- A file is created, or a chunk goes into an open one. -/
theorem adding_change {c : Change} {endAt : Nat} (hc : ByWrite s.segmentSize off endAt c)
    (hlegal : c.Legal s) : Adding off s (c.apply s) := by
  have hdurable : (c.apply s).durableImage = s.durableImage := by
    funext o
    rw [durableImage, durableImage, c.apply_segmentSize, c.apply_seg]
    cases c with
    | call => rfl
    | create index | write pos chunk =>
        simp only [Change.onFile]
        split
        · cases s.seg (o / s.segmentSize) <;> rfl
        · rfl
    | _ => exact hc.elim
  cases c with
  | call =>
      exact ⟨⟨fun hd => hd, rfl⟩, rfl, rfl, fun _ hi => hi, fun _ hi => hi, fun _ hi => Or.inl hi,
        hdurable, fun _ _ hb => Or.inl hb⟩
  | create index =>
      refine ⟨⟨fun _ => rfl, rfl⟩, rfl, rfl, fun i => List.mem_cons_of_mem _, fun i hi => ?_,
        fun i _ => Or.inr rfl, hdurable, fun o b hb => Or.inl ?_⟩
      · rw [Change.apply_seg, Change.onFile]
        split
        · rfl
        · exact hi
      · rwa [Change.image_eq] at hb
        intro i file
        simp only [Change.onFile]
        split <;> cases file <;> rfl
  | write pos chunk =>
      have hsome : ∀ i, (((Change.write pos chunk).apply s).seg i).isSome = (s.seg i).isSome := by
        intro i
        rw [Change.apply_seg, Change.onFile]
        split
        · exact Option.isSome_map
        · rfl
      refine ⟨⟨fun hd => hd, rfl⟩, rfl, rfl, fun _ hi => hi, fun i hi => (hsome i).trans hi,
        fun i hi => Or.inl ((hsome i).symm.trans hi), hdurable, fun o b hb => ?_⟩
      by_cases hi : o / s.segmentSize = pos / s.segmentSize
      · rw [hi]
        exact Or.inr ⟨Nat.div_le_div_right hc.1, hlegal.1⟩
      · left
        rw [image, Change.apply_segmentSize, Change.apply_seg, Change.onFile, if_neg hi] at hb
        exact hb
  | _ => exact hc.elim

theorem walk_adding {endAt : Nat} (h : ReflTransGen (Step (ByWrite s.segmentSize off endAt)) s s1) :
    Adding off s s1 := by
  refine walk_invariant (fun t c hc hlegal ht => ?_) h (Adding.refl off s)
  rw [← ht.segmentSize_eq] at hc
  exact ht.step (adding_change hc hlegal)

theorem writeAt_adding {bytes : List UInt8} (hfit : off + bytes.length < 2 ^ 64) :
    (WalStore.writeAt off bytes).Ends s (fun _ => Adding off s) fun _ => Adding off s := by
  refine (writeAt_walks hfit).mono ?_ fun _ _ h => walk_adding h.1
  rintro _ _ ⟨s1, h, -, rfl⟩
  have ha := walk_adding h
  exact ⟨⟨ha.dirDirty, ha.parentDirty_eq⟩, ha.segmentSize_eq, ha.syncedFrom_eq, ha.handles_ge,
    ha.present, ha.created, ha.durable_eq, ha.added⟩

end Adding

/-! ## Flushing -/

/-- What `sync` does after the directories. -/
def flushWindow : Act SegmentedStore Fault Unit := do
  let s ← Act.get
  let written := s.maxWritten
  if written = 0 then pure ()
  else do
    let active := (written - 1) / s.segmentSize
    flushSegments (List.range' s.syncedFrom (active + 1 - s.syncedFrom))
    Act.modify fun s => { s with syncedFrom := active }

theorem sync_eq : (WalStore.sync : Act SegmentedStore Fault Unit) = flushDirs >>= fun _ => flushWindow :=
  rfl

/-- Some of the files have been flushed. -/
structure Flushing (s0 s : SegmentedStore) : Prop where
  segmentSize_eq : s.segmentSize = s0.segmentSize
  handles_eq : s.handles = s0.handles
  maxWritten_eq : s.maxWritten = s0.maxWritten
  dirDirty_eq : s.dirDirty = s0.dirDirty
  parentDirty_eq : s.parentDirty = s0.parentDirty
  seg_eq : ∀ i, s.seg i = s0.seg i ∨ s.seg i = (s0.seg i).map File.durableSync

section Flushing

variable {s0 s s1 : SegmentedStore} {o : Nat}

theorem Flushing.refl (s : SegmentedStore) : Flushing s s :=
  ⟨rfl, rfl, rfl, rfl, rfl, fun _ => Or.inl rfl⟩

theorem Flushing.change (h : Flushing s0 s) {c : Change} (hc : ByFlush c) :
    Flushing s0 (c.apply s) := by
  cases c with
  | call =>
      exact ⟨h.segmentSize_eq, h.handles_eq, h.maxWritten_eq, h.dirDirty_eq, h.parentDirty_eq, h.seg_eq⟩
  | flush index =>
      refine ⟨h.segmentSize_eq, h.handles_eq, h.maxWritten_eq, h.dirDirty_eq, h.parentDirty_eq,
        fun i => ?_⟩
      rw [Change.apply_seg, Change.onFile]
      split
      · refine Or.inr ?_
        rcases h.seg_eq i with heq | heq
        · rw [heq]
        · rw [heq, Option.map_map]
          rfl
      · exact h.seg_eq i
  | _ => exact hc.elim

theorem walk_flushing (h : ReflTransGen (Step ByFlush) s s1) :
    Flushing s s1 ∧ s1.syncedFrom = s.syncedFrom :=
  walk_invariant (I := fun t => Flushing s t ∧ t.syncedFrom = s.syncedFrom)
    (fun t c hc _ ht => ⟨ht.1.change hc, (c.apply_syncedFrom t).trans ht.2⟩) h ⟨Flushing.refl s, rfl⟩

theorem Flushing.isSome_eq (h : Flushing s0 s) (i : Nat) : (s.seg i).isSome = (s0.seg i).isSome := by
  rcases h.seg_eq i with heq | heq
  · rw [heq]
  · rw [heq, Option.isSome_map]

theorem Flushing.image_eq (h : Flushing s0 s) : s.image = s0.image := by
  refine image_eq_of_written h.segmentSize_eq fun i => ?_
  rcases h.seg_eq i with heq | heq
  · rw [heq]
  · rw [heq]
    cases s0.seg i <;> rfl

/-- The bytes of a file that has been flushed are durable. -/
theorem Flushing.durableAt_of_flushed (h : Flushing s0 s)
    (hseg : s.seg (o / s0.segmentSize) = (s0.seg (o / s0.segmentSize)).map File.durableSync)
    (ho : (s0.image o).isSome = true) : s.DurableAt o := by
  refine CleanSeg.durableAt (fun file hfile => ?_) (by rw [h.image_eq]; exact ho)
  rw [h.segmentSize_eq, hseg] at hfile
  obtain ⟨file0, -, rfl⟩ := Option.map_eq_some_iff.mp hfile
  exact file0.clean_durableSync

theorem Flushing.durableAt (h : Flushing s0 s) (ho : s0.DurableAt o) : s.DurableAt o := by
  rcases h.seg_eq (o / s0.segmentSize) with heq | heq
  · rw [DurableAt, durableImage, h.image_eq, h.segmentSize_eq, heq]
    exact ho
  · exact h.durableAt_of_flushed heq ho.1

/-- The window ends with the segment that holds the last byte.  Of an empty store nothing is
flushed. -/
theorem flushWindow_flushing :
    flushWindow.Ends s
      (fun _ s' => Flushing s s' ∧ (s.maxWritten = 0 ∧ s'.syncedFrom = s.syncedFrom ∨
        s.maxWritten ≠ 0 ∧ s'.syncedFrom = (s.maxWritten - 1) / s.segmentSize ∧
          ∀ i, s.syncedFrom ≤ i → i ≤ s'.syncedFrom → i ∈ s.handles →
            s'.seg i = (s.seg i).map File.durableSync))
      fun _ s' => Flushing s s' ∧ s'.syncedFrom = s.syncedFrom := by
  refine ends_get_bind ?_
  dsimp only
  by_cases hzero : s.maxWritten = 0
  · rw [if_pos hzero]
    exact ends_pure ⟨Flushing.refl s, Or.inl ⟨hzero, rfl⟩⟩
  · rw [if_neg hzero]
    refine (flushSegments_walks _).bind_ends (fun _ _ h _ => walk_flushing h) fun _ s1 h1 hdone => ?_
    obtain ⟨h1, -⟩ := walk_flushing h1
    refine ends_of_ok rfl  ⟨⟨h1.segmentSize_eq, h1.handles_eq, h1.maxWritten_eq, h1.dirDirty_eq, h1.parentDirty_eq,
      h1.seg_eq⟩, Or.inr ⟨hzero, rfl, fun i hfrom hto hopen => ?_⟩⟩
    have hto : i ≤ (s.maxWritten - 1) / s.segmentSize := hto
    refine hdone i ?_ hopen
    rw [List.mem_range'_1]
    omega

end Flushing

end SegmentedStore

end WalDb
