/-
The segmented store keeps what a log needs.

Three things have to be on the disk for a byte to survive: the byte, the name of its segment
in the directory of the log, and the name of that directory.  That the next `sync` reaches
what is missing is an invariant of the store: a byte that has not been flushed lies in an open
segment of the window, and a name that has not been flushed has its flag set.
-/
import WalDb.OnDisk
import WalDb.Segment.PowerLoss
import WalDb.Segment.Unflushed

namespace WalDb

open Lib Lib.Act Lasting SegmentedStore

/-! ## The store and its names -/

/-- A segmented store, the segments whose names are on the disk, and whether that of their
directory is. -/
structure NamedSegments where
  store : SegmentedStore
  named : List Nat
  dirNamed : Bool

namespace NamedSegments

/-- A call of the store. -/
def inner {α : Type} (x : Act SegmentedStore Fault α) : Act NamedSegments Fault α :=
  Act.zoom NamedSegments.store (fun t s => { t with store := s }) x

/-- A call of the store that removes files, and their names with them. -/
def removing {α : Type} (x : Act SegmentedStore Fault α) : Act NamedSegments Fault α :=
  Act.zoom NamedSegments.store
    (fun t s => { t with store := s, named := t.named.filter fun i => (s.seg i).isSome }) x

/-- The directory flushes, which put the names on the disk. -/
def flushDirs : Act NamedSegments Fault Unit := do
  flushDirIfDirty (fun t => t.store.dirDirty)
    (fun t dirty => { t with store := { t.store with dirDirty := dirty } })
    (do
      inner (SegmentedStore.os "flushing the log directory")
      Act.modify fun t => { t with named := t.store.dir.segments.keys })
  flushDirIfDirty (fun t => t.store.parentDirty)
    (fun t dirty => { t with store := { t.store with parentDirty := dirty } })
    (do
      inner (SegmentedStore.os "flushing the log directory")
      Act.modify fun t => { t with dirNamed := true })

def sync : Act NamedSegments Fault Unit := do
  flushDirs
  inner SegmentedStore.flushWindow

instance : WalStore NamedSegments where
  writeAt offset bytes := inner (WalStore.writeAt offset bytes)
  readAt offset n := inner (WalStore.readAt offset n)
  truncate len := removing (WalStore.truncate len)
  sync := sync
  len := inner WalStore.len
  head := inner WalStore.head
  truncateBefore offset := removing (WalStore.truncateBefore offset)

/-- The store inside. -/
def Is (t : NamedSegments) (s : SegmentedStore) : Prop := t.store = s

theorem inner_lockstep {α : Type} (x : Act SegmentedStore Fault α) : Lockstep Is Is (inner x) x := by
  intro t s h
  have h : t.store = s := h
  subst h
  exact ⟨rfl, rfl⟩

theorem removing_lockstep {α : Type} (x : Act SegmentedStore Fault α) :
    Lockstep Is Is (removing x) x := by
  intro t s h
  have h : t.store = s := h
  subst h
  exact ⟨rfl, rfl⟩

/-- To its caller it is the `sync` of the store. -/
theorem sync_lockstep : Lockstep Is Is (WalStore.sync : Act NamedSegments Fault Unit)
    (WalStore.sync : Act SegmentedStore Fault Unit) := by
  rw [SegmentedStore.sync_eq]
  refine Lockstep.seq (Lockstep.seq (flushDirIfDirty_lockstep (fun t s h => ?_)
    (fun t s flag h => ?_) ?_) fun _ => flushDirIfDirty_lockstep (fun t s h => ?_)
    (fun t s flag h => ?_) ?_) fun _ => inner_lockstep _
  · rw [show t.store = s from h]
  · show { t.store with dirDirty := flag } = { s with dirDirty := flag }
    rw [show t.store = s from h]
  · exact (inner_lockstep _).noting fun _ _ h => h
  · rw [show t.store = s from h]
  · show { t.store with parentDirty := flag } = { s with parentDirty := flag }
    rw [show t.store = s from h]
  · exact (inner_lockstep _).noting fun _ _ h => h

/-- Everything that has not been flushed is within reach of the next flush. -/
structure InReach (t : NamedSegments) : Prop where
  handles_ok : ∀ i ∈ t.store.handles, (t.store.seg i).isSome = true
  window : t.store.syncedFrom ≤ t.store.maxWritten / t.store.segmentSize
  bytes : ∀ o b, t.store.image o = some b → t.store.DurableAt o ∨
    t.store.syncedFrom ≤ o / t.store.segmentSize ∧ o / t.store.segmentSize ∈ t.store.handles
  names : t.store.dirDirty = false → ∀ i, (t.store.seg i).isSome = true → i ∈ t.named
  dirName : t.store.parentDirty = false → t.dirNamed = true

/-- A directory of which every byte and every name is on the disk, opened; but one that `open`
has created has no files, and need not have a name. -/
structure Found (t : NamedSegments) : Prop where
  opened : ∃ size created d, openDir size created d = (.ok t.store, d) ∧ d.faults = [] ∧
    d.headFile = none ∧ d.Flushed ∧ (created = false → t.dirNamed = true)
  named : ∀ i, (t.store.seg i).isSome = true → i ∈ t.named ∧ t.dirNamed = true

/-- What a power loss may leave: a file is gone without its name, and so may be any byte that
has not been flushed. -/
structure Loses (t t' : NamedSegments) : Prop where
  found : t'.Found
  segmentSize_eq : t'.store.segmentSize = t.store.segmentSize
  kept : t.dirNamed = true → ∀ i ∈ t.named, ∀ file, t.store.seg i = some file →
    ∃ file', t'.store.seg i = some file' ∧ ∀ (k : Nat) b, file.written[k]? = some b →
      file.durable[k]? = some b → file'.written[k]? = some b

instance : Lasting NamedSegments where
  image t := t.store.image
  length t := t.store.maxWritten
  Stable t o := t.dirNamed = true ∧ o / t.store.segmentSize ∈ t.named ∧ t.store.DurableAt o
  Orderly := InReach
  setFaults faults t := { t with store := { t.store with dir := { t.store.dir with faults := faults } } }
  Calm t := t.store.dir.faults = []
  Fresh := Found
  Loss := Loses

section Laws

variable {t t' : NamedSegments}

theorem inner_ends {α : Type} {x : Act SegmentedStore Fault α} {Q : α → NamedSegments → Prop}
    {E : Fault → NamedSegments → Prop}
    (h : x.Ends t.store (fun a s => Q a { t with store := s }) fun e s => E e { t with store := s }) :
    (inner x).Ends t Q E := Ends.zoom h

/-- The names stay with the files that stay. -/
theorem keeps_of_stable {n : Nat} (horderly : InReach t')
    (hsize : t'.store.segmentSize = t.store.segmentSize) (hdir : t'.dirNamed = t.dirNamed)
    (hnamed : ∀ i, (t'.store.seg i).isSome = true → i ∈ t.named → i ∈ t'.named)
    (hkept : ∀ o b, o < n → t.store.image o = some b → t'.store.image o = some b)
    (hdurable : ∀ o, o < n → t.store.DurableAt o → t'.store.DurableAt o) : Keeps n t t' := by
  refine ⟨horderly, hkept, fun o ho hs => ?_⟩
  have hs : t.dirNamed = true ∧ o / t.store.segmentSize ∈ t.named ∧ t.store.DurableAt o := hs
  obtain ⟨hd, hname, hat⟩ := hs
  have hat := hdurable o ho hat
  obtain ⟨b, hb⟩ := Option.isSome_iff_exists.mp hat.1
  rw [← hsize] at hname
  exact ⟨hdir.trans hd, hnamed _ (seg_of_image hb) hname, hat⟩

/-- A write past the end, or the part of one that has been done. -/
theorem InReach.adding {off : Nat} {s : SegmentedStore} (h : InReach t) (ha : Adding off t.store s)
    (hhandles : ∀ i ∈ s.handles, (s.seg i).isSome = true)
    (hle : t.store.maxWritten ≤ off) (hmax : t.store.maxWritten ≤ s.maxWritten)
    (hbelow : ∀ o b, o < off → t.store.image o = some b → s.image o = some b) :
    Keeps off t { t with store := s } := by
  have hdurable : ∀ o b, s.image o = some b → t.store.image o = some b → t.store.DurableAt o →
      s.DurableAt o := by
    intro o b hb hb0 hat
    refine ⟨by rw [hb]; rfl, ?_⟩
    rw [ha.durable_eq, hat.2, hb, hb0]
  have hwindow : t.store.syncedFrom ≤ off / t.store.segmentSize :=
    Nat.le_trans h.window (Nat.div_le_div_right hle)
  refine keeps_of_stable ⟨hhandles, ?_, fun o b hb => ?_, fun hclean i hi => ?_, fun hclean => ?_⟩
    ha.segmentSize_eq rfl (fun _ _ hn => hn) hbelow fun o ho hat => ?_
  · show s.syncedFrom ≤ s.maxWritten / s.segmentSize
    rw [ha.syncedFrom_eq, ha.segmentSize_eq]
    exact Nat.le_trans h.window (Nat.div_le_div_right hmax)
  · show s.DurableAt o ∨ s.syncedFrom ≤ o / s.segmentSize ∧ o / s.segmentSize ∈ s.handles
    rw [ha.syncedFrom_eq, ha.segmentSize_eq]
    rcases ha.added o b hb with hb0 | ⟨hfrom, hmem⟩
    · exact (h.bytes o b hb0).imp (hdurable o b hb hb0) fun hat => ⟨hat.1, ha.handles_ge _ hat.2⟩
    · exact Or.inr ⟨Nat.le_trans hwindow hfrom, hmem⟩
  · -- A name that is new has set the flag.
    have hclean : s.dirDirty = false := hclean
    have hi : (s.seg i).isSome = true := hi
    refine h.names (Bool.eq_false_iff.mpr fun hd => ?_) i ?_
    · rw [ha.dirDirty hd] at hclean
      cases hclean
    · rcases ha.created i hi with hi | hd
      · exact hi
      · rw [hd] at hclean
        cases hclean
  · exact h.dirName (ha.parentDirty_eq.symm.trans hclean)
  · obtain ⟨b, hb⟩ := Option.isSome_iff_exists.mp hat.1
    exact hdurable o b (hbelow o b ho hb) hb hat

theorem writeAt_ends {off : Nat} {bytes : List UInt8} (h : InReach t)
    (hle : t.store.maxWritten ≤ off) (hfit : off + bytes.length < 2 ^ 64) :
    (WalStore.writeAt off bytes).Ends t
      (fun _ t' => Keeps off t t' ∧ length t' = off + bytes.length ∧
        ∀ k < bytes.length, image t' (off + k) = bytes[k]?)
      fun _ t' => Keeps off t t' ∧ length t' = length t := by
  have hwrite := (SegmentedStore.writeAt_ends hfit h.handles_ok).and (writeAt_adding hfit)
  refine inner_ends (hwrite.mono (fun _ s hs => ?_) fun _ s hs => ?_)
  · obtain ⟨⟨hkeep, hhas, hmax⟩, ha⟩ := hs
    refine ⟨h.adding ha hkeep.handles_ok hle (by omega) hkeep.below, ?_, hhas⟩
    show s.maxWritten = _
    omega
  · obtain ⟨hkeep, ha⟩ := hs
    exact ⟨h.adding ha hkeep.handles_ok hle (Nat.le_of_eq hkeep.maxWritten_eq.symm) hkeep.below,
      hkeep.maxWritten_eq⟩

/-! ### Flushing -/

theorem os_ends {Q E : NamedSegments → Prop} (context : String)
    (hok : ∀ faults, Q { t with
      store := { t.store with dir := { t.store.dir with faults := faults } } })
    (herr : ∀ faults, E { t with
      store := { t.store with dir := { t.store.dir with faults := faults } } }) :
    (inner (SegmentedStore.os context)).Ends t (fun _ => Q) fun _ => E := by
  refine inner_ends ?_
  unfold SegmentedStore.os onDir Dir.os
  refine Ends.zoom (Ends.zoom ?_)
  unfold Act.Ends
  split
  · exact hok _
  · exact herr _

/-- The directories may have been flushed, and nothing else has been done. -/
structure Naming (t t' : NamedSegments) : Prop where
  segments_eq : t'.store.dir.segments = t.store.dir.segments
  segmentSize_eq : t'.store.segmentSize = t.store.segmentSize
  handles_eq : t'.store.handles = t.store.handles
  maxWritten_eq : t'.store.maxWritten = t.store.maxWritten
  syncedFrom_eq : t'.store.syncedFrom = t.store.syncedFrom
  named_ge : ∀ i, (t.store.seg i).isSome = true → i ∈ t.named → i ∈ t'.named
  dirNamed_ge : t.dirNamed = true → t'.dirNamed = true
  names : t'.store.dirDirty = false → ∀ i, (t.store.seg i).isSome = true → i ∈ t'.named
  dirName : t'.store.parentDirty = false → t'.dirNamed = true

theorem InReach.naming (h : InReach t) : Naming t t :=
  ⟨rfl, rfl, rfl, rfl, rfl, fun _ _ hi => hi, fun hn => hn, h.names, h.dirName⟩

theorem Naming.seg_eq (h : Naming t t') (i : Nat) : t'.store.seg i = t.store.seg i := by
  rw [seg, h.segments_eq]
  rfl

theorem Naming.image_eq (h : Naming t t') : t'.store.image = t.store.image := by
  funext o
  exact image_eq_of_seg h.segmentSize_eq (h.seg_eq _)

theorem Naming.durableAt_iff (h : Naming t t') {o : Nat} :
    t'.store.DurableAt o ↔ t.store.DurableAt o := by
  rw [DurableAt, DurableAt, durableImage, durableImage, h.image_eq, h.segmentSize_eq, h.seg_eq]

theorem Naming.keeps (h : Naming t t') (ht : InReach t) (n : Nat) : Keeps n t t' := by
  refine ⟨⟨fun i hi => ?_, ?_, fun o b hb => ?_, fun hclean i hi => ?_, h.dirName⟩,
    fun o b _ hb => ?_, fun o _ hs => ?_⟩
  · rw [h.handles_eq] at hi
    rw [h.seg_eq]
    exact ht.handles_ok i hi
  · rw [h.syncedFrom_eq, h.maxWritten_eq, h.segmentSize_eq]
    exact ht.window
  · rw [h.image_eq] at hb
    rw [h.durableAt_iff, h.syncedFrom_eq, h.segmentSize_eq, h.handles_eq]
    exact ht.bytes o b hb
  · rw [h.seg_eq] at hi
    exact h.names hclean i hi
  · show t'.store.image o = some b
    rw [h.image_eq]
    exact hb
  · have hs : t.dirNamed = true ∧ o / t.store.segmentSize ∈ t.named ∧ t.store.DurableAt o := hs
    obtain ⟨hdir, hname, hat⟩ := hs
    obtain ⟨b, hb⟩ := Option.isSome_iff_exists.mp hat.1
    refine ⟨h.dirNamed_ge hdir, ?_, h.durableAt_iff.mpr hat⟩
    rw [h.segmentSize_eq]
    exact h.named_ge _ (seg_of_image hb) hname

theorem Naming.flushDirs_ends (h : InReach t) :
    flushDirs.Ends t
      (fun _ t' => Naming t t' ∧ (∀ i, (t.store.seg i).isSome = true → i ∈ t'.named) ∧
        t'.dirNamed = true)
      fun _ => Naming t := by
  refine Ends.bind (Q := fun _ t1 => Naming t t1 ∧
      ∀ i, (t.store.seg i).isSome = true → i ∈ t1.named)
    (flushDirIfDirty_flushes (fun hclean => ⟨h.naming, h.names hclean⟩) fun _ => ?_)
    fun _ t1 h1 => ?_
  · have hkeys : ∀ i, (t.store.seg i).isSome = true → i ∈ t.store.dir.segments.keys := fun i hi =>
      AList.mem_keys.mp (AList.lookup_isSome.mp hi)
    refine Ends.bind (Q := fun _ t1 => Naming t { t1 with named := t1.store.dir.segments.keys } ∧
        t1.store.dir.segments = t.store.dir.segments)
      (os_ends _ (fun faults => ?_) fun faults => ?_) fun _ t1 h1 => ends_of_ok rfl ⟨h1.1, ?_⟩
    · exact ⟨⟨rfl, rfl, rfl, rfl, rfl, fun i hi _ => hkeys i hi, fun hn => hn,
        fun _ => hkeys, h.dirName⟩, rfl⟩
    · exact ⟨rfl, rfl, rfl, rfl, rfl, fun _ _ hn => hn, fun hn => hn,
        fun hc => Bool.noConfusion hc, h.dirName⟩
    · intro i hi
      show i ∈ t1.store.dir.segments.keys
      rw [h1.2]
      exact hkeys i hi
  · obtain ⟨h1, hnamed⟩ := h1
    refine flushDirIfDirty_flushes (fun hclean => ⟨h1, hnamed, h1.dirName hclean⟩) fun _ => ?_
    refine Ends.bind (Q := fun _ t2 => Naming t { t2 with dirNamed := true } ∧
        ∀ i, (t.store.seg i).isSome = true → i ∈ t2.named)
      (os_ends _ (fun faults => ?_) fun faults => ?_)
      fun _ t2 h2 => ends_of_ok rfl ⟨h2.1, h2.2, rfl⟩
    · exact ⟨⟨h1.segments_eq, h1.segmentSize_eq, h1.handles_eq, h1.maxWritten_eq, h1.syncedFrom_eq,
        h1.named_ge, fun _ => rfl, fun _ => hnamed, fun _ => rfl⟩, hnamed⟩
    · exact ⟨h1.segments_eq, h1.segmentSize_eq, h1.handles_eq, h1.maxWritten_eq, h1.syncedFrom_eq,
        h1.named_ge, h1.dirNamed_ge, fun _ => hnamed, fun hc => Bool.noConfusion hc⟩

/-- A flush keeps what there is, and may move the window to where nothing is left behind. -/
theorem InReach.flushing {s : SegmentedStore} (h : InReach t) (hf : Flushing t.store s) (n : Nat)
    (hwindow : s.syncedFrom ≤ t.store.maxWritten / t.store.segmentSize)
    (hbytes : ∀ o b, t.store.image o = some b → s.DurableAt o ∨
      s.syncedFrom ≤ o / t.store.segmentSize ∧ o / t.store.segmentSize ∈ t.store.handles) :
    Keeps n t { t with store := s } := by
  refine keeps_of_stable ⟨fun i hi => ?_, ?_, fun o b hb => ?_, fun hclean i hi => ?_,
    fun hclean => ?_⟩ hf.segmentSize_eq rfl (fun _ _ hn => hn) (fun o b _ hb => ?_)
    fun o _ hat => hf.durableAt hat
  · rw [hf.isSome_eq]
    exact h.handles_ok i (hf.handles_eq ▸ hi)
  · show s.syncedFrom ≤ s.maxWritten / s.segmentSize
    rw [hf.maxWritten_eq, hf.segmentSize_eq]
    exact hwindow
  · rw [hf.image_eq] at hb
    show s.DurableAt o ∨ s.syncedFrom ≤ o / s.segmentSize ∧ o / s.segmentSize ∈ s.handles
    rw [hf.segmentSize_eq, hf.handles_eq]
    exact hbytes o b hb
  · refine h.names (hf.dirDirty_eq ▸ hclean) i ?_
    rw [← hf.isSome_eq]
    exact hi
  · exact h.dirName (hf.parentDirty_eq ▸ hclean)
  · rw [hf.image_eq]
    exact hb

/-- The files of the window are flushed, and every byte up to the end with them. -/
theorem flushWindow_ends (h : InReach t) (n : Nat) :
    (inner flushWindow).Ends t
      (fun _ t' => (Keeps n t t' ∧ length t' = length t) ∧ t'.dirNamed = t.dirNamed ∧
        t'.named = t.named ∧ t'.store.segmentSize = t.store.segmentSize ∧
        ∀ o b, o < length t → image t o = some b → t'.store.DurableAt o)
      fun _ t' => Keeps n t t' ∧ length t' = length t := by
  refine inner_ends (flushWindow_flushing.mono (fun _ s hs => ?_) fun _ s hs => ?_)
  · obtain ⟨hf, hwindow⟩ := hs
    -- A byte that is not durable yet lies past the window.
    have hbytes : ∀ o b, t.store.image o = some b → s.DurableAt o ∨
        (t.store.maxWritten = 0 ∨ s.syncedFrom < o / t.store.segmentSize) ∧
          s.syncedFrom ≤ o / t.store.segmentSize ∧ o / t.store.segmentSize ∈ t.store.handles := by
      intro o b hb
      rcases h.bytes o b hb with hat | ⟨hfrom, hopen⟩
      · exact Or.inl (hf.durableAt hat)
      · rcases hwindow with ⟨hzero, heq⟩ | ⟨-, -, hdone⟩
        · exact Or.inr ⟨Or.inl hzero, by omega, hopen⟩
        · by_cases hle : o / t.store.segmentSize ≤ s.syncedFrom
          · exact Or.inl (hf.durableAt_of_flushed (hdone _ hfrom hle hopen) (by rw [hb]; rfl))
          · exact Or.inr ⟨Or.inr (by omega), by omega, hopen⟩
    refine ⟨⟨h.flushing hf n ?_ fun o b hb => (hbytes o b hb).imp_right fun hr => hr.2,
      hf.maxWritten_eq⟩, rfl, rfl, hf.segmentSize_eq, fun o b ho hb => ?_⟩
    · rcases hwindow with ⟨-, heq⟩ | ⟨-, heq, -⟩
      · rw [heq]
        exact h.window
      · rw [heq]
        exact Nat.div_le_div_right (Nat.sub_le _ _)
    · have ho : o < t.store.maxWritten := ho
      refine (hbytes o b hb).resolve_right fun hr => ?_
      have hle : o / t.store.segmentSize ≤ (t.store.maxWritten - 1) / t.store.segmentSize :=
        Nat.div_le_div_right (by omega)
      omega
  · obtain ⟨hf, hfrom⟩ := hs
    refine ⟨h.flushing hf n (hfrom ▸ h.window) fun o b hb => ?_, hf.maxWritten_eq⟩
    rw [hfrom]
    exact (h.bytes o b hb).imp_left hf.durableAt

theorem sync_ends (n : Nat) (h : InReach t) :
    (WalStore.sync : Act NamedSegments Fault Unit).Ends t
      (fun _ t' => Keeps n t t' ∧ length t' = length t ∧
        ∀ o b, o < length t → image t o = some b → Stable t' o)
      fun _ t' => Keeps n t t' ∧ length t' = length t := by
  have hdirs := (Naming.flushDirs_ends h).mono (fun _ _ h1 => h1)
    fun _ t1 h1 => And.intro (h1.keeps h n) h1.maxWritten_eq
  refine hdirs.bind fun _ t1 h1 => ?_
  obtain ⟨h1, hnamed, hdir⟩ := h1
  have hk1 := h1.keeps h n
  refine (flushWindow_ends hk1.orderly n).mono (fun _ t2 h2 => ?_) fun _ t2 h2 => ?_
  · obtain ⟨⟨hk2, hlen⟩, hdir2, hnamed2, hsize, hall⟩ := h2
    refine ⟨hk1.trans hk2, hlen.trans h1.maxWritten_eq, fun o b ho hb => ⟨hdir2.trans hdir, ?_, ?_⟩⟩
    · rw [hsize, h1.segmentSize_eq, hnamed2]
      exact hnamed _ (seg_of_image hb)
    · refine hall o b ?_ ?_
      · show o < t1.store.maxWritten
        rw [h1.maxWritten_eq]
        exact ho
      · show t1.store.image o = some b
        rw [h1.image_eq]
        exact hb
  · exact ⟨hk1.trans h2.1, h2.2.trans h1.maxWritten_eq⟩

/-! ### Truncating -/

theorem truncate_keeps {len : Nat} (h : InReach t) (hcalm : t.store.dir.faults = [])
    (hstable : ∀ o b, image t o = some b → Stable t o)
    (hrun : WalStore.truncate len t = (.ok (), t')) : Keeps len t t' ∧ length t' = len := by
  obtain ⟨s, hs, hcut⟩ := truncate_ok ⟨hcalm, h.handles_ok⟩ len
  have hflags := truncate_flagged (s := t.store) len
  rw [Act.Ends, hs] at hflags
  have hrun : removing (WalStore.truncate len) t = (.ok (), t') := hrun
  rw [removing, Act.zoom, hs] at hrun
  obtain rfl := (Prod.mk.inj hrun).2
  have hsize := hcut.segmentSize_eq
  have hthere : ∀ i, (s.seg i).isSome = true → (t.store.seg i).isSome = true := fun i hi => by
    rw [hcut.seg_eq] at hi
    cases hseg : t.store.seg i with
    | none =>
        rw [hseg, cut_none] at hi
        cases hi
    | some file => rfl
  have hdurable : ∀ o, o < len → t.store.DurableAt o → s.DurableAt o := by
    intro o ho hat
    obtain ⟨b, hb⟩ := Option.isSome_iff_exists.mp hat.1
    have hlast : o / t.store.segmentSize ≤ len / t.store.segmentSize :=
      Nat.div_le_div_right (Nat.le_of_lt ho)
    rw [DurableAt, hcut.image_below ho hb, ← hb, ← hat.2]
    refine ⟨hat.2 ▸ hat.1, ?_⟩
    rw [durableImage, durableImage, hsize, hcut.seg_eq, cut, if_neg (Nat.not_lt.mpr hlast)]
    split
    · cases t.store.seg (o / t.store.segmentSize) <;> rfl
    · rfl
  refine ⟨keeps_of_stable ⟨hcut.handles_ok, ?_, fun o b hb => ?_, fun hclean i hi => ?_,
    fun hclean => ?_⟩ hsize rfl (fun i hi hn => List.mem_filter.mpr ⟨hn, hi⟩)
    (fun o b ho hb => hcut.image_below ho hb) hdurable, hcut.maxWritten_eq⟩
  · show s.syncedFrom ≤ s.maxWritten / s.segmentSize
    rw [hcut.syncedFrom_eq, hcut.maxWritten_eq, hsize]
  · -- The file that has been cut is open, and those below it are as they were.
    have hb : s.image o = some b := hb
    have hseg := seg_of_image hb
    have ho : o < len := Nat.not_le.mp fun hpast => by
      rw [hcut.image_past hpast] at hb
      cases hb
    show s.DurableAt o ∨ s.syncedFrom ≤ o / s.segmentSize ∧ o / s.segmentSize ∈ s.handles
    rw [hcut.syncedFrom_eq, hsize]
    rw [hsize] at hseg
    by_cases hlast : len / t.store.segmentSize ≤ o / t.store.segmentSize
    · have heq : o / t.store.segmentSize = len / t.store.segmentSize :=
        Nat.le_antisymm (Nat.div_le_div_right (Nat.le_of_lt ho)) hlast
      exact Or.inr ⟨hlast, (hcut.mem_handles _).mpr (Or.inr ⟨heq, hthere _ hseg⟩)⟩
    · have hsame : s.image o = t.store.image o := by
        refine image_eq_of_seg hsize ?_
        rw [hcut.seg_eq, cut, if_neg (by omega), if_neg (by omega)]
      have hs : Stable t o := hstable o b (hsame.symm.trans hb)
      have hs : t.dirNamed = true ∧ o / t.store.segmentSize ∈ t.named ∧ t.store.DurableAt o := hs
      exact Or.inl (hdurable o ho hs.2.2)
  · have hclean : s.dirDirty = false := hclean
    refine List.mem_filter.mpr ⟨h.names (Bool.eq_false_iff.mpr fun hd => ?_) i (hthere i hi), hi⟩
    rw [hflags.dirDirty hd] at hclean
    cases hclean
  · exact h.dirName (hflags.parentDirty_eq.symm.trans hclean)

/-! ### Reading -/

/-- Reading opens files at most. -/
structure Reading (t t' : NamedSegments) : Prop where
  same : SameFiles t.store t'.store
  flagged : Flagged t.store t'.store
  named_eq : t'.named = t.named
  dirNamed_eq : t'.dirNamed = t.dirNamed

theorem Reading.refl (h : Ready t.store) : Reading t t :=
  ⟨SameFiles.refl h, Flagged.refl t.store, rfl, rfl⟩

theorem Reading.readAt {t1 : NamedSegments} (h : Reading t t1) {off n : Nat}
    {Q : List UInt8 → Prop} {E : Prop}
    (hread : (WalStore.readAt off n).Ends t1.store (fun bs s => Q bs ∧ SameFiles t.store s)
      fun _ s => SameFiles t.store s ∧ E) :
    (WalStore.readAt off n).Ends t1 (fun bs t2 => Q bs ∧ Reading t t2)
      fun _ t2 => Reading t t2 ∧ E := by
  have hreading : ∀ s, SameFiles t.store s → Flagged t1.store s →
      Reading t { t1 with store := s } := fun s hsame hflags =>
    ⟨hsame, h.flagged.trans hflags, h.named_eq, h.dirNamed_eq⟩
  exact inner_ends ((hread.and (readAt_flagged off n)).mono
    (fun _ s hs => ⟨hs.1.1, hreading s hs.1.2 hs.2⟩) fun _ s hs => ⟨hreading s hs.1.1 hs.2, hs.1.2⟩)

theorem probes (t : NamedSegments) : Probes t.store.InRange t.store.image (Reading t) where
  full := fun {t1 off n bs} h hread => by
    obtain ⟨s, hrun, hsame⟩ := (SegmentedStore.probes t.store).full h.same hread
    have hends := h.readAt (Q := (· = bs)) (E := False) (Act.ends_of_ok hrun ⟨rfl, hsame⟩)
    rcases hends.cases with ⟨_, t2, hrun2, rfl, h2⟩ | ⟨_, _, _, -, hfalse⟩
    · exact ⟨t2, hrun2, h2⟩
    · exact hfalse.elim
  missing h hnone := h.readAt ((SegmentedStore.probes t.store).missing h.same hnone)

/-! ### Opening -/

/-- Everything in a directory that is found is on the disk. -/
theorem Found.durableAt {size : Nat} {created : Bool} {d : Dir} {s : SegmentedStore}
    (hopened : Opened size created d s) (hflushed : d.Flushed) {o : Nat}
    (ho : (s.image o).isSome = true) : s.DurableAt o := by
  refine CleanSeg.durableAt (fun file hfile => ?_) ho
  rw [seg, hopened.dir_eq] at hfile
  have := hflushed.lookup hfile
  rw [← this]
  exact List.prefix_rfl

theorem Found.opens (h : t.Found) : ∃ size created d, Opened size created d t.store ∧
    d.faults = [] ∧ d.headFile = none ∧ d.Flushed ∧ (created = false → t.dirNamed = true) := by
  obtain ⟨size, created, d, hrun, hd, hhead, hflushed, hcreated⟩ := h.opened
  obtain ⟨s, hrun', hopened⟩ := openDir_ok (openDir_size_pos hrun) created hd
  rw [hrun] at hrun'
  cases hrun'
  exact ⟨size, created, d, hopened, hd, hhead, hflushed, hcreated⟩

theorem Loses.kept_at (h : Loses t t') {o : Nat} {b : UInt8} (hb : image t o = some b)
    (hs : Stable t o) : image t' o = some b := by
  have hs : t.dirNamed = true ∧ o / t.store.segmentSize ∈ t.named ∧ t.store.DurableAt o := hs
  obtain ⟨hdir, hname, hat⟩ := hs
  have hb : t.store.image o = some b := hb
  have hdurable := hat.2.trans hb
  rw [SegmentedStore.image] at hb
  split at hb
  · rename_i hlt
    obtain ⟨file, hfile, hbyte⟩ := Option.bind_eq_some_iff.mp hb
    rw [durableImage, hfile] at hdurable
    obtain ⟨file', hfile', hkept⟩ := h.kept hdir _ hname file hfile
    show t'.store.image o = some b
    rw [SegmentedStore.image, if_pos hlt, h.segmentSize_eq, hfile']
    exact hkept _ b hbyte hdurable
  · cases hb

theorem Found.fresh (h : t.Found) : WalStore.head t = (.ok 0, t) ∧
    ∃ reach P, Sight reach (image t) (length t) P ∧ P t ∧ ∀ t' : NamedSegments, P t' →
      Orderly t' ∧ Calm t' ∧ length t' = length t ∧ image t' = image t ∧
        ∀ o b, image t o = some b → Stable t' o := by
  obtain ⟨size, created, d, hopened, hd, hhead, hflushed, hcreated⟩ := h.opens
  have hready := hopened.ready hd
  have V := hopened.sight
  refine ⟨?_, _, Reading t,
    ⟨NamedSegments.probes t, V.within, fun {t'} h' => ?_, V.past_end, V.size_lt⟩,
    Reading.refl hready, fun t' h' => ?_⟩
  · show (Except.ok t.store.head, t) = _
    rw [hopened.head_eq, Dir.marker, hhead]
    rfl
  · show (Except.ok t'.store.maxWritten, t') = _
    rw [h'.same.maxWritten_eq]
    rfl
  · have hdurable : ∀ o, (t'.store.image o).isSome = true → t'.store.DurableAt o := fun o ho => by
      rw [h'.same.image_eq] at ho
      have hat := Found.durableAt hopened hflushed ho
      rw [DurableAt, durableImage, h'.same.image_eq, h'.same.segmentSize_eq, h'.same.seg_eq]
      exact hat
    refine ⟨⟨h'.same.handles_ok, ?_, fun o b hb => Or.inl (hdurable o (by rw [hb]; rfl)),
      fun _ i hi => ?_, fun hclean => ?_⟩, h'.same.faults_eq, h'.same.maxWritten_eq,
      h'.same.image_eq, fun o b hb => ?_⟩
    · rw [h'.same.syncedFrom_eq, h'.same.maxWritten_eq, h'.same.segmentSize_eq,
        hopened.syncedFrom_eq, hopened.segmentSize_eq]
    · rw [h'.named_eq]
      exact (h.named i (h'.same.seg_eq i ▸ hi)).1
    · rw [h'.dirNamed_eq]
      rw [h'.flagged.parentDirty_eq, hopened.parentDirty_eq] at hclean
      exact hcreated hclean
    · have hb : t.store.image o = some b := hb
      have hname := h.named _ (seg_of_image hb)
      refine ⟨h'.dirNamed_eq.trans hname.2, ?_, hdurable o ?_⟩
      · rw [h'.same.segmentSize_eq, h'.named_eq]
        exact hname.1
      · rw [h'.same.image_eq, hb]
        rfl

instance : LawfulLasting NamedSegments where
  keeps_setFaults {t} faults n h := by
    have hnaming : Naming t (Lasting.setFaults faults t) :=
      ⟨rfl, rfl, rfl, rfl, rfl, fun _ _ hi => hi, fun hn => hn, h.names, h.dirName⟩
    exact ⟨hnaming.keeps h n, rfl⟩
  calm_setFaults _ := rfl
  image_past t _ ho := if_neg (Nat.not_lt.mpr ho)
  reads {t} h hcalm :=
    ⟨_, Reading t, NamedSegments.probes t, Reading.refl ⟨hcalm, h.handles_ok⟩⟩
  writeAt h hle _ hfit := writeAt_ends h hle hfit
  sync n h := sync_ends n h
  truncate h hcalm _ hstable hrun := truncate_keeps h hcalm hstable hrun
  fresh h := h.fresh
  loss h := ⟨h.found, fun _ _ hb hs => h.kept_at hb hs⟩

end Laws

end NamedSegments

/-! ## What a sync vouches for -/

/-- The log `wal` is what a sync that has returned Ok left, in a session over files that were
found on the disk or after sessions that ended with the power.  Then it has become `later`,
maybe across more of them. -/
def Wal.SyncedThen {S : Type} [WalStore S] [Lasting S] (wal later : Wal S) : Prop :=
  ∃ (config : WalConfig) (start t : S) (first before : Wal S) (faults : List Bool) (d : Deed),
    Fresh start ∧ withStoreAndConfig config start = (.ok first, t) ∧ Later first before ∧
      d.syncs = true ∧ before.tail + d.room < 2 ^ 64 ∧
      does d (before.underFaults faults) = (.ok (), wal) ∧ Later wal later

/-- Once a sync has returned Ok, the records that the log had then are the first of every later
one, in the same place and with the same bytes.  This holds over one file and over segments,
whatever system calls fail before and after, however often the power is lost, and whatever a
power loss leaves of the bytes and names that had not been flushed. -/
theorem synced_records_outlast_power_loss :
    (∀ wal later : Wal NamedFile, wal.SyncedThen later → ∃ ps qs,
      wal.tail = (frames ps).length ∧ wal.contents = .ok ((Wal.recordsFrom 0 ps).map .ok) ∧
      later.contents = .ok ((Wal.recordsFrom 0 (ps ++ qs)).map .ok)) ∧
    ∀ wal later : Wal NamedSegments, wal.SyncedThen later → ∃ ps qs,
      wal.tail = (frames ps).length ∧ wal.contents = .ok ((Wal.recordsFrom 0 ps).map .ok) ∧
      later.contents = .ok ((Wal.recordsFrom 0 (ps ++ qs)).map .ok) := by
  refine ⟨fun wal later h => ?_, fun wal later h => ?_⟩
  · obtain ⟨config, start, t, first, before, faults, d, hfresh, hopen, hbefore, hsyncs, hroom, hdone,
      hafter⟩ := h
    exact Wal.synced_outlasts hfresh hopen hbefore faults hsyncs hroom hdone hafter
  · obtain ⟨config, start, t, first, before, faults, d, hfresh, hopen, hbefore, hsyncs, hroom, hdone,
      hafter⟩ := h
    exact Wal.synced_outlasts hfresh hopen hbefore faults hsyncs hroom hdone hafter

/-- A log in segments of eight bytes, in a new directory.  A record is synced, the write of
another fails, and the power loss leaves three bytes of garbage behind the first. -/
theorem synced_records_outlast_power_loss_segments :
    ∃ wal later : Wal NamedSegments, wal.SyncedThen later ∧ later.truncatedOnOpen = 3 ∧
      ∃ ps qs, wal.tail = 9 ∧ wal.tail = (frames ps).length ∧
        later.contents = .ok ((Wal.recordsFrom 0 (ps ++ qs)).map .ok) := by
  let start : NamedSegments := ⟨⟨Dir.empty, 8, [], 0, 0, 0, true, true, by decide⟩, [], false⟩
  let first : Wal NamedSegments := openedLog WalConfig.new 0 0 0 start
  let before : Wal NamedSegments := (Wal.does (.append [7]) (first.underFaults [])).2
  let wal : Wal NamedSegments := (Wal.does .sync (before.underFaults [])).2
  let failed : Wal NamedSegments := (Wal.does (.append [8]) (wal.underFaults [true])).2
  let whole : File := ⟨(Record.frame [7]).take 8, (Record.frame [7]).take 8⟩
  let torn : File := ⟨(Record.frame [7]).drop 8 ++ [1, 2, 3], (Record.frame [7]).drop 8 ++ [1, 2, 3]⟩
  let dir : Dir := ⟨(AList.insert 0 whole ∅).insert 1 torn, none, none, []⟩
  let left : NamedSegments :=
    ⟨(openDir 8 false dir).1.toOption.getD start.store, dir.segments.keys, true⟩
  have hfirst : Wal.withStoreAndConfig WalConfig.new start = (.ok first, start) := by
    have hscan : scan WalConfig.new.maxRecordSize 0 0 start = (.ok 0, start) := by
      rw [scan, if_neg (Nat.lt_irrefl 0)]
    have hrecover : recover WalConfig.new 0 start = (.ok ⟨0, 0⟩, start) := by
      rw [recover, Act.bind_ok (show WalStore.len start = (.ok 0, start) from rfl),
        Act.bind_ok hscan]
      rfl
    rw [Wal.withStoreAndConfig, Act.bind_ok (show WalStore.head start = (.ok 0, start) from rfl),
      Act.bind_ok hrecover]
    rfl
  have hfresh : start.Found := by
    refine ⟨⟨8, true, Dir.empty, rfl, rfl, rfl, by decide, Bool.noConfusion⟩, fun i hi => ?_⟩
    cases hi
  have hsynced : (Wal.does .sync (before.underFaults [])).1 = .ok () := by decide +kernel
  have hsame : ∀ i ∈ failed.store.named, ∀ file ∈ failed.store.store.seg i,
      ∃ file' ∈ left.store.seg i, file.written <+: file'.written := by
    decide +kernel
  have hdir : openDir 8 false dir = (.ok left.store, dir) := by
    obtain ⟨store, hrun, -⟩ := openDir_ok (show 0 < 8 by decide) false (show dir.faults = [] from rfl)
    show _ = (Except.ok ((openDir 8 false dir).1.toOption.getD start.store), dir)
    rw [hrun]
    rfl
  have hseg : ∀ i, left.store.seg i = dir.segments.lookup i := fun i => by
    obtain ⟨store, hrun, hopened⟩ :=
      openDir_ok (show 0 < 8 by decide) false (show dir.faults = [] from rfl)
    rw [hdir] at hrun
    cases hrun
    rw [seg, hopened.dir_eq]
  have hloss : failed.store.Loses left := by
    refine ⟨⟨⟨8, false, dir, hdir, rfl, rfl, by decide +kernel, fun _ => rfl⟩, fun i hi => ⟨?_, rfl⟩⟩,
      by decide +kernel, fun _ i hi file hfile => ?_⟩
    · rw [hseg] at hi
      exact AList.mem_keys.mp (AList.lookup_isSome.mp hi)
    · obtain ⟨file', hfile', hprefix⟩ := hsame i hi file hfile
      refine ⟨file', hfile', fun k b hb _ => ?_⟩
      obtain ⟨rest, hrest⟩ := hprefix
      rw [← hrest, List.getElem?_append_left (List.getElem?_eq_some_iff.mp hb).1, hb]
  have hopen : ((Wal.withStoreAndConfig WalConfig.new left).1.map Wal.truncatedOnOpen) = .ok 3 := by
    decide +kernel
  cases hrun : Wal.withStoreAndConfig WalConfig.new left with
  | mk r t =>
      rw [hrun] at hopen
      cases r with
      | error e => cases hopen
      | ok later =>
          have hthen : wal.SyncedThen later :=
            ⟨WalConfig.new, start, start, first, before, [], .sync, hfresh, hfirst,
              .call (.refl first) [] (.append [7]) (by decide +kernel), rfl, by decide +kernel,
              Prod.ext hsynced rfl, .powerLoss (.call (.refl wal) [true] (.append [8])
                (by decide +kernel)) hloss WalConfig.new (by decide +kernel) hrun⟩
          obtain ⟨ps, qs, htail, -, hlater⟩ := synced_records_outlast_power_loss.2 wal later hthen
          exact ⟨wal, later, hthen, Except.ok.inj hopen, ps, qs, by decide +kernel, htail, hlater⟩

end WalDb
