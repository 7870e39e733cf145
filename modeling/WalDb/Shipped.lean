/-
What the shipped stores have in common.

The stores in memory, in one file and in segments differ in what their calls can do: only
files have system calls that fail, and only the segmented store can drop a prefix.
`Shipped` names the parts that a log over any of them depends on, and `LawfulShipped`
says what the calls do to these parts, failed ones included.  A result about a log that
uses nothing else holds over each of them.
-/
import WalDb.Restart
import WalDb.Segment.FailedWrite

namespace WalDb

open Lib

/-- A store that ships with the log. -/
class Shipped (S : Type) [WalStore S] where
  /-- The byte at each offset. -/
  image : S → Image UInt8
  /-- The head that the store has on record. -/
  recordedHead : S → Nat
  /-- Where `truncate_before` moves the head to. -/
  dropTo : Nat → S → Nat
  /-- The store with the outcomes that its next system calls have. -/
  setFaults : List Bool → S → S
  /-- The store that the next process opens. -/
  reopen : S → Except Fault S
  /-- The parts of the store are in order. -/
  Usable : S → Prop
  /-- No system call fails. -/
  Calm : S → Prop
  /-- Nothing is stored. -/
  Blank : S → Prop

namespace Shipped

variable {S : Type} [WalStore S] [Shipped S]

/-- The store still has its head on record, and every byte below `n`. -/
structure Retains (n : Nat) (s s' : S) : Prop where
  usable : Usable s'
  head_eq : recordedHead s' = recordedHead s
  kept : ∀ o b, o < n → image s o = some b → image s' o = some b

/-- The store is the same to its readers. -/
structure Same (s s' : S) : Prop where
  usable : Usable s'
  calm : Calm s'
  head_eq : recordedHead s' = recordedHead s
  image_eq : image s' = image s
  blank : Blank s → Blank s'

theorem Retains.trans {n n' : Nat} {s s1 s2 : S} (h : Retains n s s1) (h' : Retains n' s1 s2)
    (hle : n ≤ n') : Retains n s s2 :=
  ⟨h'.usable, h'.head_eq.trans h.head_eq,
    fun o b ho hb => h'.kept o b (Nat.lt_of_lt_of_le ho hle) (h.kept o b ho hb)⟩

theorem Same.retains {s s' : S} (h : Same s s') (n : Nat) : Retains n s s' :=
  ⟨h.usable, h.head_eq, fun o b _ hb => by rw [h.image_eq]; exact hb⟩

end Shipped

open Shipped

/-- What the calls of a shipped store do to its parts. -/
class LawfulShipped (S : Type) [WalStore S] [Shipped S] : Prop where
  setFaults_retains : ∀ {s : S} (faults : List Bool) (n : Nat), Usable s →
    Retains n s (setFaults faults s)
  setFaults_calm : ∀ s : S, Calm (setFaults [] s)
  setFaults_blank : ∀ {s : S} (faults : List Bool), Blank s → Blank (setFaults faults s)
  image_past : ∀ (s : S) {o : Nat}, 2 ^ 64 - 1 ≤ o → image s o = none
  blank_image : ∀ {s : S} (o : Nat), Blank s → image s o = none
  blank_head : ∀ {s : S}, Usable s → Blank s → recordedHead s = 0
  reads : ∀ {s : S}, Usable s → Calm s →
    ∃ (reach : Nat → Nat → Prop) (P : S → Prop), Probes reach (image s) P ∧ P s ∧ ∀ t, P t → Same s t
  writeAt : ∀ {s : S} {off : Nat} {bytes : List UInt8}, Usable s → off + bytes.length < 2 ^ 64 →
    (WalStore.writeAt off bytes).Ends s
      (fun _ s' => Retains off s s' ∧ ∀ k < bytes.length, image s' (off + k) = bytes[k]?)
      fun _ => Retains off s
  sync : ∀ {s : S} (n : Nat), Usable s →
    (WalStore.sync : Act S Fault Unit).Ends s (fun _ => Retains n s) fun _ => Retains n s
  truncate : ∀ {s : S} {len : Nat}, Usable s → Calm s → recordedHead s ≤ len → len < 2 ^ 64 →
    (WalStore.truncate len).Ends s
      (fun _ s' => Retains len s s' ∧ Calm s' ∧ (len = 0 → Blank s')) fun _ => Retains len s
  truncateBefore : ∀ {s : S} (lsn : Nat), Usable s → Calm s →
    ∃ s', WalStore.truncateBefore lsn s = (.ok (dropTo lsn s), s') ∧ Usable s' ∧
      recordedHead s' = dropTo lsn s ∧ (∀ o, dropTo lsn s ≤ o → image s' o = image s o) ∧
      (Blank s → Blank s')
  /-- The next process finds the bytes and, unless they end below it, the head. -/
  reopen : ∀ {s s' : S}, Usable s → Calm s → reopen s = .ok s' →
    ∃ (n : Nat) (reach : Nat → Nat → Prop) (P : S → Prop), Sight reach (image s) n P ∧ P s' ∧
      WalStore.head s' = (.ok (min (recordedHead s) n), s') ∧
      (recordedHead s ≤ n → ∀ t, P t → Usable t ∧ Calm t ∧ recordedHead t = recordedHead s ∧
        image t = image s) ∧
      (n = 0 → ∀ t, P t → Blank t)

/-! ## Stores that hold one run of bytes -/

section Bytes

variable {data bytes : List UInt8} {off o len : Nat} {b : UInt8}

theorem ofList_overwrite_below (ho : o < off) (hb : Image.ofList data o = some b) :
    Image.ofList (overwrite data off bytes) o = some b := by
  obtain ⟨hlen, -⟩ := List.getElem?_eq_some_iff.mp hb
  exact (getElem?_overwrite_out (Or.inl ho) hlen).trans hb

theorem ofList_overwrite_at {k : Nat} (hk : k < bytes.length) :
    Image.ofList (overwrite data off bytes) (off + k) = bytes[k]? := by
  refine (getElem?_overwrite_in (Nat.le_add_right _ _) (Nat.add_lt_add_left hk _)).trans ?_
  rw [Nat.add_sub_cancel_left]

theorem ofList_take_below {rest : List UInt8} (ho : o < len) (hb : Image.ofList data o = some b) :
    Image.ofList (data.take len ++ rest) o = some b := by
  obtain ⟨hlen, -⟩ := List.getElem?_eq_some_iff.mp hb
  show (data.take len ++ rest)[o]? = some b
  rw [List.getElem?_append_left (by rw [List.length_take]; omega), List.getElem?_take_of_lt ho]
  exact hb

theorem ofList_past {limit : Nat} (hlt : data.length < limit) (ho : limit ≤ o) :
    Image.ofList data o = none :=
  List.getElem?_eq_none (Nat.le_trans (Nat.le_of_lt hlt) ho)

end Bytes

namespace MemStore

/-- Memory is handed from one log to the next as it is. -/
instance : Shipped MemStore where
  image s := Image.ofList s.data
  recordedHead _ := 0
  dropTo _ _ := 0
  setFaults _ s := s
  reopen s := .ok s
  Usable _ := True
  Calm _ := True
  Blank s := s.data = []

theorem same_self (s : MemStore) : Same s s := ⟨trivial, trivial, rfl, rfl, fun h => h⟩

/-- A write to memory either puts its bytes there or leaves it as it was. -/
theorem writeAt_ends (off : Nat) (bytes : List UInt8) (s : MemStore) :
    (WalStore.writeAt off bytes).Ends s (fun _ s' => s'.data = overwrite s.data off bytes)
      fun _ s' => s' = s := by
  cases hrun : WalStore.writeAt off bytes s with
  | mk result s' =>
      cases result with
      | ok u => exact Act.ends_of_ok hrun (writeAt_data hrun)
      | error e =>
          refine Act.ends_of_error hrun ?_
          have hrun : writeAt off bytes s = (.error e, s') := hrun
          unfold writeAt at hrun
          split at hrun
          · cases hrun
            rfl
          · dsimp only at hrun
            generalize (if s.data.length < off + bytes.length then _ else s.data) = data at hrun
            split at hrun <;> cases hrun
            rfl

instance : LawfulShipped MemStore where
  setFaults_retains {s} _ n _ := (same_self s).retains n
  setFaults_calm _ := trivial
  setFaults_blank _ h := h
  image_past s _ ho := ofList_past (Nat.lt_trans s.data_lt (by decide)) ho
  blank_image {s} o h := by
    show s.data[o]? = none
    rw [show s.data = [] from h]
    rfl
  blank_head _ _ := rfl
  reads {s} _ _ := by
    refine ⟨_, (· = s), (MemStore.flat.sight s).toProbes, rfl, fun t ht => ?_⟩
    subst ht
    exact same_self t
  writeAt {s off bytes} _ _ := by
    refine (writeAt_ends off bytes s).mono (fun _ s' hdata => ?_) fun _ s' heq => ?_
    · refine ⟨⟨trivial, rfl, fun o b ho hb => ?_⟩, fun k hk => ?_⟩
      · show Image.ofList s'.data o = some b
        rw [hdata]
        exact ofList_overwrite_below ho hb
      · show Image.ofList s'.data (off + k) = _
        rw [hdata]
        exact ofList_overwrite_at hk
    · subst heq
      exact (same_self s').retains off
  sync {s} n _ := Act.ends_pure ((same_self s).retains n)
  truncate {s len} _ _ _ _ := by
    refine Act.ends_of_ok rfl ⟨⟨trivial, rfl, fun o b ho hb => ?_⟩, trivial, fun hzero => ?_⟩
    · have := @ofList_take_below s.data o len b [] ho hb
      rwa [List.append_nil] at this
    · subst hzero
      rfl
  truncateBefore {s} _ _ _ := ⟨s, rfl, trivial, rfl, fun _ _ => rfl, fun h => h⟩
  reopen {s s'} _ _ hopen := by
    cases hopen
    refine ⟨s.data.length, _, (· = s), MemStore.flat.sight s, rfl, rfl, fun _ t ht => ?_,
      fun hn t ht => ?_⟩
    · subst ht
      exact ⟨trivial, trivial, rfl, rfl⟩
    · subst ht
      exact List.length_eq_zero_iff.mp hn

end MemStore

namespace FileStore

instance : Shipped FileStore where
  image s := Image.ofList s.file.written
  recordedHead _ := 0
  dropTo _ _ := 0
  setFaults faults s := { s with faults := faults }
  reopen s := FileBacked.reopen s
  Usable _ := True
  Calm s := s.faults = []
  Blank s := s.file.written = []

/-- Where the file holds the same bytes, so does the store. -/
theorem retains_of_written {s s' : FileStore} (h : s'.file.written = s.file.written) (n : Nat) :
    Retains n s s' := by
  refine ⟨trivial, rfl, fun o b _ hb => ?_⟩
  show Image.ofList s'.file.written o = some b
  rw [h]
  exact hb

/-- A system call leaves the file alone. -/
theorem os_ends (context : String) (s : FileStore) :
    (os context).Ends s (fun _ s' => s'.file = s.file) fun _ s' => s'.file = s.file := by
  cases hrun : os context s with
  | mk result s' =>
      have hfile : s'.file = s.file := by
        rw [← show (os context s).2 = s' by rw [hrun]]
        rfl
      cases result with
      | ok u => exact Act.ends_of_ok hrun hfile
      | error e => exact Act.ends_of_error hrun hfile

theorem writeAt_ends (off : Nat) {bytes : List UInt8} (hne : bytes ≠ []) (s : FileStore) :
    (WalStore.writeAt off bytes).Ends s
      (fun _ s' => s'.file.written = overwrite s.file.written off bytes)
      fun _ s' => s'.file.written = s.file.written := by
  show (writeAt off bytes).Ends s _ _
  rw [writeAt, if_neg hne]
  refine ((os_ends "writing a record" s).mono (fun _ _ h => h) fun _ _ h => ?_).bind
    fun _ s1 h1 => ?_
  · rw [h]
  · rw [← h1]
    unfold Act.Ends
    dsimp only
    split
    · rename_i hrun
      split at hrun <;> cases hrun
      rfl
    · rename_i hrun
      split at hrun <;> cases hrun
      rfl

/-- The file has the bytes that it had. -/
def SameBytes (s s' : FileStore) : Prop :=
  s'.file.written = s.file.written

theorem sync_ends (s : FileStore) :
    (WalStore.sync : Act FileStore Fault Unit).Ends s (fun _ => SameBytes s)
      fun _ => SameBytes s := by
  have hos : ∀ context (t : FileStore),
      (os context).Walks SameBytes t (fun _ _ => True) fun _ => True := fun context t =>
    (os_ends context t).mono (fun _ _ h => ⟨.single (congrArg File.written h), trivial⟩)
      fun _ _ h => ⟨.single (congrArg File.written h), trivial⟩
  have hsync : (sync : Act FileStore Fault Unit).Walks SameBytes s (fun _ _ => True)
      fun _ => True := by
    have hput : ∀ (t : FileStore) dirty, SameBytes t { t with parentDirty := dirty } :=
      fun _ _ => rfl
    exact (flushDirIfDirty_walks hput (hos _) s).bind fun _ s1 _ _ =>
      (hos _ s1).bind fun _ s2 _ _ => Act.walks_step rfl rfl trivial
  exact (hsync.keeps (I := SameBytes s) rfl fun _ _ hstep heq => hstep.trans heq).mono
    (fun _ _ h => h.1) fun _ _ h => h.1

/-- Cutting a file keeps what lies below the cut. -/
theorem truncate_ends (len : Nat) {s : FileStore} (h : s.faults = []) :
    (WalStore.truncate len).Ends s
      (fun _ s' => s'.file = s.file.setLen len ∧ s'.faults = []) fun _ s' => s' = s := by
  show (truncate len).Ends s _ _
  rw [Act.Ends, truncate, Act.bind_ok (os_ok h _)]
  split
  · rename_i hrun
    split at hrun <;> cases hrun
    exact ⟨rfl, h⟩
  · rename_i hrun
    split at hrun <;> cases hrun
    rfl

instance : LawfulShipped FileStore where
  setFaults_retains {s} faults n _ := @retains_of_written s { s with faults := faults } rfl n
  setFaults_calm _ := rfl
  setFaults_blank _ h := h
  image_past s _ ho := ofList_past (Nat.lt_trans s.written_lt (by decide)) ho
  blank_image {s} o h := by
    show s.file.written[o]? = none
    rw [show s.file.written = [] from h]
    rfl
  blank_head _ _ := rfl
  reads {s} _ hcalm := by
    refine ⟨_, (· = s), (FileStore.sight hcalm).toProbes, rfl, fun t ht => ?_⟩
    subst ht
    exact ⟨trivial, hcalm, rfl, rfl, fun h => h⟩
  writeAt {s off bytes} _ _ := by
    by_cases hne : bytes = []
    · subst hne
      exact Act.ends_pure ⟨retains_of_written rfl off, fun k hk => absurd hk (Nat.not_lt_zero k)⟩
    refine (writeAt_ends off hne s).mono (fun _ s' hdata => ?_) fun _ s' heq => ?_
    · refine ⟨⟨trivial, rfl, fun o b ho hb => ?_⟩, fun k hk => ?_⟩
      · show Image.ofList s'.file.written o = some b
        rw [hdata]
        exact ofList_overwrite_below ho hb
      · show Image.ofList s'.file.written (off + k) = _
        rw [hdata]
        exact ofList_overwrite_at hk
    · exact retains_of_written heq off
  sync {s} n _ :=
    (sync_ends s).mono (fun _ _ h => retains_of_written h n) fun _ _ h => retains_of_written h n
  truncate {s len} _ hcalm _ _ := by
    refine (truncate_ends len hcalm).mono (fun _ s' h => ?_) fun _ s' heq => ?_
    · obtain ⟨hfile, hfaults⟩ := h
      refine ⟨⟨trivial, rfl, fun o b ho hb => ?_⟩, hfaults, fun hzero => ?_⟩
      · show Image.ofList s'.file.written o = some b
        rw [hfile]
        exact ofList_take_below ho hb
      · subst hzero
        show s'.file.written = []
        rw [hfile]
        simp [File.setLen]
    · exact retains_of_written (by rw [heq]) len
  truncateBefore {s} _ _ _ := ⟨s, rfl, trivial, rfl, fun _ _ => rfl, fun h => h⟩
  reopen {s s'} _ hcalm hopen := by
    cases hopen
    have hcalm' : (ofFile s.file s.faults s.written_lt).faults = [] := hcalm
    refine ⟨s.file.written.length, _, (· = ofFile s.file s.faults s.written_lt),
      FileStore.sight hcalm', rfl, rfl, fun _ t ht => ?_, fun hn t ht => ?_⟩
    · subst ht
      exact ⟨trivial, hcalm, rfl, rfl⟩
    · subst ht
      exact List.length_eq_zero_iff.mp hn

end FileStore

/-! ## The segmented store -/

namespace SegmentedStore

/-- Every handle has its file, and the head is within the store and on disk. -/
structure InOrder (s : SegmentedStore) : Prop where
  handles_ok : ∀ i ∈ s.handles, (s.seg i).isSome = true
  marker_eq : s.dir.marker.getD 0 = s.head
  head_le : s.head ≤ s.maxWritten
  maxWritten_lt : s.maxWritten < 2 ^ 64

instance : Shipped SegmentedStore where
  image := image
  recordedHead := head
  dropTo lsn s := s.clampedHead lsn
  setFaults faults s := { s with dir := { s.dir with faults := faults } }
  reopen s := FileBacked.reopen s
  Usable := InOrder
  Calm s := s.dir.faults = []
  Blank s := s.maxWritten = 0 ∧ ∀ o, s.image o = none

section Segmented

variable {s s' : SegmentedStore}

/-- A call that leaves the head alone keeps the store in order while the head is within it. -/
theorem InOrder.of_head_eq (hs : s.InOrder) (hhandles : ∀ i ∈ s'.handles, (s'.seg i).isSome = true)
    (hfile : s'.dir.headFile = s.dir.headFile) (hhead : s'.head = s.head)
    (hle : s.head ≤ s'.maxWritten) (hlt : s'.maxWritten < 2 ^ 64) : s'.InOrder where
  handles_ok := hhandles
  marker_eq := by rw [Dir.marker_congr hfile, hhead]; exact hs.marker_eq
  head_le := by rw [hhead]; exact hle
  maxWritten_lt := hlt

/-- What a call that may fail keeps, of a store in order. -/
theorem Keeping.retains {n : Nat} (h : Keeping n s s') (hs : s.InOrder) : Retains n s s' where
  usable := hs.of_head_eq h.handles_ok h.headFile_eq h.head_eq
    (h.maxWritten_eq ▸ hs.head_le) (h.maxWritten_eq ▸ hs.maxWritten_lt)
  head_eq := h.head_eq
  kept := h.below

theorem SameFiles.same (h : SameFiles s s') (hs : s.InOrder) : Same s s' where
  usable := hs.of_head_eq h.handles_ok h.headFile_eq h.head_eq
    (h.maxWritten_eq ▸ hs.head_le) (h.maxWritten_eq ▸ hs.maxWritten_lt)
  calm := h.faults_eq
  head_eq := h.head_eq
  image_eq := h.image_eq
  blank := fun hb => ⟨h.maxWritten_eq.trans hb.1, fun o => by rw [h.image_eq]; exact hb.2 o⟩

theorem Truncated.retains {len : Nat} (h : Truncated len s s') (hs : s.InOrder)
    (hle : s.head ≤ len) (hlt : len < 2 ^ 64) : Retains len s s' where
  usable := hs.of_head_eq h.handles_ok h.headFile_eq h.head_eq
    (h.maxWritten_eq ▸ hle) (h.maxWritten_eq ▸ hlt)
  head_eq := h.head_eq
  kept := fun _ _ ho hb => h.image_below ho hb

/-- The head moves, and what lies from it on is kept. -/
theorem Dropped.inOrder {lsn : Nat} (h : Dropped lsn s s') (hs : s.InOrder) : s'.InOrder where
  handles_ok := h.handles_ok
  marker_eq := by
    have hle := s.clampedHead_le lsn
    have hlt := hs.maxWritten_lt
    rw [marker_headMarker (by omega) h.headFile_eq, h.head_eq]
    rfl
  head_le := by rw [h.head_eq, h.maxWritten_eq]; exact s.clampedHead_le lsn
  maxWritten_lt := by rw [h.maxWritten_eq]; exact hs.maxWritten_lt

theorem Dropped.image_eq {lsn : Nat} (h : Dropped lsn s s') {o : Nat}
    (ho : s.clampedHead lsn ≤ o) : s'.image o = s.image o :=
  h.thinned.image_kept (Nat.le_trans (Nat.min_le_left _ _) (Nat.div_le_div_right ho))

/-- A directory whose marker does not lie past its files is opened in order. -/
theorem Opened.inOrder (h : Opened s.segmentSize false s.dir s') (hs : s.InOrder)
    (hle : s.head ≤ s'.maxWritten) : s'.InOrder where
  handles_ok := fun i hi => by
    rw [h.handles_eq] at hi
    cases hi
  marker_eq := by rw [h.head_eq, h.dir_eq, hs.marker_eq, Nat.min_eq_left hle]
  head_le := h.head_le
  maxWritten_lt := h.spans.lt

instance : LawfulShipped SegmentedStore where
  setFaults_retains {s} faults n h := ((Keeping.refl h.handles_ok n).faults faults).retains h
  setFaults_calm _ := rfl
  setFaults_blank _ h := h
  image_past s _ ho := if_neg (Nat.not_lt.mpr ho)
  blank_image o h := h.2 o
  blank_head h hb := Nat.le_zero.mp (hb.1 ▸ h.head_le)
  reads {s} h hcalm :=
    ⟨_, SameFiles s, SegmentedStore.probes s, SameFiles.refl ⟨hcalm, h.handles_ok⟩,
      fun _ ht => ht.same h⟩
  writeAt {s off bytes} h hfit := by
    refine (writeAt_ends hfit h.handles_ok).mono (fun _ s' hwrote => ?_)
      fun _ s' hkeep => hkeep.retains h
    obtain ⟨hkeep, hhas, hmax⟩ := hwrote
    have hr := hkeep.retains h
    have hlt := h.maxWritten_lt
    have hle := h.head_le
    have hhead : s'.head = s.head := hr.head_eq
    exact ⟨⟨⟨hr.usable.handles_ok, hr.usable.marker_eq, by omega, by omega⟩, hr.head_eq, hr.kept⟩,
      hhas⟩
  sync {s} n h :=
    (sync_keeping n h.handles_ok).mono (fun _ _ hk => hk.retains h)
      fun _ _ hk => hk.retains h
  truncate {s len} h hcalm hle hlt := by
    obtain ⟨s', hrun, hs'⟩ := truncate_ok ⟨hcalm, h.handles_ok⟩ len
    refine Act.ends_of_ok hrun ⟨hs'.retains h hle hlt, hs'.faults_eq, fun hzero => ?_⟩
    subst hzero
    exact ⟨hs'.maxWritten_eq, fun o => hs'.image_past (Nat.zero_le o)⟩
  truncateBefore {s} lsn h hcalm := by
    obtain ⟨s', hrun, hs'⟩ := truncateBefore_ok ⟨hcalm, h.handles_ok⟩ h.head_le lsn
    refine ⟨s', hrun, hs'.inOrder h, hs'.head_eq, fun o ho => hs'.image_eq ho, fun hb => ?_⟩
    refine ⟨hs'.maxWritten_eq.trans hb.1, fun o => ?_⟩
    have hzero : s.clampedHead lsn = 0 := Nat.le_zero.mp (hb.1 ▸ s.clampedHead_le lsn)
    rw [hs'.image_eq (by omega)]
    exact hb.2 o
  reopen {s s'} h hcalm hopen := by
    obtain ⟨t, hrun, ht⟩ := openDir_ok s.segmentSize_pos false hcalm
    have hopen : (openDir s.segmentSize false s.dir).1 = .ok s' := hopen
    rw [hrun] at hopen
    cases hopen
    refine ⟨s'.maxWritten, s'.InRange, SameFiles s', ?_, SameFiles.refl (ht.ready hcalm), ?_,
      fun hle t hsame => ?_, fun hzero t hsame => ?_⟩
    · show Sight _ s.image _ _
      rw [← ht.image_eq]
      exact ht.sight
    · show (Except.ok s'.head, s') = _
      rw [ht.head_eq, h.marker_eq]
      rfl
    · have hal := hsame.same (ht.inOrder h hle)
      refine ⟨hal.usable, hal.calm, hal.head_eq.trans ?_, hal.image_eq.trans ht.image_eq⟩
      show s'.head = s.head
      rw [ht.head_eq, h.marker_eq]
      exact Nat.min_eq_left hle
    · refine ⟨hsame.maxWritten_eq.trans hzero, fun o => ?_⟩
      rw [hsame.image_eq]
      exact past_of_spans ht.spans_self (by omega)

end Segmented

end SegmentedStore

end WalDb
