/-
Every program gets the same answers from the three shipped stores.

A program opens a log, appends, syncs, reads, truncates its end and opens it again, with
whatever arguments and settings it likes.  Over one file and over segments of any size it
is told exactly what it would be told over memory, errors and their texts included, for
any bytes that were there at the start, intact records or not.  What is left out is
`truncate_before`, which only the segmented store can do, and over one file requests that
could make the log read past the largest file offset: the system refuses such a read, where
memory and the segments have nothing there.
-/
import WalDb.Portable
import WalDb.Program
import WalDb.Segment.Gaps

namespace WalDb

open Lib Lib.Act Record

/-! ## Programs -/

/-- The bytes a request may add. -/
def Request.room : Request → Nat
  | .append record => framedLen record.length
  | .appendAndSync record => framedLen record.length
  | _ => 0

/-- Whether it drops a prefix. -/
def Request.dropsPrefix : Request → Bool
  | .truncateBefore _ => true
  | _ => false

/-- The bytes in memory. -/
def Handle.size : Handle MemStore → Nat
  | .isOpen wal => wal.store.data.length
  | .closed store => store.data.length

/-- The request is one that every store can do, and memory can hold what it may add. -/
def Handle.Fits (h : Handle MemStore) (q : Request) : Prop :=
  q.dropsPrefix = false ∧ h.size + q.room < 2 ^ 63

instance (h : Handle MemStore) (q : Request) : Decidable (h.Fits q) :=
  inferInstanceAs (Decidable (_ ∧ _))

/-- No read of the request ends after this offset: it is a record past the one that is looked
for, or past the end of what is read. -/
def Handle.readsTo (h : Handle MemStore) (q : Request) : Nat :=
  match h, q with
  | .isOpen wal, .iter => wal.commit.committed + headerLen + wal.maxRecordSize
  | .isOpen wal, .iterFrom _ => wal.commit.committed + headerLen + wal.maxRecordSize
  | .isOpen wal, .truncateAfter lsn => lsn + headerLen + wal.maxRecordSize
  | h, .reopen config => h.size + headerLen + config.maxRecordSize
  | _, _ => 0

section Programs

variable {S : Type} {reach : Nat → Prop} {R : S → MemStore → Prop}

/-- The logs are twins, or both are closed over related stores. -/
def Handle.Twin (R : S → MemStore → Prop) : Handle S → Handle MemStore → Prop
  | .isOpen wal, .isOpen mem => Wal.Between R wal mem
  | .closed s, .closed mem => R s mem
  | _, _ => False

/-- A call that ends alike is answered alike. -/
theorem Handle.ofCall_eq {α : Type} {x : Act (Wal S) Fault α} {y : Act (Wal MemStore) Fault α}
    {P : Wal S → Wal MemStore → Prop} (h : Lockstep P (Wal.Between R) x y) {wal : Wal S}
    {mem : Wal MemStore} (hP : P wal mem) (reply : α → Reply) :
    (ofCall reply (x wal)).1 = (ofCall reply (y mem)).1 ∧
      Handle.Twin R (ofCall reply (x wal)).2 (ofCall reply (y mem)).2 :=
  ⟨congrArg (Except.map reply) (h wal mem hP).1, (h wal mem hP).2⟩

variable [WalStore S] [Shipped S]

theorem Handle.reopen_eq (M : Mimics reach R) (config : WalConfig) {s : S} {mem : MemStore}
    (hR : R s mem) (hreach : reach (mem.data.length + headerLen + config.maxRecordSize)) :
    (Handle.reopen config s).1 = (Handle.reopen config mem).1 ∧
      Handle.Twin R (Handle.reopen config s).2 (Handle.reopen config mem).2 := by
  obtain ⟨s', hs', hR'⟩ := M.reopen hR
  have hmem : (Shipped.reopen mem : Except Fault MemStore) = .ok mem := rfl
  unfold Handle.reopen
  rw [hs', hmem]
  dsimp only
  rcases open_lockstep M config hR' hreach with
    ⟨wal, v, hw, hv, hb⟩ | ⟨fault, t, mem', hw, hv, hR''⟩
  · rw [hw, hv]
    obtain ⟨m, k, ht⟩ := hb
    exact ⟨congrArg (fun cut => Except.ok (Reply.opened cut)) ht.cut_eq, m, k, ht⟩
  · rw [hw, hv]
    exact ⟨rfl, hR''⟩

/-- Every request is answered as in memory. -/
theorem Handle.ask_eq (M : Mimics reach R) {h : Handle S} {h' : Handle MemStore} (hT : h.Twin R h')
    {q : Request} (hfits : h'.Fits q) (hreach : reach (h'.readsTo q)) :
    (h.ask q).1 = (h'.ask q).1 ∧ (h.ask q).2.Twin R (h'.ask q).2 := by
  cases h with
  | closed s =>
      cases h' with
      | isOpen mem => exact hT.elim
      | closed mem =>
          cases q with
          | reopen config => exact reopen_eq M config hT hreach
          | _ => exact ⟨rfl, hT⟩
  | isOpen wal =>
      cases h' with
      | closed mem => exact hT.elim
      | isOpen mem =>
          obtain ⟨m, k, ht⟩ := hT
          have F := M.toReflects.sized k
          have hmax := ht.mem_max_eq
          obtain ⟨hall, hfits⟩ := hfits
          have hfits : mem.store.data.length + q.room < 2 ^ 63 := hfits
          rw [ht.store.2] at hfits
          have hkeep : ∀ w v, Wal.Twin (Sized R k) m k w v → Wal.Between R w v :=
            fun _ _ h => ⟨m, k, h⟩
          cases q with
          | append record => exact ofCall_eq (Wal.append_lockstep M record hfits) ht _
          | appendAndSync record => exact ofCall_eq (Wal.appendAndSync_lockstep M record hfits) ht _
          | sync => exact ofCall_eq ((Wal.sync_lockstep F).mono hkeep) ht _
          | iter =>
              have hit : wal.iter = mem.iter := by
                simp only [Wal.iter, ht.head_eq, ht.commit_eq, ht.policy_eq]
              simp only [ask, hit]
              exact ofCall_eq ((Wal.Iter.collect_lockstep (Wal.Twin.readsAlike F) _
                (hmax ▸ hreach)).mono hkeep) ht _
          | iterFrom lsn =>
              have hit : wal.iterFrom lsn = mem.iterFrom lsn := by
                simp only [Wal.iterFrom, ht.head_eq, ht.commit_eq, ht.policy_eq]
              simp only [ask, hit]
              exact ofCall_eq ((Wal.Iter.collect_lockstep (Wal.Twin.readsAlike F) _
                (hmax ▸ hreach)).mono hkeep) ht _
          | truncateAfter lsn => exact ofCall_eq (Wal.truncateAfter_lockstep M (hmax ▸ hreach)) ht _
          | truncateBefore lsn => cases hall
          | len =>
              refine ⟨?_, m, k, ht⟩
              simp only [ask, Wal.len, ht.tail_eq, ht.mem_tail_eq]
          | isEmpty =>
              refine ⟨?_, m, k, ht⟩
              simp only [ask, Wal.isEmpty, Wal.len, ht.tail_eq, ht.mem_tail_eq]
          | reopen config => exact reopen_eq M config ht.store.1 hreach

/-- A whole program gets the same answers. -/
theorem Mimics.answers_eq (M : Mimics reach R) {s : S} {mem : MemStore} (hR : R s mem)
    {requests : List Request}
    (hok : Throughout Handle.ask (fun h q => h.Fits q ∧ reach (h.readsTo q)) (.closed mem)
      requests) :
    answers Handle.ask (.closed s) requests = answers Handle.ask (.closed mem) requests := by
  have hstep : ∀ (h : Handle S) (h' : Handle MemStore) q, h.Twin R h' →
      h'.Fits q ∧ reach (h'.readsTo q) → True →
      (h.ask q).1 = (h'.ask q).1 ∧ (h.ask q).2.Twin R (h'.ask q).2 :=
    fun h h' q hT hq _ => Handle.ask_eq M hT hq.1 hq.2
  exact Lib.answers_eq _ hstep (show Handle.Twin R (.closed s) (.closed mem) from hR) hok
    fun _ _ => trivial

end Programs

/-! ## One file -/

/-- The file holds what memory holds, and no system call fails. -/
def FileStore.Holding (s : FileStore) (mem : MemStore) : Prop :=
  s.faults = [] ∧ s.file.written = mem.data

theorem FileStore.mimics : Mimics (· < 2 ^ 63) FileStore.Holding where
  down := Nat.lt_of_le_of_lt
  readAt off n hreach s mem h := by
    rw [readAt_ok h.1 hreach, MemStore.readAt_eq, h.2]
    exact ⟨rfl, h⟩
  sync s mem h := by
    rw [sync_ok h.1]
    exact ⟨rfl, h⟩
  len s mem h := by
    rw [len_ok h.1, h.2]
    exact ⟨rfl, h⟩
  head s mem h := ⟨rfl, h⟩
  writeAt n bytes hfit s mem h := by
    obtain ⟨⟨hcalm, hdata⟩, hlen⟩ := h
    obtain ⟨mem', hmem⟩ := MemStore.writeAt_end bytes hlen hfit
    have hmem' := MemStore.writeAt_data hmem
    rw [hmem]
    by_cases hne : bytes = []
    · subst hne
      refine ⟨rfl, hcalm, ?_⟩
      show s.file.written = mem'.data
      rw [hmem', ← hlen, overwrite_end, List.append_nil, hdata]
    · rcases writeAt_cases n hne hcalm with ⟨hlt, hrun⟩ | ⟨hge, -⟩
      · rw [hrun]
        refine ⟨rfl, hcalm, ?_⟩
        show overwrite s.file.written n bytes = mem'.data
        rw [hmem', hdata]
      · rw [length_overwrite, hdata, hlen] at hge
        omega
  truncate n len hle s mem h := by
    obtain ⟨⟨hcalm, hdata⟩, hlen⟩ := h
    have hcut : (s.file.setLen len).written = mem.data.take len := by
      show s.file.written.take len ++ List.replicate (len - s.file.written.length) 0 = _
      rw [hdata, hlen, Nat.sub_eq_zero_of_le hle, List.replicate_zero, List.append_nil]
    have hbig : (s.file.setLen len).written.length < 2 ^ 63 := by
      have := mem.data_lt
      rw [hcut, List.length_take]
      omega
    have hrun : WalStore.truncate len s =
        (.ok (), { s with file := s.file.setLen len, written_lt := hbig }) := by
      show truncate len s = _
      rw [truncate, Act.bind_ok (os_ok hcalm _)]
      exact dif_pos hbig
    rw [hrun]
    exact ⟨rfl, hcalm, hcut⟩
  reopen h := ⟨_, rfl, h⟩

/-! ## Segments -/

namespace SegmentedStore

/-- The segments hold what memory holds.  No system call fails and nothing was dropped. -/
structure Holding (size : Nat) (s : SegmentedStore) (mem : MemStore) : Prop extends Ready s where
  size_eq : s.segmentSize = size
  short : s.Short
  within : s.Within
  image_eq : ∀ o, s.image o = mem.data[o]?
  len_eq : s.maxWritten = mem.data.length
  head_eq : s.head = 0
  marker_eq : s.dir.marker.getD 0 = 0

variable {size : Nat} {s s' : SegmentedStore} {mem : MemStore}

theorem Holding.len_lt (h : s.Holding size mem) : s.maxWritten < 2 ^ 64 := by
  have := mem.data_lt
  rw [h.len_eq]
  omega

theorem Holding.sameFiles (h : s.Holding size mem) (hs : SameFiles s s') : s'.Holding size mem where
  toReady := hs.toReady
  size_eq := hs.segmentSize_eq.trans h.size_eq
  short i n hn := by
    rw [hs.segmentSize_eq]
    rw [segLen, hs.seg_eq] at hn
    exact h.short i n hn
  within i n hn := by
    rw [hs.segmentSize_eq, hs.maxWritten_eq]
    rw [segLen, hs.seg_eq] at hn
    exact h.within i n hn
  image_eq o := by rw [hs.image_eq]; exact h.image_eq o
  len_eq := hs.maxWritten_eq.trans h.len_eq
  head_eq := hs.head_eq.trans h.head_eq
  marker_eq := by rw [Dir.marker_congr hs.headFile_eq]; exact h.marker_eq

theorem Holding.synced (h : s.Holding size mem) (hs : Synced s s') : s'.Holding size mem where
  toReady := hs.toReady
  size_eq := hs.segmentSize_eq.trans h.size_eq
  short i n hn := by
    rw [hs.segmentSize_eq]
    rw [hs.segLen_eq] at hn
    exact h.short i n hn
  within i n hn := by
    rw [hs.segmentSize_eq, hs.maxWritten_eq]
    rw [hs.segLen_eq] at hn
    exact h.within i n hn
  image_eq o := by rw [hs.image_eq]; exact h.image_eq o
  len_eq := hs.maxWritten_eq.trans h.len_eq
  head_eq := hs.head_eq.trans h.head_eq
  marker_eq := by rw [Dir.marker_congr hs.headFile_eq]; exact h.marker_eq

/-- A write at the end. -/
theorem Holding.written (h : s.Holding size mem) {bytes : List UInt8} {mem' : MemStore}
    (hfit : mem.data.length + bytes.length < 2 ^ 64)
    (hw : Written mem.data.length bytes s s') (hmem : mem'.data = mem.data ++ bytes) :
    s'.Holding size mem' where
  toReady := hw.toReady
  size_eq := hw.segmentSize_eq.trans h.size_eq
  short := hw.toPatched.short h.short
  within := hw.within h.within
  image_eq o := by
    rw [hmem]
    by_cases hlt : o < mem.data.length
    · rw [List.getElem?_append_left hlt]
      have hget := List.getElem?_eq_getElem hlt
      rw [hget]
      exact hw.toPatched.image_out (Or.inl hlt) ((h.image_eq o).trans hget)
    · rw [List.getElem?_append_right (Nat.not_lt.mp hlt)]
      by_cases hin : o < mem.data.length + bytes.length
      · exact hw.toPatched.image_in hfit (Nat.not_lt.mp hlt) hin
      · rw [List.getElem?_eq_none (by omega)]
        refine hw.toPatched.image_past (Nat.not_lt.mp hin) ?_
        rw [h.image_eq]
        exact List.getElem?_eq_none (Nat.not_lt.mp hlt)
  len_eq := by
    rw [hw.maxWritten_eq, h.len_eq, hmem, List.length_append]
    omega
  head_eq := hw.head_eq.trans h.head_eq
  marker_eq := by rw [Dir.marker_congr hw.headFile_eq]; exact h.marker_eq

theorem Holding.truncated (h : s.Holding size mem) {len : Nat} {mem' : MemStore}
    (hle : len ≤ mem.data.length) (ht : Truncated len s s') (hmem : mem'.data = mem.data.take len) :
    s'.Holding size mem' where
  toReady := ht.toReady
  size_eq := ht.segmentSize_eq.trans h.size_eq
  short := ht.short h.short
  within := ht.within h.short
  image_eq o := by
    rw [hmem]
    by_cases hlt : o < len
    · have hget := List.getElem?_eq_getElem (Nat.lt_of_lt_of_le hlt hle)
      rw [List.getElem?_take_of_lt hlt, hget]
      exact ht.image_below hlt ((h.image_eq o).trans hget)
    · rw [ht.image_past (Nat.not_lt.mp hlt)]
      refine (List.getElem?_eq_none ?_).symm
      rw [List.length_take]
      omega
  len_eq := by
    rw [ht.maxWritten_eq, hmem, List.length_take]
    omega
  head_eq := ht.head_eq.trans h.head_eq
  marker_eq := by rw [Dir.marker_congr ht.headFile_eq]; exact h.marker_eq

/-- The highest file ends where memory does. -/
theorem Holding.endsAt (h : s.Holding size mem) : s.EndsAt s.maxWritten := by
  by_cases hpos : 0 < s.maxWritten
  · have hlt : s.maxWritten - 1 < mem.data.length := by
      rw [h.len_eq] at hpos ⊢
      omega
    exact h.within.endsAt hpos ((h.image_eq _).trans (List.getElem?_eq_getElem hlt))
  · -- Only the first segment can be there, and it is empty.
    have hzero : s.maxWritten = 0 := Nat.eq_zero_of_not_pos hpos
    have hfirst : ∀ i n, s.segLen i = some n → i = 0 ∧ n = 0 := by
      intro i n hn
      have hle := h.within i n hn
      rw [hzero, Nat.le_zero, Nat.add_eq_zero_iff, Nat.mul_eq_zero] at hle
      exact ⟨hle.1.resolve_right (Nat.ne_of_gt s.segmentSize_pos), hle.2⟩
    cases hseg : s.segLen 0 with
    | none =>
        refine Or.inl ⟨fun i => ?_, hzero⟩
        cases hi : s.segLen i with
        | none => rfl
        | some n =>
            rw [(hfirst i n hi).1, hseg] at hi
            cases hi
    | some n =>
        refine Or.inr ⟨0, n, hseg, fun j hj => ?_, ?_⟩
        · obtain ⟨m, hm⟩ := Option.isSome_iff_exists.mp hj
          exact Nat.le_of_eq (hfirst j m hm).1
        · rw [hzero, (hfirst 0 n hseg).2, Nat.zero_mul]

theorem Holding.reopened (h : s.Holding size mem) :
    ∃ s', Shipped.reopen s = .ok s' ∧ s'.Holding size mem := by
  obtain ⟨s', hrun, ho⟩ := openDir_ok s.segmentSize_pos false h.faults_eq
  have hlen : s'.maxWritten = s.maxWritten := ho.spans.unique (h.endsAt.spans h.len_lt)
  have hseg : ∀ i, s'.seg i = s.seg i := fun i => by rw [seg, ho.dir_eq, seg]
  refine ⟨s', congrArg Prod.fst hrun, ho.ready h.faults_eq,
    ho.segmentSize_eq.trans h.size_eq, fun i n hn => ?_, fun i n hn => ?_, fun o => ?_, hlen.trans h.len_eq, ?_, by rw [ho.dir_eq]; exact h.marker_eq⟩
  · rw [ho.segmentSize_eq]
    rw [segLen, hseg] at hn
    exact h.short i n hn
  · rw [ho.segmentSize_eq, hlen]
    rw [segLen, hseg] at hn
    exact h.within i n hn
  · rw [image_eq_of_seg ho.segmentSize_eq (hseg _)]
    exact h.image_eq o
  · rw [ho.head_eq, h.marker_eq, Nat.zero_min]

theorem mimics (size : Nat) : Mimics (fun e => e < 2 ^ 64 ∨ size < 2 ^ 64) (Holding size) where
  down hle := Or.imp_left (Nat.lt_of_le_of_lt hle)
  readAt off n hreach s mem h := by
    rw [MemStore.readAt_eq]
    rcases hreach with rfl | hreach
    · have hrun : WalStore.readAt off 0 s = (.ok [], s) := by
        show readAt off 0 s = _
        rw [readAt, Act.get_bind, readChunks, dif_pos rfl]
        rfl
      rw [hrun, List.take_zero]
      exact ⟨rfl, h⟩
    · have hoff : off < 2 ^ 64 ∨ s.segmentSize < 2 ^ 64 :=
        hreach.imp (Nat.lt_of_le_of_lt (Nat.le_add_right _ _)) fun hsize => h.size_eq ▸ hsize
      obtain ⟨s', hrun, hs'⟩ := readAt_available h.toReady h.within (h.len_eq ▸ mem.data_lt) hoff n
      have himg : s.image = Image.ofList mem.data := funext h.image_eq
      rw [hrun, himg, Image.available_ofList]
      exact ⟨rfl, h.sameFiles hs'⟩
  sync s mem h := by
    obtain ⟨s', hrun, hs'⟩ := sync_ok h.toReady
    rw [hrun]
    exact ⟨rfl, h.synced hs'⟩
  len s mem h := ⟨congrArg Except.ok h.len_eq, h⟩
  head s mem h := ⟨congrArg Except.ok h.head_eq, h⟩
  writeAt n bytes hfit s mem hsized := by
    obtain ⟨h, rfl⟩ := hsized
    obtain ⟨mem', hmem⟩ := MemStore.writeAt_end bytes rfl hfit
    obtain ⟨s', hrun, hw⟩ := writeAt_ok h.toReady (show mem.data.length + bytes.length < 2 ^ 64 by omega)
    rw [hrun, hmem]
    refine ⟨rfl, h.written (by omega) hw ?_⟩
    rw [MemStore.writeAt_data hmem, overwrite_end]
  truncate n len hle s mem hsized := by
    obtain ⟨h, rfl⟩ := hsized
    obtain ⟨s', hrun, ht⟩ := truncate_ok h.toReady len
    rw [hrun]
    exact ⟨rfl, h.truncated hle ht rfl⟩
  reopen h := h.reopened

/-- Any bytes can be put into an empty directory. -/
theorem exists_holding {size : Nat} (hsize : 0 < size) (created : Bool) (mem : MemStore) :
    ∃ s0 s, openDir size created Dir.empty = (.ok s0, Dir.empty) ∧
      WalStore.writeAt 0 mem.data s0 = (.ok (), s) ∧ s.Holding size mem := by
  obtain ⟨s0, hopen, ho⟩ := openDir_ok hsize created (d := Dir.empty) rfl
  have hold := ho.holds_empty
  have h0 : s0.Holding size ⟨[], by decide⟩ := by
    refine ⟨hold.toReady, hold.size_eq, hold.short, hold.within, fun o => ?_, hold.len_eq, ?_, ?_⟩
    · rw [hold.within.past (by rw [hold.len_eq]; exact Nat.zero_le o)]
      rfl
    · rw [ho.head_eq]
      exact Nat.zero_min _
    · rw [ho.dir_eq]
      rfl
  have hlt := mem.data_lt
  obtain ⟨s, hrun, hw⟩ := writeAt_ok h0.toReady (show 0 + mem.data.length < 2 ^ 64 by omega)
  exact ⟨s0, s, hopen, hrun, h0.written (by simp only [List.length_nil]; omega) hw rfl⟩

end SegmentedStore

end WalDb
