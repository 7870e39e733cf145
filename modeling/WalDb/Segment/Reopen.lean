/-
Opening any directory, appending, and opening again.

`open` derives the length from the highest file and clamps the recorded head to it.
The marker itself stays as it is, and the next open clamps it to a length that has
changed since: appends have moved it up, or the cut of the first open has moved it
down.  `reopen_same_iff` says for which directories the two opens agree.
-/
import WalDb.Segment.Durable
import WalDb.Segment.Steady

namespace WalDb

open Lib Record SegmentedStore

/-- The length that `open` derives from the files of the segments below `last` alone. -/
def Dir.SpansBelow (d : Dir) (size last total : Nat) : Prop :=
  (∀ i < last, d.segments.lookup i = none) ∧ total = 0 ∨
    ∃ i file, i < last ∧ d.segments.lookup i = some file ∧
      (∀ j < last, (d.segments.lookup j).isSome = true → j ≤ i) ∧
      total = saturatingAdd (saturatingMul i size) file.written.length

/-- The files still give the length `head` once everything from `head` on has been cut off:
there is nothing to cut, or the segment of the head is there, or the segments before it end
exactly at the head. -/
def Dir.Rests (d : Dir) (size total head : Nat) : Prop :=
  head = total ∨ (d.segments.lookup (head / size)).isSome = true ∨
    d.SpansBelow size (head / size) head

namespace Wal

/-- Append the records one after the other, going on after one that is too large. -/
def appendEach {S : Type} [WalStore S] : List (List UInt8) → Act (Wal S) Fault Unit
  | [] => pure ()
  | record :: records => do
      match ← Act.attempt (append record) with
      | .ok _ => appendEach records
      | .error (.err (.recordTooLarge _ _)) => appendEach records
      | .error fault => Act.fail fault

/-- The records among `records` that an append takes. -/
def accepted (m : Nat) (records : List (List UInt8)) : List (List UInt8) :=
  records.filter (·.length ≤ m)

/-- The log `wal'` has the head, the tail and the records of `wal`, and opening it has cut
nothing. -/
structure SameLog (wal wal' : Wal SegmentedStore) : Prop where
  head_eq : wal'.head = wal.head
  tail_eq : wal'.tail = wal.tail
  records_eq : (wal'.iter.collect wal').1 = (wal.iter.collect wal).1
  cut_eq : wal'.truncatedOnOpen = 0

section Appends

variable {wal wal' wal'' : Wal SegmentedStore} {ps qs : List (List UInt8)}

/-- The records `qs` have been appended to `wal`. -/
structure Grown (qs ps : List (List UInt8)) (wal wal' : Wal SegmentedStore) : Prop where
  steady : Steady wal' (ps ++ qs)
  head_eq : wal'.head = wal.head
  max_eq : wal'.maxRecordSize = wal.maxRecordSize
  segmentSize_eq : wal'.store.segmentSize = wal.store.segmentSize
  headFile_eq : wal'.store.dir.headFile = wal.store.dir.headFile
  same : qs = [] → wal' = wal
  ends : qs ≠ [] → wal'.store.EndsAt wal'.store.maxWritten

/-- No segment starts past the end, unless the length was saturated. -/
def LowSegments (s : SegmentedStore) : Prop :=
  s.maxWritten < 2 ^ 64 - 1 → ∀ i, (s.seg i).isSome = true → i * s.segmentSize ≤ s.maxWritten

theorem Grown.refl (h : Steady wal ps) : Grown [] ps wal wal :=
  ⟨by rwa [List.append_nil], rfl, rfl, rfl, rfl, fun _ => rfl, fun hne => absurd rfl hne⟩

theorem Steady.grown (h : Steady wal ps) (hlow : LowSegments wal.store) {record : List UInt8}
    {lsn : Nat} (hrun : wal.append record = (.ok lsn, wal')) : Grown [record] ps wal wal' := by
  obtain ⟨hlen, hfit, -⟩ := Wal.append_eq_ok h.toSettled hrun
  obtain ⟨-, hw, hsteady, hhead, hmax⟩ := h.append_eq_ok hrun
  have htail := h.tail_eq
  have hpos : 0 < (frame record).length := by
    rw [frame_length, framedLen, headerLen]
    omega
  rw [← frame_length] at hfit
  refine ⟨hsteady, hhead, hmax, hw.segmentSize_eq, hw.headFile_eq,
    fun hnil => absurd hnil (List.cons_ne_nil _ _), fun _ => ?_⟩
  have hends := hw.toPatched.endsAt (List.ne_nil_of_length_pos hpos) hfit
    (fun i hi => by rw [htail]; exact hlow (by omega) i hi) (h.past _ (by omega))
  rwa [hw.maxWritten_eq, Nat.max_eq_right (by omega)]

theorem Grown.trans {rs : List (List UInt8)} (h : Grown qs ps wal wal')
    (h' : Grown rs (ps ++ qs) wal' wal'') : Grown (qs ++ rs) ps wal wal'' where
  steady := by
    rw [← List.append_assoc]
    exact h'.steady
  head_eq := h'.head_eq.trans h.head_eq
  max_eq := h'.max_eq.trans h.max_eq
  segmentSize_eq := h'.segmentSize_eq.trans h.segmentSize_eq
  headFile_eq := h'.headFile_eq.trans h.headFile_eq
  same := fun hnil => by
    obtain ⟨hq, hr⟩ := List.append_eq_nil_iff.mp hnil
    rw [h'.same hr, h.same hq]
  ends := fun hne => by
    by_cases hr : rs = []
    · rw [h'.same hr]
      exact h.ends fun hq => hne (by rw [hq, hr]; rfl)
    · exact h'.ends hr

/-- What every append keeps holds after all of them, of the records that are not too large. -/
theorem appendEach_induct {P : List (List UInt8) → Wal SegmentedStore → Prop}
    (hsteady : ∀ {qs w}, P qs w → Steady w (ps ++ qs))
    (hstep : ∀ {qs w record lsn w'}, P qs w → w.append record = (.ok lsn, w') →
      P (qs ++ [record]) w')
    {records : List (List UInt8)} (h : P qs wal) (hrun : appendEach records wal = (.ok (), wal')) :
    P (qs ++ accepted wal.maxRecordSize records) wal' := by
  induction records generalizing wal qs with
  | nil =>
      cases hrun
      rwa [accepted, List.filter_nil, List.append_nil]
  | cons record records ih =>
      rw [appendEach, Act.attempt_bind] at hrun
      by_cases hlen : record.length ≤ wal.maxRecordSize
      · rw [accepted, List.filter_cons_of_pos (by simpa using hlen)]
        by_cases hfit : wal.tail + framedLen record.length < 2 ^ 64
        · obtain ⟨s1, happ, -⟩ := (hsteady h).append hlen hfit
          rw [happ] at hrun
          have hrest := ih (hstep h happ) hrun
          rwa [List.append_assoc] at hrest
        · obtain ⟨wal1, happ⟩ := append_overflow hlen (Nat.not_lt.mp hfit)
          rw [happ] at hrun
          cases hrun
      · rw [append_tooLarge (Nat.not_le.mp hlen)] at hrun
        rw [accepted, List.filter_cons_of_neg (by simpa using hlen)]
        exact ih h hrun

theorem appendEach_ok (h : Steady wal ps) (hlow : LowSegments wal.store)
    {records : List (List UInt8)} (hrun : appendEach records wal = (.ok (), wal')) :
    Grown (accepted wal.maxRecordSize records) ps wal wal' :=
  (appendEach_induct (P := fun qs w => Grown qs ps wal w ∧ LowSegments w.store)
    (fun hw => hw.1.steady)
    (fun hw happ =>
      have hone := hw.1.steady.grown hw.2 happ
      ⟨hw.1.trans hone, fun _ _ hi => (hone.ends (List.cons_ne_nil _ _)).low hi⟩)
    ⟨Grown.refl h, hlow⟩ hrun).1

end Appends

end Wal

/-! ## The two opens -/

/-- Logs that hold the same records between the same ends are the same to their user. -/
theorem Wal.Steady.sameLog {wal wal' : Wal SegmentedStore} {ps : List (List UInt8)}
    (h : Wal.Steady wal ps) (h' : Wal.Steady wal' ps) (hhead : wal'.head = wal.head)
    (hcut : wal'.truncatedOnOpen = 0) : Wal.SameLog wal wal' := by
  obtain ⟨s, hrun, -⟩ := h.collect
  obtain ⟨s', hrun', -⟩ := h'.collect
  refine ⟨hhead, ?_, by rw [hrun, hrun', hhead], hcut⟩
  rw [← h'.end_eq, ← h.end_eq, hhead]

section Opens

variable {config : WalConfig} {size : Nat} {created : Bool} {d : Dir} {s : SegmentedStore}
  {wal : Wal SegmentedStore}

/-- A log of which the head is not the end has a file at its head. -/
theorem SegmentedStore.Found.rests_of_lt (h : Found config s wal) (hopen : Opened size created d s)
    (hlt : s.head < wal.tail) : d.Rests size s.maxWritten s.head := by
  have hintact := @intact_payloads s.image config.maxRecordSize s.maxWritten config.maxRecordSize_lt
    s.head
  obtain ⟨b, hb⟩ := hintact.byte (Nat.le_refl _) (by rw [h.tail_eq] at hlt; exact hlt)
  have hseg := seg_of_image hb
  rw [seg, hopen.dir_eq, hopen.segmentSize_eq] at hseg
  exact Or.inr (Or.inl hseg)

theorem SegmentedStore.Found.head_le (h : Found config s wal) : s.head ≤ wal.tail := by
  rw [h.tail_eq]
  exact Nat.le_add_right _ _

/-- A cut in a segment that is not there leaves the files of the segments before it. -/
theorem SegmentedStore.Truncated.spans_below {len : Nat} {s s' : SegmentedStore}
    (h : Truncated len s s') (total : Nat) (hnone : s.seg (len / s.segmentSize) = none) :
    s'.dir.Spans s.segmentSize total ↔
      s.dir.SpansBelow s.segmentSize (len / s.segmentSize) total := by
  have hseg : ∀ i, s'.dir.segments.lookup i =
      if i < len / s.segmentSize then s.dir.segments.lookup i else none := by
    intro i
    show s'.seg i = if _ then s.seg i else none
    rw [h.seg_eq, cut]
    rcases Nat.lt_trichotomy i (len / s.segmentSize) with hlt | rfl | hgt
    · rw [if_neg (by omega), if_neg (by omega), if_pos hlt]
    · rw [if_neg (Nat.lt_irrefl _), if_pos rfl, if_neg (Nat.lt_irrefl _), hnone]
      rfl
    · rw [if_pos hgt, if_neg (by omega)]
  simp only [Dir.Spans, Dir.SpansBelow, hseg]
  refine or_congr (and_congr_left' (forall_congr' fun i => ?_))
    (exists_congr fun i => exists_congr fun file => ?_)
  · split <;> simp_all
  · by_cases hi : i < len / s.segmentSize
    · simp only [hi, true_and]
      refine and_congr_right fun _ => and_congr_left' (forall_congr' fun j => ?_)
      split <;> simp_all
    · simp [hi]

/-- The segments before `last` end before it. -/
theorem Dir.SpansBelow.le {size last total : Nat} (h : d.SpansBelow size last total)
    (hshort : ∀ i file, d.segments.lookup i = some file → file.written.length ≤ size) :
    total ≤ last * size := by
  rcases h with ⟨-, rfl⟩ | ⟨i, file, hi, hfile, -, rfl⟩
  · exact Nat.zero_le _
  · have hlen := hshort i file hfile
    have hnext := succ_mul_le size hi
    unfold saturatingAdd saturatingMul
    omega

/-- Where a record was found, a cut after it keeps its last byte. -/
theorem SegmentedStore.Found.endsAt_cut (h : Found config s wal) {s1 : SegmentedStore}
    (h1 : SameFiles s s1) (h2 : Truncated wal.tail s1 wal.store) (hshort : s1.Short)
    (hlt : s.head < wal.tail) : wal.store.EndsAt wal.tail := by
  obtain ⟨b, hb⟩ := (intact_payloads config.maxRecordSize_lt s.head).byte (o := wal.tail - 1)
    (by omega) (by rw [h.tail_eq] at hlt ⊢; exact Nat.sub_one_lt (by omega))
  rw [← h1.image_eq] at hb
  exact h2.endsAt_of_byte hshort hb

/-- What the open has left of the files gives the length of the log, or they give one below
its head. -/
theorem SegmentedStore.Found.spans (h : Found config s wal) (hopen : Opened size created d s)
    (hshort : ∀ i file, d.segments.lookup i = some file → file.written.length ≤ size) :
    (d.Rests size s.maxWritten s.head → wal.store.dir.Spans size wal.tail) ∧
      (¬ d.Rests size s.maxWritten s.head →
        ∀ total, wal.store.dir.Spans size total → total < s.head) := by
  have hsize : wal.store.segmentSize = size := h.segmentSize_eq.trans hopen.segmentSize_eq
  rcases h.files with ⟨heq, hsame⟩ | ⟨hlt, s1, h1, h2⟩
  · have hspans : wal.store.dir.Spans size wal.tail := by
      have := (spans_congr _ hsame.segmentSize_eq hsame.segLen_eq).mpr hopen.spans_self
      rwa [hsize, ← heq] at this
    refine ⟨fun _ => hspans, fun hnot => absurd ?_ hnot⟩
    rcases Nat.lt_or_eq_of_le h.head_le with hlt | hhead
    · exact h.rests_of_lt hopen hlt
    · exact Or.inl (hhead.trans heq)
  · have hsize1 : s1.segmentSize = size := h1.segmentSize_eq.trans hopen.segmentSize_eq
    have hlookup : ∀ i, s1.dir.segments.lookup i = d.segments.lookup i := fun i =>
      (h1.seg_eq i).trans (by rw [seg, hopen.dir_eq])
    have hfits : wal.tail < 2 ^ 64 := by
      rw [h.steady.tail_eq]
      exact h.steady.fits
    have hspans : wal.store.EndsAt wal.tail → wal.store.dir.Spans size wal.tail := fun hends => by
      have := hends.spans hfits
      rwa [hsize] at this
    have hshort1 : s1.Short := fun i n hn => by
      obtain ⟨file, hfile, rfl⟩ := Option.map_eq_some_iff.mp hn
      rw [hsize1]
      exact hshort i file ((hlookup i).symm.trans hfile)
    rcases Nat.lt_or_eq_of_le h.head_le with hhead | hhead
    · exact ⟨fun _ => hspans (h.endsAt_cut h1 h2 hshort1 hhead),
        fun hnot => absurd (h.rests_of_lt hopen hhead) hnot⟩
    · by_cases hseg : (d.segments.lookup (s.head / size)).isSome = true
      · refine ⟨fun _ => hspans (h2.endsAt ?_), fun hnot => absurd (Or.inr (Or.inl hseg)) hnot⟩
        rw [seg, hlookup, hsize1, ← hhead]
        exact hseg
      · have hbelow : ∀ total, wal.store.dir.Spans size total ↔
            d.SpansBelow size (s.head / size) total := fun total => by
          have := h2.spans_below total (by
            rw [seg, hlookup, hsize1, ← hhead]
            exact Option.not_isSome_iff_eq_none.mp hseg)
          rw [hsize1, ← hhead] at this
          rw [this]
          simp only [Dir.SpansBelow, hlookup]
        refine ⟨fun hrests => ?_, fun hnot total htotal => ?_⟩
        · rw [hbelow, ← hhead]
          rcases hrests with heq | hsome | hlow
          · omega
          · exact absurd hsome hseg
          · exact hlow
        · have htotal := (hbelow total).mp htotal
          have hle := htotal.le hshort
          have hdiv := Nat.div_mul_le_self s.head size
          refine Nat.lt_of_le_of_ne (Nat.le_trans hle hdiv) fun heq => hnot (Or.inr (Or.inr ?_))
          rwa [heq] at htotal

/-- No segment starts past the end of a log that has been opened. -/
theorem SegmentedStore.Found.low (h : Found config s wal) (hopen : Opened size created d s) :
    Wal.LowSegments wal.store := by
  intro hlt i hi
  rw [← h.steady.tail_eq] at hlt ⊢
  rcases h.files with ⟨heq, hsame⟩ | ⟨-, s1, -, h2⟩
  · rw [hsame.seg_eq] at hi
    rw [hsame.segmentSize_eq, heq]
    exact (endsAt_of_spans hopen.spans_self (by omega)).low hi
  · rw [h2.seg_eq, cut] at hi
    split at hi
    · cases hi
    · rename_i hle
      have := Nat.mul_le_mul_right s1.segmentSize (Nat.not_lt.mp hle)
      have := Nat.div_mul_le_self wal.tail s1.segmentSize
      rw [h2.segmentSize_eq]
      omega

theorem openSegmentedWith_found (hpol : config.openPolicy = .truncateTail) (hd : d.faults = [])
    (hopen : openSegmentedWith config size created d = .ok wal) :
    ∃ s, Opened size created d s ∧ Found config s wal := by
  obtain ⟨s, hs, heq⟩ := openSegmentedWith_eq config (openSegmentedWith_pos hopen)
    created hd
  rw [heq] at hopen
  have hends := hs.found_ends hd hpol
  rw [Act.Ends, show Wal.withStoreAndConfig config s = (.ok wal, _) from Prod.ext hopen rfl] at hends
  exact ⟨s, hs, hends.2⟩

end Opens

theorem Wal.Alike.marker_eq {wal wal' : Wal SegmentedStore} (h : Wal.Alike wal wal') :
    wal'.store.dir.marker = wal.store.dir.marker :=
  Dir.marker_congr h.headFile_eq

theorem Wal.Alike.spans_iff {wal wal' : Wal SegmentedStore} (h : Wal.Alike wal wal') (total : Nat) :
    wal'.store.dir.Spans wal'.store.segmentSize total ↔
      wal.store.dir.Spans wal.store.segmentSize total :=
  spans_congr total h.segmentSize_eq h.segLen_eq

section SecondOpen

variable {config : WalConfig} {wal wal' : Wal SegmentedStore}

/-- The open finds a log again whose files give its length and whose marker gives its head. -/
theorem Wal.Steady.reopen_sameLog {ps : List (List UInt8)} (h : Wal.Steady wal ps)
    (hmax : wal.maxRecordSize = config.maxRecordSize)
    (hspans : wal.store.dir.Spans wal.store.segmentSize wal.tail)
    (hmark : min (wal.store.dir.marker.getD 0) wal.tail = wal.head) :
    ∃ wal', openSegmentedWith config wal.store.segmentSize false wal.store.dir = .ok wal' ∧
      Wal.SameLog wal wal' := by
  rw [h.tail_eq] at hspans hmark
  obtain ⟨wal', hopen, hsteady, hhead, -, hcut, -⟩ := h.reopen hmax hspans hmark false
  exact ⟨wal', hopen, h.sameLog hsteady hhead hcut⟩

/-- A log that the open finds again has the head that the marker gives, clamped to the length
that the files give. -/
theorem Wal.SameLog.head_clamped {size : Nat} {d : Dir} (h : Wal.SameLog wal wal')
    (hpol : config.openPolicy = .truncateTail) (hd : d.faults = [])
    (hopen : openSegmentedWith config size false d = .ok wal') :
    ∃ total, d.Spans size total ∧ min (d.marker.getD 0) total = wal.head := by
  obtain ⟨s, hs, hfound⟩ := openSegmentedWith_found hpol hd hopen
  refine ⟨_, hs.spans, ?_⟩
  rw [← h.head_eq, hfound.head_eq, hs.head_eq]

end SecondOpen

/-! ## The theorem -/

/-- For which directories, and appends in between, a second open finds the log that the
first one made: where something is appended, the marker must not lie past the files, and
where nothing is, the files must still give the head once the tail has been cut off. -/
def Reopens (config : WalConfig) (size : Nat) (d : Dir) (total : Nat)
    (records : List (List UInt8)) : Prop :=
  if Wal.accepted config.maxRecordSize records = [] then
    d.Rests size total (min (d.marker.getD 0) total)
  else d.marker.getD 0 ≤ total

/-- A log whose first segment was dropped, with a record in segment 1, and behind a gap a segment
that a crash left. -/
def droppedWithGap : Dir where
  segments := (AList.insert 1 ⟨frame [], frame []⟩ ∅).insert 3 ⟨List.replicate 5 0, []⟩
  headFile := some (headMarker 8)
  headTmpFile := none
  faults := []

theorem droppedWithGap_lookup {i : Nat} {file : File}
    (h : droppedWithGap.segments.lookup i = some file) :
    i = 1 ∧ file = ⟨frame [], frame []⟩ ∨ i = 3 ∧ file = ⟨List.replicate 5 0, []⟩ := by
  by_cases h3 : i = 3
  · subst h3
    cases h
    exact Or.inr ⟨rfl, rfl⟩
  · by_cases h1 : i = 1
    · subst h1
      cases h
      exact Or.inl ⟨rfl, rfl⟩
    · rw [droppedWithGap, AList.lookup_insert_ne h3, AList.lookup_insert_ne h1] at h
      cases h

/-- Whatever directory was found, and whatever is then appended and synced, dropping the log
and opening it again gives the same log exactly where `Reopens` holds. -/
theorem reopen_same_iff {config : WalConfig} (hpol : config.openPolicy = .truncateTail)
    {size total : Nat} {created : Bool} {d : Dir} (hd : d.faults = [])
    (hshort : ∀ i file, d.segments.lookup i = some file → file.written.length ≤ size)
    (hspans : d.Spans size total) {wal wal1 wal2 : Wal SegmentedStore} {records : List (List UInt8)}
    (hopen : openSegmentedWith config size created d = .ok wal)
    (happend : wal.appendEach records = (.ok (), wal1)) (hsync : wal1.sync = (.ok (), wal2)) :
    (∃ wal3, openSegmentedWith config size false wal2.store.dir = .ok wal3 ∧
      Wal.SameLog wal2 wal3) ↔ Reopens config size d total records := by
  obtain ⟨s, hs, hfound⟩ := openSegmentedWith_found hpol hd hopen
  have htotal : s.maxWritten = total := hs.spans.unique hspans
  have hgrown := Wal.appendEach_ok hfound.steady (hfound.low hs) happend
  rw [hfound.max_eq] at hgrown
  obtain ⟨wal2', hsync', hsteady, hflush⟩ := hgrown.steady.sync
  rw [hsync] at hsync'
  cases hsync'
  have hsize1 : wal1.store.segmentSize = size :=
    hgrown.segmentSize_eq.trans (hfound.segmentSize_eq.trans hs.segmentSize_eq)
  have hsize : wal2.store.segmentSize = size := hflush.alike.segmentSize_eq.trans hsize1
  have hspans2 := hflush.alike.spans_iff
  rw [hsize, hsize1] at hspans2
  have hmarker : wal2.store.dir.marker = d.marker := hflush.alike.marker_eq.trans
    (Dir.marker_congr (hgrown.headFile_eq.trans (hfound.headFile_eq.trans (by rw [hs.dir_eq]))))
  have hhead : wal2.head = min (d.marker.getD 0) total := by
    rw [hflush.alike.head_eq, hgrown.head_eq, hfound.head_eq, hs.head_eq, htotal]
  have hsame := hsteady.reopen_sameLog
    (hflush.alike.max_eq.trans (hgrown.max_eq.trans hfound.max_eq))
  rw [hsize, hmarker] at hsame
  have hother : (∃ wal3, openSegmentedWith config size false wal2.store.dir = .ok wal3 ∧
      Wal.SameLog wal2 wal3) → ∃ total2, wal2.store.dir.Spans size total2 ∧
        min (d.marker.getD 0) total2 = wal2.head := fun ⟨_, hopen3, hlog⟩ =>
    hmarker ▸ hlog.head_clamped hpol hsteady.ready.faults_eq hopen3
  rw [Reopens]
  split
  · rename_i hnil
    obtain rfl := hgrown.same hnil
    have htail : wal2.tail = wal1.tail := by
      rw [hsteady.tail_eq, hfound.steady.tail_eq, hflush.alike.maxWritten_eq]
    have hfirst := hfound.head_le
    have hle : wal1.tail ≤ total := by
      rcases hfound.files with ⟨heq, -⟩ | ⟨hlt, -⟩ <;> omega
    obtain ⟨hrests, hnot⟩ := hfound.spans hs hshort
    rw [hs.head_eq, htotal] at hfirst hrests hnot
    constructor
    · intro hex
      obtain ⟨total2, htotal2, hmin⟩ := hother hex
      by_contra hno
      have := hnot hno total2 ((hspans2 total2).mp htotal2)
      omega
    · intro h
      refine hsame ?_ (by omega)
      rw [hspans2, htail]
      exact hrests h
  · rename_i hne
    have hends : wal2.store.dir.Spans size wal2.tail := by
      rw [hspans2, ← hsize1, hsteady.tail_eq, hflush.alike.maxWritten_eq]
      exact (hgrown.ends hne).spans hgrown.steady.fits
    have hgt : wal2.head < wal2.tail := by
      have hpos := frames_length_pos hne
      have hend := hsteady.end_eq
      rw [frames_append, List.length_append] at hend
      omega
    constructor
    · intro hex
      obtain ⟨total2, htotal2, hmin⟩ := hother hex
      obtain rfl := htotal2.unique hends
      omega
    · intro h
      exact hsame hends (by omega)

/-- A head marker, a dropped segment and a gap: the open cuts off what lies behind the record,
and what is then appended and synced is there after a reopen. -/
theorem reopen_same_iff_dropped :
    ∃ wal wal1 wal2 wal3, openSegmentedWith smallRecords 8 false droppedWithGap = .ok wal ∧
      wal.truncatedOnOpen = 13 ∧ wal.appendEach [[1]] = (.ok (), wal1) ∧
      wal1.sync = (.ok (), wal2) ∧
      openSegmentedWith smallRecords 8 false wal2.store.dir = .ok wal3 ∧
      wal2.head = 8 ∧ wal2.tail = 25 ∧ Wal.SameLog wal2 wal3 := by
  have hobs : ((openSegmentedWith smallRecords 8 false droppedWithGap).toOption.map fun wal =>
      (wal.truncatedOnOpen, (wal.appendEach [[1]]).1.toBool,
        (wal.appendEach [[1]]).2.sync.1.toBool, (wal.appendEach [[1]]).2.sync.2.head,
        (wal.appendEach [[1]]).2.sync.2.tail)) = some (13, true, true, 8, 25) := by decide +kernel
  obtain ⟨wal, hopen, hobs⟩ := Option.map_eq_some_iff.mp hobs
  simp only [Prod.mk.injEq] at hobs
  obtain ⟨hcut, happend, hsync, hhead, htail⟩ := hobs
  have hopen := Act.eq_ok_of_toOption hopen
  have happend := Act.eq_ok_of_toBool happend
  have hsync := Act.eq_ok_of_toBool hsync
  have hshort : ∀ i file, droppedWithGap.segments.lookup i = some file → file.written.length ≤ 8 := by
    intro i file hfile
    rcases droppedWithGap_lookup hfile with ⟨-, rfl⟩ | ⟨-, rfl⟩ <;> decide +kernel
  have hspans : droppedWithGap.Spans 8 29 := by
    refine Or.inr ⟨3, _, rfl, fun j hj => ?_, by decide⟩
    obtain ⟨file, hfile⟩ := Option.isSome_iff_exists.mp hj
    rcases droppedWithGap_lookup hfile with ⟨rfl, -⟩ | ⟨rfl, -⟩ <;> decide
  obtain ⟨wal3, hopen3, hsame⟩ :=
    (reopen_same_iff rfl rfl hshort hspans hopen happend hsync).mpr (by
      show droppedWithGap.marker.getD 0 ≤ 29
      rw [marker_headMarker (by decide) rfl]
      decide)
  exact ⟨wal, _, _, wal3, hopen, hcut, happend, hsync, hopen3, hhead, htail, hsame⟩

/-- The marker lies past the files: what an unsynced `truncate_before` leaves of a log when
the power fails. -/
def markerAhead : Dir := { Dir.empty with headFile := some (headMarker 100) }

/-- The head lies in a segment that is not there, between two that are. -/
def headInGap : Dir where
  segments := (AList.insert 0 ⟨List.replicate 8 0, []⟩ ∅).insert 5 ⟨List.replicate 8 0, []⟩
  headFile := some (headMarker 20)
  headTmpFile := none
  faults := []

/-- A record appended over a marker that lies ahead is below the head after a reopen.  A
head in a gap is moved down by a reopen although nothing was appended. -/
theorem reopen_moves_head :
    (∃ wal wal1 wal2 wal3, openSegmentedWith smallRecords 64 false markerAhead = .ok wal ∧
      wal.appendEach [[1]] = (.ok (), wal1) ∧ wal1.sync = (.ok (), wal2) ∧
      openSegmentedWith smallRecords 64 false wal2.store.dir = .ok wal3 ∧
      wal2.head = 0 ∧ wal2.tail = 9 ∧ wal3.head = 9) ∧
    ∃ wal wal2 wal3, openSegmentedWith smallRecords 8 false headInGap = .ok wal ∧
      wal.sync = (.ok (), wal2) ∧
      openSegmentedWith smallRecords 8 false wal2.store.dir = .ok wal3 ∧
      wal2.head = 20 ∧ wal3.head = 8 := by
  constructor
  · have hobs : ((openSegmentedWith smallRecords 64 false markerAhead).toOption.bind fun wal =>
        (openSegmentedWith smallRecords 64 false
          (wal.appendEach [[1]]).2.sync.2.store.dir).toOption.map fun wal3 =>
            ((wal.appendEach [[1]]).1.toBool, (wal.appendEach [[1]]).2.sync.1.toBool,
              (wal.appendEach [[1]]).2.sync.2.head, (wal.appendEach [[1]]).2.sync.2.tail,
              wal3.head)) = some (true, true, 0, 9, 9) := by decide +kernel
    obtain ⟨wal, hopen, hobs⟩ := Option.bind_eq_some_iff.mp hobs
    obtain ⟨wal3, hopen3, hobs⟩ := Option.map_eq_some_iff.mp hobs
    simp only [Prod.mk.injEq] at hobs
    obtain ⟨happend, hsync, hhead⟩ := hobs
    exact ⟨wal, _, _, wal3, Act.eq_ok_of_toOption hopen, Act.eq_ok_of_toBool happend,
      Act.eq_ok_of_toBool hsync, Act.eq_ok_of_toOption hopen3, hhead⟩
  · have hobs : ((openSegmentedWith smallRecords 8 false headInGap).toOption.bind fun wal =>
        (openSegmentedWith smallRecords 8 false wal.sync.2.store.dir).toOption.map fun wal3 =>
          (wal.sync.1.toBool, wal.sync.2.head, wal3.head)) = some (true, 20, 8) := by decide +kernel
    obtain ⟨wal, hopen, hobs⟩ := Option.bind_eq_some_iff.mp hobs
    obtain ⟨wal3, hopen3, hobs⟩ := Option.map_eq_some_iff.mp hobs
    simp only [Prod.mk.injEq] at hobs
    obtain ⟨hsync, hhead⟩ := hobs
    exact ⟨wal, _, wal3, Act.eq_ok_of_toOption hopen, Act.eq_ok_of_toBool hsync,
      Act.eq_ok_of_toOption hopen3, hhead⟩

end WalDb
