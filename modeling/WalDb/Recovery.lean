/-
The open scan and the iterator read the image.

Both readers are run against a `View` of the store.  The scan stops exactly where
the records of the image end, and the iterator yields exactly those records.  The
case split is on `recordAt`: a record that is there is read by both in the same
two reads, and `recordAt_none_cases` lists the ways in which none is.
-/
import WalDb.Decode
import WalDb.Wal

namespace WalDb

open Lib Record

section Reads

variable {img : Image UInt8} {m off : Nat}

/-- The two reads that find a record. -/
theorem recordAt_some_reads (hm : m < 2 ^ 32) {p : List UInt8}
    (h : recordAt img m off = some p) :
    p.length ≤ m ∧ img.read off headerLen = some (header p) ∧
      img.read (off + headerLen) p.length = some p := by
  obtain ⟨hlen, hread⟩ := (recordAt_eq_some_iff hm).mp h
  rw [frame_eq_header_append, framedLen, Image.read_append_iff (header_length p) rfl] at hread
  exact ⟨hlen, hread⟩

/-- The ways in which no intact record is found. -/
theorem recordAt_none_cases (h : recordAt img m off = none) :
    img.read off headerLen = none ∨
      ∃ hdr, img.read off headerLen = some hdr ∧
        (m < (parseHeader hdr).len ∨ (parseHeader hdr).len ≤ m ∧
          (img.read (off + headerLen) (parseHeader hdr).len = none ∨
            ∃ payload, img.read (off + headerLen) (parseHeader hdr).len = some payload ∧
              verify hdr payload (parseHeader hdr).crc = false)) := by
  cases hh : img.read off headerLen with
  | none => exact Or.inl rfl
  | some hdr =>
      refine Or.inr ⟨hdr, rfl, ?_⟩
      by_cases hlen : (parseHeader hdr).len ≤ m
      · refine Or.inr ⟨hlen, ?_⟩
        cases hp : img.read (off + headerLen) (parseHeader hdr).len with
        | none => exact Or.inl rfl
        | some payload =>
            refine Or.inr ⟨payload, rfl, ?_⟩
            simp only [recordAt, hh, Option.bind_some, if_pos hlen, hp] at h
            cases hv : verify hdr payload (parseHeader hdr).crc
            · rfl
            · rw [hv] at h
              cases h
      · exact Or.inl (by omega)

end Reads

section Scan

variable {S : Type} [WalStore S] {img : Image UInt8} {size m : Nat} {P : S → Prop}

/-- A range that reads whole lies below the store's length. -/
theorem Serves.read_le (V : Serves img size P) {off n : Nat} {bs : List UInt8} (hn : 0 < n)
    (h : img.read off n = some bs) : off + n ≤ size := by
  by_contra hgt
  have hnone := V.past_end (show size ≤ off + (n - 1) by omega)
  rw [Image.read_eq_none_iff.mpr ⟨n - 1, by omega, hnone⟩] at h
  cases h

theorem Serves.frame_le (V : Serves img size P) (hm : m < 2 ^ 32) {off : Nat} {p : List UInt8}
    (h : recordAt img m off = some p) : off + framedLen p.length ≤ size :=
  V.read_le (framedLen_pos _) ((recordAt_eq_some_iff hm).mp h).2

theorem View.read_le (V : View img size P) {off n : Nat} {bs : List UInt8} (hn : 0 < n)
    (h : img.read off n = some bs) : off + n ≤ size := V.serves.read_le hn h

/-- Where a record is found the scan moves past it. -/
theorem scanStep_record (V : Serves img size P) (hm : m < 2 ^ 32) {off : Nat} {p : List UInt8}
    (hp : recordAt img m off = some p) {s : S} (hP : P s) :
    ∃ s', scanStep m off s = (.ok (some (off + framedLen p.length)), s') ∧ P s' := by
  obtain ⟨hlen, hhdr, hpay⟩ := recordAt_some_reads hm hp
  have hle := V.frame_le hm hp
  have hsize := V.size_lt
  unfold framedLen at hle
  have hplt : p.length < 2 ^ 32 := by omega
  obtain ⟨s1, hr1, hP1⟩ := V.full hP hhdr
  obtain ⟨s2, hr2, hP2⟩ := V.full hP1 hpay
  refine ⟨s2, ?_, hP2⟩
  rw [scanStep, Act.bind_ok hr1, if_neg (by rw [header_length]; omega)]
  simp only [parseHeader_header hplt]
  rw [if_neg (by omega), checkedAdd_of_lt (by omega)]
  simp only
  rw [Act.bind_ok hr2, if_neg (by omega), if_neg (by rw [verify_header]; decide),
    checkedAdd_of_lt (by omega), framedLen, Nat.add_assoc]
  rfl

/-- The reads that looking for a record of at most `m` bytes at `x` can make. -/
def RecordRead (m x off n : Nat) : Prop :=
  off = x ∧ n = headerLen ∨ off = x + headerLen ∧ off < 2 ^ 64 ∧ n ≤ m

/-- They start at offsets. -/
theorem RecordRead.lt {m x off n : Nat} (h : RecordRead m x off n) (hx : x < 2 ^ 64) :
    off < 2 ^ 64 := by
  rcases h with ⟨rfl, -⟩ | ⟨-, hlt, -⟩
  · exact hx
  · exact hlt

variable {reach asks : Nat → Nat → Prop}

/-- A read of anything, for the sake of the state that it leaves. -/
theorem Probes.read_any (R : Probes reach img P) {off n : Nat} (hask : asks off n) {s : S}
    (hP : P s) :
    (WalStore.readAt off n).Ends s (fun _ s' => P s') (Refused asks reach P) := by
  cases h : img.read off n with
  | none =>
      exact (R.missing hP h).mono (fun _ _ h => h.2) fun _ _ h => ⟨h.1, off, n, hask, h.2⟩
  | some bs =>
      obtain ⟨s', hrun, hP'⟩ := R.full hP h
      exact Act.ends_of_ok hrun hP'

/-- A read of what is not there. -/
theorem Probes.read_short (R : Probes reach img P) {off n : Nat} (hask : asks off n)
    (hfit : off + n < 2 ^ 64) (hnone : img.read off n = none) {s : S} (hP : P s) :
    (WalStore.readAt off n).Ends s (fun bs s' => bs.length < n ∧ P s') (Refused asks reach P) :=
  (R.missing hP hnone).mono (fun _ _ h => ⟨h.1 hfit, h.2⟩) fun _ _ h => ⟨h.1, off, n, hask, h.2⟩

/-- A record that would run past the last offset is not looked for. -/
theorem scanStep_past (R : Probes reach img P) {off : Nat} (hpast : 2 ^ 64 ≤ off + headerLen) {s : S}
    (hP : P s) :
    (scanStep m off).Ends s (fun next s' => next = none ∧ P s')
      (Refused (RecordRead m off) reach P) := by
  refine (R.read_any (Or.inl ⟨rfl, rfl⟩) hP).bind fun header s1 hP1 => ?_
  rw [checkedAdd_of_le hpast]
  split
  · exact Act.ends_pure ⟨rfl, hP1⟩
  · dsimp only
    split <;> exact Act.ends_pure ⟨rfl, hP1⟩

/-- Where none is found the scan stops, unless a read fails. -/
theorem scanStep_stop (R : Probes reach img P) {off : Nat}
    (hp : recordAt img m off = none) {s : S} (hP : P s) :
    (scanStep m off).Ends s (fun next s' => next = none ∧ P s')
      (Refused (RecordRead m off) reach P) := by
  by_cases hfit : 2 ^ 64 ≤ off + headerLen
  · exact scanStep_past R hfit hP
  rw [Nat.not_le] at hfit
  rcases recordAt_none_cases hp with hnone | ⟨hdr, hhdr, hcase⟩
  · refine (R.read_short (Or.inl ⟨rfl, rfl⟩) hfit hnone hP).bind fun header s1 h1 => ?_
    rw [if_pos h1.1]
    exact Act.ends_pure ⟨rfl, h1.2⟩
  · have hhl := Image.read_length hhdr
    obtain ⟨s1, hr, hP1⟩ := R.full hP hhdr
    rw [Act.Ends, scanStep, Act.bind_ok hr, if_neg (by omega)]
    rcases hcase with hbig | ⟨hlen, hpay⟩
    · rw [if_pos hbig]
      exact ⟨rfl, hP1⟩
    · simp only [if_neg (Nat.not_lt.mpr hlen), checkedAdd_of_lt hfit]
      have hask : RecordRead m off (off + headerLen) (parseHeader hdr).len :=
        Or.inr ⟨rfl, hfit, hlen⟩
      by_cases hfit' : 2 ^ 64 ≤ off + headerLen + (parseHeader hdr).len
      · refine (R.read_any hask hP1).bind fun payload s2 hP2 => ?_
        rw [checkedAdd_of_le hfit']
        split
        · exact Act.ends_pure ⟨rfl, hP2⟩
        · split <;> exact Act.ends_pure ⟨rfl, hP2⟩
      · rcases hpay with hnone | ⟨payload, hread, hver⟩
        · refine (R.read_short hask (Nat.not_le.mp hfit') hnone hP1).bind fun payload s2 h2 => ?_
          rw [if_pos h2.1]
          exact Act.ends_pure ⟨rfl, h2.2⟩
        · obtain ⟨s2, hr2, hP2⟩ := R.full hP1 hread
          rw [Act.bind_ok hr2, if_neg (by rw [Image.read_length hread]; omega), if_pos hver]
          exact ⟨rfl, hP2⟩

/-- The reads of a scan up to `size`. -/
def ScanRead (m size off n : Nat) : Prop := ∃ x, x < size ∧ RecordRead m x off n

/-- The scan ends where the records of the image end, unless a read fails. -/
theorem scan_ends (V : Sight reach img size P) (hm : m < 2 ^ 32) (off : Nat) {s : S} (hP : P s) :
    (scan m size off).Ends s (fun endAt s' => endAt = logEnd img m size off ∧ P s')
      (Refused (ScanRead m size) reach P) := by
  induction off using payloads.induct img m size generalizing s with
  | case1 off hlt p hp ih =>
      obtain ⟨s1, h1, hP1⟩ := scanStep_record V.serves hm hp hP
      rw [Act.Ends, scan_next hlt h1, logEnd_some hlt hp]
      exact ih hP1
  | case2 off hlt hp =>
      rw [logEnd_none fun _ => hp]
      rcases (scanStep_stop V.toProbes hp hP).cases with ⟨next, s1, h1, rfl, hP1⟩ | ⟨e, s1, h1, he⟩
      · exact Act.ends_of_ok (scan_break hlt h1) ⟨rfl, hP1⟩
      · exact Act.ends_of_error (scan_error hlt h1) (he.mono fun _ _ hask => ⟨off, hlt, hask⟩)
  | case3 off hlt =>
      exact Act.ends_of_ok (scan_past hlt s) ⟨by rw [logEnd_none fun h => absurd h hlt], hP⟩

/-- The scan ends where the records of the image end. -/
theorem scan_eq (V : View img size P) (hm : m < 2 ^ 32) (off : Nat) {s : S} (hP : P s) :
    ∃ s', scan m size off s = (.ok (logEnd img m size off), s') ∧ P s' := by
  obtain ⟨_, s', hrun, rfl, hP'⟩ := (scan_ends V.sight hm off hP).in_reach
    fun _ _ ⟨_, hx, hask⟩ => hask.lt (Nat.lt_trans hx V.size_lt)
  exact ⟨s', hrun, hP'⟩

/-- Where the records go to the end of the store, nothing else is read. -/
theorem scan_whole (V : Serves img size P) (hm : m < 2 ^ 32) (off : Nat)
    (hend : logEnd img m size off = size) {s : S} (hP : P s) :
    ∃ s', scan m size off s = (.ok size, s') ∧ P s' := by
  induction off using payloads.induct img m size generalizing s with
  | case1 off hlt p hp ih =>
      obtain ⟨s1, h1, hP1⟩ := scanStep_record V hm hp hP
      rw [scan_next hlt h1]
      exact ih (by rwa [logEnd_some hlt hp] at hend) hP1
  | case2 off hlt hp =>
      rw [logEnd_none fun _ => hp] at hend
      omega
  | case3 off hlt =>
      rw [logEnd_none fun h => absurd h hlt] at hend
      exact ⟨s, by rw [scan_past hlt, hend], hP⟩

end Scan

/-! ## The iterator -/

namespace Wal

variable {S : Type} [WalStore S]

/-- The records with the payloads `ps`, laid out from `off` on. -/
def recordsFrom (off : Nat) (ps : List (List UInt8)) : List Record :=
  (located off ps).map fun r => { lsn := r.1, data := r.2 }

theorem recordsFrom_map_data (off : Nat) (ps : List (List UInt8)) :
    (recordsFrom off ps).map Record.data = ps := by
  rw [recordsFrom, List.map_map]
  exact located_map_snd off ps

omit [WalStore S] in
theorem onStore_ok {α : Type} {x : Act S Fault α} {wal : Wal S} {a : α} {s' : S}
    (h : x wal.store = (.ok a, s')) : onStore x wal = (.ok a, { wal with store := s' }) := by
  simp only [onStore, Act.zoom_apply, h]

omit [WalStore S] in
theorem onStore_error {α : Type} {x : Act S Fault α} {wal : Wal S} {e : Fault} {s' : S}
    (h : x wal.store = (.error e, s')) : onStore x wal = (.error e, { wal with store := s' }) := by
  simp only [onStore, Act.zoom_apply, h]

variable {img : Image UInt8} {size : Nat} {P : S → Prop}

/-- What a step of iteration finds at `off`. -/
def look (img : Image UInt8) (m off : Nat) : Step :=
  match img.read off headerLen with
  | none => .ended
  | some header =>
      let parsed := parseHeader header
      if m < parsed.len then
        .damaged (.corruption off "record length exceeds the maximum") none
      else
        match img.read (off + headerLen) parsed.len with
        | none => .ended
        | some payload =>
            if verify header payload parsed.crc = false then
              .damaged (.corruption off "checksum mismatch") (some (off + framedLen parsed.len))
            else .record { lsn := off, data := payload } (off + framedLen parsed.len)

/-- A record that is there is found. -/
theorem look_record {m off : Nat} (hm : m < 2 ^ 32) {p : List UInt8}
    (hp : recordAt img m off = some p) :
    look img m off = .record { lsn := off, data := p } (off + framedLen p.length) := by
  obtain ⟨hlen, hhdr, hpay⟩ := recordAt_some_reads hm hp
  simp only [look, hhdr, parseHeader_header (show p.length < 2 ^ 32 by omega),
    if_neg (Nat.not_lt.mpr hlen), hpay, verify_header, Bool.true_eq_false, if_false]

/-- Unless it runs out of bytes, a step returns what is found. -/
theorem Iter.step_look (V : Serves img size P) {it : Iter} {wal : Wal S}
    (hne : look img wal.maxRecordSize it.offset ≠ .ended) (hP : P wal.store) :
    ∃ s', it.step wal =
        (.ok (look img wal.maxRecordSize it.offset), { wal with store := s' }) ∧ P s' := by
  have hsize := V.size_lt
  unfold look at hne ⊢
  cases hhdr : img.read it.offset headerLen with
  | none =>
      rw [hhdr] at hne
      exact absurd rfl hne
  | some header =>
      rw [hhdr] at hne
      simp only at hne ⊢
      have hfit := V.read_le (by decide) hhdr
      obtain ⟨s1, hr1, hP1⟩ := V.full hP hhdr
      rw [step, Act.get_bind, Act.bind_ok (onStore_ok hr1),
        if_neg (by rw [Image.read_length hhdr]; omega)]
      by_cases hlen : wal.maxRecordSize < (parseHeader header).len
      · exact ⟨s1, by rw [if_pos hlen, if_pos hlen]; rfl, hP1⟩
      rw [if_neg hlen] at hne
      rw [if_neg hlen, if_neg hlen, checkedAdd_of_lt (by omega)]
      simp only
      cases hpay : img.read (it.offset + headerLen) (parseHeader header).len with
      | none =>
          rw [hpay] at hne
          exact absurd rfl hne
      | some payload =>
          have hend : it.offset + headerLen + (parseHeader header).len < 2 ^ 64 := by
            rcases Nat.eq_zero_or_pos (parseHeader header).len with hzero | hpos
            · omega
            · have := V.read_le hpos hpay
              omega
          obtain ⟨s2, hr2, hP2⟩ := V.full hP1 hpay
          refine ⟨s2, ?_, hP2⟩
          rw [Act.bind_ok (onStore_ok hr2), if_neg (by rw [Image.read_length hpay]; omega),
            checkedAdd_of_lt hend]
          simp only [framedLen, ← Nat.add_assoc]
          split <;> rfl

theorem Iter.step_record (V : Serves img size P) {it : Iter} {wal : Wal S}
    (hm : wal.maxRecordSize < 2 ^ 32) {p : List UInt8}
    (hp : recordAt img wal.maxRecordSize it.offset = some p) (hP : P wal.store) :
    ∃ s', it.step wal =
        (.ok (.record { lsn := it.offset, data := p } (it.offset + framedLen p.length)),
          { wal with store := s' }) ∧ P s' := by
  have hlook := look_record hm hp
  rw [← hlook]
  exact step_look V (by rw [hlook]; exact nofun) hP

theorem Iter.next_record (V : Serves img size P) {it : Iter} {wal : Wal S}
    (hm : wal.maxRecordSize < 2 ^ 32) (hdone : it.done = false) (hlt : it.offset < it.endAt)
    {p : List UInt8} (hp : recordAt img wal.maxRecordSize it.offset = some p)
    (hP : P wal.store) :
    ∃ s', it.next wal =
        (.ok (some (.ok { lsn := it.offset, data := p }),
            { it with offset := it.offset + framedLen p.length }),
          { wal with store := s' }) ∧ P s' := by
  obtain ⟨s', hs, hP'⟩ := Iter.step_record V hm hp hP
  refine ⟨s', ?_, hP'⟩
  rw [next, if_neg (by rw [hdone]; simp; omega), Act.attempt_bind, hs]
  rfl

theorem Iter.next_stop {it : Iter} {wal : Wal S} (h : it.done = true ∨ it.endAt ≤ it.offset) :
    it.next wal = (.ok (none, it), wal) := by
  rw [next, if_pos h]
  rfl

/-- The iterator yields the records of an intact list, and then what it finds behind them. -/
theorem Iter.collect_after (V : Serves img size P) {wal : Wal S}
    (hm : wal.maxRecordSize < 2 ^ 32) {ps : List (List UInt8)} (it : Iter)
    (hps : Intact img wal.maxRecordSize it.offset ps) (hdone : it.done = false)
    (hle : it.offset + (frames ps).length ≤ it.endAt) {items : List (Except WalError Record)}
    (hbehind : ∀ s1, P s1 → ∃ s',
      ({ it with offset := it.offset + (frames ps).length } : Iter).collect
          { wal with store := s1 } = (.ok items, { wal with store := s' }) ∧ P s')
    (hP : P wal.store) :
    ∃ s', it.collect wal =
        (.ok ((recordsFrom it.offset ps).map .ok ++ items), { wal with store := s' }) ∧ P s' := by
  induction ps generalizing it wal with
  | nil => exact hbehind wal.store hP
  | cons p ps ih =>
      obtain ⟨hp, hrest⟩ := (intact_cons_iff hm).mp hps
      have hlen : it.offset + (frames (p :: ps)).length =
          it.offset + framedLen p.length + (frames ps).length := by
        rw [frames_cons, List.length_append, frame_length, Nat.add_assoc]
      have hpos : 0 < framedLen p.length := framedLen_pos _
      rw [hlen] at hle hbehind
      obtain ⟨s1, h1, hP1⟩ := Iter.next_record V hm hdone (by omega) hp hP
      obtain ⟨s2, h2, hP2⟩ := @ih { wal with store := s1 } hm
        { it with offset := it.offset + framedLen p.length } hrest hdone hle hbehind hP1
      exact ⟨s2, collect_some h1 h2, hP2⟩

/-- Over an intact list of records the iterator yields each of them and ends,
under either recovery policy. -/
theorem Iter.collect_intact (V : Serves img size P) {wal : Wal S}
    (hm : wal.maxRecordSize < 2 ^ 32) {ps : List (List UInt8)} (it : Iter)
    (hps : Intact img wal.maxRecordSize it.offset ps) (hdone : it.done = false)
    (hend : it.endAt = it.offset + (frames ps).length) (hP : P wal.store) :
    ∃ s', it.collect wal =
        (.ok ((recordsFrom it.offset ps).map .ok), { wal with store := s' }) ∧ P s' := by
  rw [← List.append_nil ((recordsFrom it.offset ps).map Except.ok)]
  refine collect_after V hm it hps hdone (Nat.le_of_eq hend.symm) (fun s1 hP1 => ?_) hP
  exact ⟨s1, collect_none (next_stop (Or.inr (Nat.le_of_eq hend))), hP1⟩

/-! ## The check of a truncation -/

/-- The two reads that find a record let `truncate_after` go on. -/
theorem keptEnd_of_reads {wal : Wal S} {lsn : Nat} {p : List UInt8} {s1 s2 : S}
    (hm : wal.maxRecordSize < 2 ^ 32) (hlen : p.length ≤ wal.maxRecordSize)
    (hfit : lsn + framedLen p.length < 2 ^ 64)
    (hr1 : WalStore.readAt lsn headerLen wal.store = (.ok (header p), s1))
    (hr2 : WalStore.readAt (lsn + headerLen) p.length s1 = (.ok p, s2)) :
    keptEnd lsn wal = (.ok (lsn + framedLen p.length), { wal with store := s2 }) := by
  unfold framedLen at hfit
  rw [keptEnd, Act.get_bind, Act.bind_ok (onStore_ok hr1), if_neg (by rw [header_length]; omega)]
  simp only [parseHeader_header (show p.length < 2 ^ 32 by omega)]
  rw [if_neg (by omega), checkedAdd_of_lt (by omega)]
  simp only
  rw [Act.bind_ok (onStore_ok hr2), if_neg (by omega), if_neg (by rw [verify_header]; decide),
    checkedAdd_of_lt (by omega), framedLen, Nat.add_assoc]
  rfl

section Kept

variable {img : Image UInt8} {size : Nat} {P : S → Prop}

/-- Where a record is found, `truncate_after` will cut after it. -/
theorem keptEnd_record (V : Serves img size P) {wal : Wal S} (hm : wal.maxRecordSize < 2 ^ 32)
    {lsn : Nat} {p : List UInt8} (hp : recordAt img wal.maxRecordSize lsn = some p)
    (hP : P wal.store) :
    ∃ s', keptEnd lsn wal = (.ok (lsn + framedLen p.length), { wal with store := s' }) ∧ P s' := by
  obtain ⟨hlen, hhdr, hpay⟩ := recordAt_some_reads hm hp
  have hle := V.frame_le hm hp
  have hsize := V.size_lt
  obtain ⟨s1, hr1, hP1⟩ := V.full hP hhdr
  obtain ⟨s2, hr2, hP2⟩ := V.full hP1 hpay
  exact ⟨s2, keptEnd_of_reads hm hlen (by omega) hr1 hr2, hP2⟩

/-- The log is as it was, but for the handles of its store. -/
def Unmoved (P : S → Prop) (wal wal' : Wal S) : Prop := ∃ s', wal' = { wal with store := s' } ∧ P s'

/-- Corruption is reported at `lsn`, or a read was not in `reach`. -/
def NotFound (reach : Nat → Nat → Prop) (lsn m : Nat) (fault : Fault) : Prop :=
  (∃ detail, fault = .err (.corruption lsn detail)) ∨
    ∃ off n, RecordRead m lsn off n ∧ ¬ reach off n

variable {reach : Nat → Nat → Prop}

omit [WalStore S] in
/-- What a call of the store leaves of the log. -/
theorem onStore_unmoved {wal wal1 : Wal S} (h1 : Unmoved P wal wal1) {α : Type} {x : Act S Fault α}
    {A : α → Prop} {E : Fault → Prop}
    (h : ∀ {s}, P s → x.Ends s (fun a s' => A a ∧ P s') fun e s' => E e ∧ P s') :
    (onStore x).Ends wal1 (fun a wal2 => A a ∧ Unmoved P wal wal2)
      fun e wal2 => E e ∧ Unmoved P wal wal2 := by
  obtain ⟨s1, rfl, hP1⟩ := h1
  refine Act.Ends.zoom ((h hP1).mono ?_ ?_)
  · rintro a s2 ⟨hA, hP2⟩
    exact ⟨hA, s2, rfl, hP2⟩
  · rintro e s2 ⟨hE, hP2⟩
    exact ⟨hE, s2, rfl, hP2⟩

/-- Where none is found it reports corruption there, unless a read fails, and leaves the log as
it was. -/
theorem keptEnd_missing (R : Probes reach img P) {wal : Wal S} {lsn : Nat}
    (hp : recordAt img wal.maxRecordSize lsn = none) (hP : P wal.store) :
    (keptEnd lsn).Ends wal (fun _ _ => False)
      fun e wal' => NotFound reach lsn wal.maxRecordSize e ∧ Unmoved P wal wal' := by
  have hstart : Unmoved P wal wal := ⟨wal.store, rfl, hP⟩
  have hcorrupt : ∀ {detail wal'}, Unmoved P wal wal' →
      (Act.fail (.err (.corruption lsn detail)) : Act (Wal S) Fault Nat).Ends wal'
        (fun _ _ => False)
        fun e wal' => NotFound reach lsn wal.maxRecordSize e ∧ Unmoved P wal wal' :=
    fun h => Act.ends_fail ⟨Or.inl ⟨_, rfl⟩, h⟩
  have hany : ∀ {off n w1}, RecordRead wal.maxRecordSize lsn off n → Unmoved P wal w1 →
      (onStore (WalStore.readAt off n)).Ends w1 (fun _ w2 => True ∧ Unmoved P wal w2)
        fun e wal' => NotFound reach lsn wal.maxRecordSize e ∧ Unmoved P wal wal' := fun hask h1 =>
    onStore_unmoved h1 fun hP => (R.read_any hask hP).mono (fun _ _ h => ⟨trivial, h⟩)
      fun _ _ h => ⟨Or.inr h.2, h.1⟩
  have hshort : ∀ {off n w1}, RecordRead wal.maxRecordSize lsn off n → off + n < 2 ^ 64 →
      img.read off n = none → Unmoved P wal w1 →
      (onStore (WalStore.readAt off n)).Ends w1 (fun bs w2 => bs.length < n ∧ Unmoved P wal w2)
        fun e wal' => NotFound reach lsn wal.maxRecordSize e ∧ Unmoved P wal wal' :=
    fun hask hfit hnone h1 => onStore_unmoved h1 fun hP =>
      (R.read_short hask hfit hnone hP).mono (fun _ _ h => h) fun _ _ h => ⟨Or.inr h.2, h.1⟩
  refine Act.ends_get_bind ?_
  by_cases hfit : 2 ^ 64 ≤ lsn + headerLen
  · refine (hany (Or.inl ⟨rfl, rfl⟩) hstart).bind ?_
    rintro header w1 ⟨-, hw1⟩
    rw [checkedAdd_of_le hfit]
    split
    · exact hcorrupt hw1
    · dsimp only
      split <;> exact hcorrupt hw1
  rw [Nat.not_le] at hfit
  rcases recordAt_none_cases hp with hnone | ⟨hdr, hhdr, hcase⟩
  · refine (hshort (Or.inl ⟨rfl, rfl⟩) hfit hnone hstart).bind ?_
    rintro header w1 ⟨hlen, hw1⟩
    rw [if_pos hlen]
    exact hcorrupt hw1
  have hhl := Image.read_length hhdr
  obtain ⟨s1, hr, hP1⟩ := R.full hP hhdr
  rw [Act.Ends, Act.bind_ok (onStore_ok hr), if_neg (by omega)]
  have hw1 : Unmoved P wal { wal with store := s1 } := ⟨s1, rfl, hP1⟩
  rcases hcase with hbig | ⟨hlen, hpay⟩
  · rw [if_pos hbig]
    exact hcorrupt hw1
  simp only [if_neg (Nat.not_lt.mpr hlen), checkedAdd_of_lt hfit]
  have hask : RecordRead wal.maxRecordSize lsn (lsn + headerLen) (parseHeader hdr).len :=
    Or.inr ⟨rfl, hfit, hlen⟩
  by_cases hfit' : 2 ^ 64 ≤ lsn + headerLen + (parseHeader hdr).len
  · refine (hany hask hw1).bind ?_
    rintro payload w2 ⟨-, hw2⟩
    rw [checkedAdd_of_le hfit']
    split
    · exact hcorrupt hw2
    · split <;> exact hcorrupt hw2
  rcases hpay with hnone | ⟨payload, hread, hver⟩
  · refine (hshort hask (Nat.not_le.mp hfit') hnone hw1).bind ?_
    rintro payload w2 ⟨hlen2, hw2⟩
    rw [if_pos hlen2]
    exact hcorrupt hw2
  · obtain ⟨s2, hr2, hP2⟩ := R.full hP1 hread
    rw [Act.bind_ok (onStore_ok (by exact hr2)), if_neg (by rw [Image.read_length hread]; omega),
      if_pos hver]
    exact hcorrupt ⟨s2, rfl, hP2⟩

/-- What holds no record `truncate_after` turns down, and leaves the log as it was. -/
theorem truncateAfter_none (R : Probes reach img P) {wal : Wal S} {x : Nat}
    (hx : recordAt img wal.maxRecordSize x = none)
    (hreach : ∀ off n, RecordRead wal.maxRecordSize x off n → reach off n) (hP : P wal.store) :
    ∃ detail s', truncateAfter x wal =
      (.error (.err (.corruption x detail)), { wal with store := s' }) ∧ P s' := by
  rcases (keptEnd_missing R hx hP).cases with
    ⟨_, _, _, hf⟩ | ⟨_, _, hrun, ⟨detail, rfl⟩ | ⟨off, n, hask, hno⟩, s', rfl, hP'⟩
  · exact hf.elim
  · exact ⟨detail, s', by rw [truncateAfter, Act.bind_error hrun], hP'⟩
  · exact absurd (hreach off n hask) hno

/-- Only behind a record is there anything to keep. -/
theorem recordAt_of_keptEnd (R : Probes reach img P) {wal wal' : Wal S} {lsn kept : Nat}
    (hP : P wal.store) (h : keptEnd lsn wal = (.ok kept, wal')) :
    ∃ p, recordAt img wal.maxRecordSize lsn = some p := by
  cases hp : recordAt img wal.maxRecordSize lsn with
  | some p => exact ⟨p, rfl⟩
  | none =>
      have hmissing := keptEnd_missing R hp hP
      rw [Act.Ends, h] at hmissing
      exact hmissing.elim

end Kept

end Wal

/-! ## Opening -/

section Open

variable {S : Type} [WalStore S] {img : Image UInt8} {size : Nat} {P : S → Prop}

/-- What `recover` does once the scan has stopped: nothing if it reached the end,
else the branch on the open policy. -/
theorem recover_eq (V : View img size P) (config : WalConfig) (head : Nat) {s : S} (hP : P s) :
    ∃ s', P s' ∧
      let e := logEnd img config.maxRecordSize size head
      (¬ e < size → recover config head s = (.ok { endAt := e, cut := size - e }, s')) ∧
      (e < size → recover config head s =
        (cutTail config e size >>= fun _ => pure { endAt := e, cut := size - e }) s') := by
  obtain ⟨s', hscan, hP'⟩ := scan_eq V config.maxRecordSize_lt head hP
  refine ⟨s', hP', fun hge => ?_, fun hlt => ?_⟩
  · rw [recover, Act.bind_ok (V.len_eq hP), Act.bind_ok hscan, if_neg hge]
    rfl
  · rw [recover, Act.bind_ok (V.len_eq hP), Act.bind_ok hscan, if_pos hlt]

theorem cutTail_truncateTail {config : WalConfig} (h : config.openPolicy = .truncateTail)
    (offset physical : Nat) :
    cutTail config offset physical = (WalStore.truncate offset : Act S Fault Unit) := by
  rw [cutTail, if_neg (by rw [h]; decide)]

/-- A store that keeps one run of bytes from offset 0: reads return the slice and
change nothing, truncation at or above the head keeps the initial part. -/
structure FlatStore (S : Type) [WalStore S] (data : S → List UInt8) (headAt : S → Nat) : Prop where
  readAt_eq : ∀ (off n : Nat) (s : S),
    WalStore.readAt off n s = (.ok (((data s).drop off).take n), s)
  truncate_eq : ∀ (len : Nat) (s : S), headAt s ≤ len → len ≤ (data s).length →
    ∃ s', WalStore.truncate len s = (.ok (), s') ∧ data s' = (data s).take len ∧
      headAt s' = headAt s
  len_eq : ∀ s : S, WalStore.len s = (.ok (data s).length, s)
  head_eq : ∀ s : S, WalStore.head s = (.ok (headAt s), s)
  length_lt : ∀ s : S, (data s).length < 2 ^ 64
  headAt_le : ∀ s : S, headAt s ≤ (data s).length

theorem MemStore.flat : FlatStore MemStore MemStore.data (fun _ => 0) where
  readAt_eq := MemStore.readAt_eq
  truncate_eq _ _ _ _ := ⟨_, rfl, rfl, rfl⟩
  len_eq _ := rfl
  head_eq _ := rfl
  length_lt s := by have h := s.data_lt; omega
  headAt_le _ := Nat.zero_le _

theorem HeadStore.flat : FlatStore HeadStore HeadStore.data HeadStore.headAt where
  readAt_eq _ _ _ := rfl
  truncate_eq _ _ hhead _ := ⟨_, rfl, rfl, Nat.min_eq_left hhead⟩
  len_eq _ := rfl
  head_eq _ := rfl
  length_lt s := s.data_lt
  headAt_le s := s.headAt_le

variable {data : S → List UInt8} {headAt : S → Nat}

/-- A store whose reads return slices of `bytes` and change nothing. -/
theorem View.ofList {s : S} {bytes : List UInt8}
    (hread : ∀ off n, WalStore.readAt off n s = (.ok ((bytes.drop off).take n), s))
    (hlen : WalStore.len s = (.ok bytes.length, s)) (hlt : bytes.length < 2 ^ 64) :
    View (Image.ofList bytes) bytes.length (· = s) where
  full := by
    rintro t off n bs rfl h
    exact ⟨t, by rw [hread, (Image.read_ofList_eq_some h).2], rfl⟩
  past := by
    rintro t off n rfl -
    exact Act.ends_of_ok (hread off n) rfl
  short := by
    rintro t off n rfl - h
    exact ⟨_, t, hread off n, Image.take_lt_of_read_ofList h, rfl⟩
  len_eq := by
    rintro t rfl
    exact hlen
  past_end h := List.getElem?_eq_none h
  size_lt := hlt

/-- The same, where reads that are not in reach fail. -/
theorem Sight.ofList {s : S} {bytes : List UInt8} {reach : Nat → Nat → Prop}
    (hwithin : ∀ {off n : Nat}, n = 0 ∨ off + n ≤ bytes.length → reach off n)
    (hread : ∀ off n, reach off n → WalStore.readAt off n s = (.ok ((bytes.drop off).take n), s))
    (hrefuse : ∀ off n, ¬ reach off n → ∃ fault, WalStore.readAt off n s = (.error fault, s))
    (hlen : WalStore.len s = (.ok bytes.length, s)) (hlt : bytes.length < 2 ^ 64) :
    Sight reach (Image.ofList bytes) bytes.length (· = s) where
  full := by
    rintro t off n bs rfl h
    obtain ⟨hin, rfl⟩ := Image.read_ofList_eq_some h
    exact ⟨t, hread off n (hwithin hin), rfl⟩
  missing := by
    rintro t off n rfl h
    by_cases hreach : reach off n
    · exact Act.ends_of_ok (hread off n hreach) ⟨fun _ => Image.take_lt_of_read_ofList h, rfl⟩
    · obtain ⟨fault, hrun⟩ := hrefuse off n hreach
      exact Act.ends_of_error hrun ⟨rfl, hreach⟩
  within hle := hwithin (Or.inr hle)
  len_eq := by
    rintro t rfl
    exact hlen
  past_end h := List.getElem?_eq_none h
  size_lt := hlt

/-- A flat store is its bytes, and fails no read. -/
theorem FlatStore.sight (F : FlatStore S data headAt) (s : S) :
    Sight (fun _ _ => True) (Image.ofList (data s)) (data s).length (· = s) :=
  Sight.ofList (fun _ => trivial) (fun off n _ => F.readAt_eq off n s)
    (fun _ _ hno => absurd trivial hno) (F.len_eq s) (F.length_lt s)

theorem FlatStore.view (F : FlatStore S data headAt) (s : S) :
    View (Image.ofList (data s)) (data s).length (· = s) :=
  View.ofList (fun off n => F.readAt_eq off n s) (F.len_eq s) (F.length_lt s)

theorem FlatStore.bounded (F : FlatStore S data headAt) (s : S) :
    Bounded (Image.ofList (data s)) (data s).length (· = s) where
  toView := F.view s
  past_short := by
    intro t off n ht hoff hpast
    subst ht
    have hlt := F.length_lt t
    refine ⟨_, t, F.readAt_eq off n t, ?_, rfl⟩
    rw [List.length_take, List.length_drop]
    omega

/-! ## Recovery of a flat store -/

/-- The frames of `ps`, each payload of at most `m` bytes, begin `b`. -/
def BeginsWith (m : Nat) (b : List UInt8) (ps : List (List UInt8)) : Prop :=
  (∀ p ∈ ps, p.length ≤ m) ∧ ps.flatMap (encode []) <+: b

/-- No longer list of payloads has frames that begin `b`. -/
def IsLongest (m : Nat) (b : List UInt8) (ps : List (List UInt8)) : Prop :=
  BeginsWith m b ps ∧ ∀ qs, BeginsWith m b qs → qs.length ≤ ps.length

theorem beginsWith_drop_iff {b : List UInt8} {m off : Nat} {ps : List (List UInt8)}
    (hoff : off ≤ b.length) :
    BeginsWith m (b.drop off) ps ↔ Intact (Image.ofList b) m off ps := by
  unfold BeginsWith Intact
  refine and_congr_right fun _ => ?_
  show frames ps <+: _ ↔ _
  constructor
  · intro h
    have hle := h.length_le
    rw [List.length_drop] at hle
    rw [Image.read_ofList (by omega), ← List.prefix_iff_eq_take.mp h]
  · intro h
    by_cases hle : off + (frames ps).length ≤ b.length
    · rw [Image.read_ofList hle] at h
      exact List.prefix_iff_eq_take.mpr (Option.some.inj h).symm
    · rw [Image.read_ofList_eq_none (by omega) (by omega)] at h
      cases h

/-- The records found in the image are the one longest list. -/
theorem isLongest_payloads {b : List UInt8} {m off : Nat} (hm : m < 2 ^ 32)
    (hoff : off ≤ b.length) :
    IsLongest m (b.drop off) (payloads (Image.ofList b) m b.length off) ∧
      ∀ qs, IsLongest m (b.drop off) qs → qs = payloads (Image.ofList b) m b.length off := by
  have hpast : ∀ o, b.length ≤ o → Image.ofList b o = none :=
    fun o ho => List.getElem?_eq_none ho
  have hbegin : BeginsWith m (b.drop off) (payloads (Image.ofList b) m b.length off) :=
    (beginsWith_drop_iff hoff).mpr (intact_payloads hm off)
  have hpre : ∀ qs, BeginsWith m (b.drop off) qs →
      qs <+: payloads (Image.ofList b) m b.length off :=
    fun qs hqs => ((beginsWith_drop_iff hoff).mp hqs).isPrefix hm hpast
  refine ⟨⟨hbegin, fun qs hqs => (hpre qs hqs).length_le⟩, fun qs hqs => ?_⟩
  exact (hpre qs hqs.1).eq_of_length
    (Nat.le_antisymm (hpre qs hqs.1).length_le (hqs.2 _ hbegin))

/-- Opening `store` recovers the intact prefix of its bytes `b`, read from `head`:
the open succeeds, every watermark and the store itself end where the longest
list of frames ends, and both ways of iterating yield that list and nothing
else. -/
def RecoversPrefix (data : S → List UInt8) (head : Nat) (config : WalConfig) (store : S) : Prop :=
  let b := data store
  ∃ (ps : List (List UInt8)) (wal : Wal S),
    let e := head + (ps.flatMap (encode [])).length
    IsLongest config.maxRecordSize (b.drop head) ps ∧
      (∀ qs, IsLongest config.maxRecordSize (b.drop head) qs → qs = ps) ∧
      Wal.withStoreAndConfig config store = (.ok wal, wal.store) ∧
      wal.tail = e ∧ wal.commit.committed = e ∧ wal.commit.durable = e ∧
      data wal.store = b.take e ∧ (WalStore.len wal.store).1 = .ok e ∧
      wal.truncatedOnOpen = b.length - e ∧
      (wal.iter.collect wal).1 = .ok ((Wal.recordsFrom head ps).map .ok) ∧
      ((wal.iterFrom 0).collect wal).1 = .ok ((Wal.recordsFrom head ps).map .ok)

/-- The open of a flat store, step by step: the scan stops at the end of the
records, and the cut leaves exactly the bytes below it. -/
theorem FlatStore.open_eq (F : FlatStore S data headAt) (config : WalConfig)
    (hpol : config.openPolicy = .truncateTail) (s : S) :
    let e := logEnd (Image.ofList (data s)) config.maxRecordSize (data s).length (headAt s)
    ∃ s', data s' = (data s).take e ∧ headAt s' = headAt s ∧
      Wal.withStoreAndConfig config s =
        (.ok { tail := e, store := s', maxRecordSize := config.maxRecordSize,
               recoveryPolicy := config.recoveryPolicy, head := headAt s,
               commit := Commit.new e, truncatedOnOpen := (data s).length - e }, s') := by
  have V := F.view s
  have hpast : ∀ o, (data s).length ≤ o → Image.ofList (data s) o = none :=
    fun o ho => List.getElem?_eq_none ho
  have hle : logEnd (Image.ofList (data s)) config.maxRecordSize (data s).length (headAt s) ≤
      (data s).length := logEnd_le config.maxRecordSize_lt hpast (F.headAt_le s)
  have hhead : headAt s ≤
      logEnd (Image.ofList (data s)) config.maxRecordSize (data s).length (headAt s) :=
    Nat.le_add_right _ _
  obtain ⟨t, rfl, hfull, hcut⟩ := recover_eq V config (headAt s) rfl
  generalize logEnd (Image.ofList (data t)) config.maxRecordSize (data t).length (headAt t) = e
    at *
  dsimp only
  by_cases hlt : e < (data t).length
  · obtain ⟨t', htrunc, hdata, hh⟩ := F.truncate_eq e t hhead hle
    refine ⟨t', hdata, hh, ?_⟩
    have hrec : recover config (headAt t) t =
        (.ok { endAt := e, cut := (data t).length - e }, t') := by
      rw [hcut hlt, cutTail_truncateTail hpol, Act.bind_ok htrunc]
      rfl
    rw [Wal.withStoreAndConfig, Act.bind_ok (F.head_eq t), Act.bind_ok hrec]
    rfl
  · refine ⟨t, by rw [List.take_of_length_le (by omega)], rfl, ?_⟩
    rw [Wal.withStoreAndConfig, Act.bind_ok (F.head_eq t), Act.bind_ok (hfull hlt)]
    rfl

/-- A store that holds nothing but records is opened as it is. -/
theorem HeadStore.open_whole (config : WalConfig) (hpol : config.openPolicy = .truncateTail)
    (s : HeadStore)
    (h : logEnd (Image.ofList s.data) config.maxRecordSize s.data.length s.headAt = s.data.length) :
    Wal.withStoreAndConfig config s =
      (.ok { tail := s.data.length, store := s, maxRecordSize := config.maxRecordSize,
             recoveryPolicy := config.recoveryPolicy, head := s.headAt,
             commit := Commit.new s.data.length, truncatedOnOpen := 0 }, s) := by
  obtain ⟨s', hdata, hhead, hopen⟩ := HeadStore.flat.open_eq config hpol s
  rw [h, List.take_length] at hdata
  rw [h, Nat.sub_self] at hopen
  have hs : s' = s := by
    obtain ⟨data, headAt, hlt, hle⟩ := s'
    cases hdata
    cases hhead
    rfl
  rw [hopen, hs]

/-- Over a flat store an iterator yields the intact records up to its end. -/
theorem FlatStore.collect_eq (F : FlatStore S data headAt) {wal : Wal S}
    (hm : wal.maxRecordSize < 2 ^ 32) {it : Wal.Iter} {off : Nat} {ps : List (List UInt8)}
    (hps : Intact (Image.ofList (data wal.store)) wal.maxRecordSize off ps)
    (hoff : it.offset = off) (hdone : it.done = false)
    (hend : it.endAt = off + (frames ps).length) :
    (it.collect wal).1 = .ok ((Wal.recordsFrom off ps).map .ok) := by
  subst hoff
  obtain ⟨s', hcol, -⟩ :=
    Wal.Iter.collect_intact (F.view wal.store).serves hm it hps hdone hend rfl
  rw [hcol]

theorem FlatStore.recoversPrefix (F : FlatStore S data headAt) (config : WalConfig)
    (hpol : config.openPolicy = .truncateTail) (s : S) :
    RecoversPrefix data (headAt s) config s := by
  have hm := config.maxRecordSize_lt
  have hpast : ∀ o, (data s).length ≤ o → Image.ofList (data s) o = none :=
    fun o ho => List.getElem?_eq_none ho
  obtain ⟨hlongest, huniq⟩ := isLongest_payloads hm (F.headAt_le s)
  obtain ⟨s', hdata, hh, hopen⟩ := F.open_eq config hpol s
  have hle := logEnd_le (m := config.maxRecordSize) hm hpast (F.headAt_le s)
  have hintact := @intact_payloads (Image.ofList (data s)) config.maxRecordSize
    (data s).length hm (headAt s)
  unfold logEnd at hdata hopen hle
  -- The cut store still holds every byte the records occupy.
  have hkept : Intact (Image.ofList (data s')) config.maxRecordSize (headAt s)
      (payloads (Image.ofList (data s)) config.maxRecordSize (data s).length (headAt s)) := by
    refine hintact.congr (Nat.le_refl _) fun o _ ho => ?_
    simp only [Image.ofList, hdata]
    rw [List.getElem?_take_of_lt ho]
  refine ⟨_, _, hlongest, huniq, hopen, rfl, rfl, rfl, hdata, ?_, rfl, ?_, ?_⟩
  all_goals
    generalize payloads (Image.ofList (data s)) config.maxRecordSize (data s).length
      (headAt s) = ps at *
  · rw [F.len_eq, hdata, List.length_take, Nat.min_eq_left hle]
    rfl
  · exact F.collect_eq hm hkept rfl rfl rfl
  · refine F.collect_eq hm hkept ?_ rfl rfl
    show min (max 0 (headAt s)) (headAt s + (frames ps).length) = headAt s
    omega

/-- Reopening yields the records of the image. -/
theorem FlatStore.reopen (F : FlatStore S data headAt) (config : WalConfig)
    (hpol : config.openPolicy = .truncateTail) (s : S) :
    ∃ wal, Wal.withStoreAndConfig config s = (.ok wal, wal.store) ∧
      (wal.iter.collect wal).1 = .ok ((Wal.recordsFrom (headAt s)
        (payloads (Image.ofList (data s)) config.maxRecordSize (data s).length (headAt s))).map
          .ok) := by
  obtain ⟨ps, wal, -, huniq, hopen, -, -, -, -, -, -, hiter, -⟩ := F.recoversPrefix config hpol s
  have hps := huniq _ (isLongest_payloads config.maxRecordSize_lt (F.headAt_le s)).1
  exact ⟨wal, hopen, by rw [hiter, hps]⟩

/-- Recovery reads all and only the intact prefix, of every image and under every
configuration, from offset 0 or from a recorded head. -/
theorem open_recovers_intact_prefix (config : WalConfig) :
    (∀ store : MemStore,
        RecoversPrefix MemStore.data 0 (config.withOpenPolicy .truncateTail) store) ∧
      ∀ store : HeadStore,
        RecoversPrefix HeadStore.data store.headAt
          (config.withOpenPolicy .truncateTail) store :=
  ⟨fun store => MemStore.flat.recoversPrefix _ rfl store,
    fun store => HeadStore.flat.recoversPrefix _ rfl store⟩

end Open
end WalDb
